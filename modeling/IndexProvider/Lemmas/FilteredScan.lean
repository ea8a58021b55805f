import IndexProvider.Lemmas.TableScan

/-!
This module contains the scan of a table through its indexes: filter analysis, the fetch of the keys
that the indexes select and the filter over the fetched rows return the rows that meet all filters.
-/

namespace IndexProvider

open NamedTuple Enumeration

variable {V R : Type}

namespace IndexedTableProvider

variable {provider : IndexedTableProvider V} {filters : List Expr}
  {reports : List TableProviderFilterPushDown} {indexed : IndexFilters V} {remaining : List Expr}

theorem forall_reported_iff {P : Expr → Prop} (hlength : reports.length = filters.length)
    (hreports : ∀ r ∈ reports, r = .exact ∨ r = .unsupported)
    : (∀ filter ∈ filters, P filter)
        ↔
      (∀ filter ∈ reported .exact filters reports, P filter) ∧
        ∀ filter ∈ reported .unsupported filters reports, P filter := by
  induction filters generalizing reports with
  | nil => simp [reported]
  | cons filter filters ih =>
    match reports, hlength, hreports with
    | report :: reports, hlength, hreports =>
      rw [List.forall_mem_cons] at hreports
      rw [List.length_cons, List.length_cons, Nat.add_right_cancel_iff] at hlength
      rw [List.forall_mem_cons, ih hlength hreports.2, reported_cons, reported_cons]
      rcases hreports.1 with rfl | rfl
      . simp [and_assoc]
      . simp [and_left_comm]

theorem Negotiated.root (h : Negotiated provider filters reports indexed remaining)
    (hne : indexed ≠ [])
    : ∃ root, indexed = [root] ∧ root.NoEmptyNode ∧
        (∀ leaf ∈ root.leaves, provider.PicksFirst leaf.1 leaf.2) ∧
          ∀ (leaf : Expr → R → Option Bool) (row : R), root.selects leaf row = true
            ↔ ∀ filter ∈ reported .exact filters reports, filter.truth leaf row = some true := by
  -- One tree is the root itself; two or more are joined by a root `And`.
  obtain ⟨trees, htrees, hfew, hmany⟩ := h.trees
  generalize reported .exact filters reports = exprs at htrees
  by_cases hlength : trees.length < 2
  . rw [hfew hlength] at hne ⊢
    match htrees with
    | .nil => exact absurd rfl hne
    | .cons (a := tree) (b := expr) hrepresents .nil =>
      refine ⟨tree, rfl, hrepresents.no_empty_node, hrepresents.picks_first, ?_⟩
      intro leaf row
      rw [List.forall_mem_singleton, IndexFilter.selects_eq_true_iff hrepresents.erase_eq]
    | .cons _ (.cons _ _) =>
      simp only [List.length_cons] at hlength
      omega
  . have htrees_ne : trees ≠ [] := by
      intro hnil
      simp [hnil] at hlength
    have hmem : ∀ tree ∈ trees, ∃ expr ∈ exprs, provider.Represents tree expr := by
      intro tree htree
      obtain ⟨expr, hexpr, hrepresents⟩ := Collect.forall₂_of_mem_left htrees htree
      exact ⟨expr, hexpr, hrepresents⟩
    refine ⟨.and trees, hmany (by omega), ⟨htrees_ne, ?_⟩, ?_, ?_⟩
    . apply IndexFilter.noEmptyNodes_iff.mpr
      intro tree htree
      obtain ⟨_, -, hrepresents⟩ := hmem tree htree
      exact hrepresents.no_empty_node
    . have hpicks : ∀ tree ∈ trees, ∀ leaf ∈ tree.leaves, provider.PicksFirst leaf.1 leaf.2 := by
        intro tree htree
        obtain ⟨_, -, hrepresents⟩ := hmem tree htree
        exact hrepresents.picks_first
      exact IndexFilter.forall_allLeaves.mpr hpicks
    . intro leaf row
      rw [IndexFilter.selects, IndexFilter.selectsAll_iff]
      constructor
      . intro hselects expr hexpr
        obtain ⟨tree, htree, hrepresents⟩ := Collect.forall₂_of_mem_right htrees hexpr
        exact (IndexFilter.selects_eq_true_iff hrepresents.erase_eq).mp (hselects tree htree)
      . intro htruth tree htree
        obtain ⟨expr, hexpr, hrepresents⟩ := hmem tree htree
        exact (IndexFilter.selects_eq_true_iff hrepresents.erase_eq).mpr (htruth expr hexpr)

theorem analyzeAndOptimizeFilters_eq_ok
    (h : provider.analyzeAndOptimizeFilters filters = .ok (indexed, remaining)) (hne : indexed ≠ [])
    : ∃ root, indexed = [root] ∧ root.NoEmptyNode ∧
        (∀ leaf ∈ root.leaves, provider.PicksFirst leaf.1 leaf.2) ∧
          ∀ (leaf : Expr → R → Option Bool) (row : R),
            (∀ filter ∈ filters, filter.truth leaf row = some true)
              ↔
            root.selects leaf row = true ∧ ∀ filter ∈ remaining, filter.truth leaf row = some true := by
  cases hbuilt : filters.mapM provider.buildIndexFilter with
  | error e =>
    rw [analyzeAndOptimizeFilters_eq, hbuilt] at h
    cases h
  | ok built =>
    have hbuilt : Built provider filters built := Collect.mapM_eq_ok.mp hbuilt
    rw [hbuilt.analyze] at h
    cases h
    have hnegotiated := hbuilt.negotiated
    obtain ⟨root, hroot, hf, hleaves, hselects⟩ := hnegotiated.root (R := R) hne
    refine ⟨root, hroot, hf, hleaves, ?_⟩
    intro leaf row
    rw [forall_reported_iff hnegotiated.length_eq hnegotiated.exact_or_unsupported, hselects]

end IndexedTableProvider

section

variable [DecidableEq V] {df : DataFusion} {createPhysicalExpr : CreatePhysicalExpr R}
  {provider : IndexedTableProvider V} {remaining : List Expr} {limit : Option Nat} {schema : Schema}
  {mapper : RecordFetcher V R} {table : Table V R} {leaf : Expr → R → Option Bool}
  {f : IndexFilter V} {plan : TablePlan V R}

omit [DecidableEq V] in
theorem FilterExec.build_boolean (truth : R → Option Bool) (exec : RecordFetchExec V R)
    (fetch : Option Nat)
    : FilterExec.build ⟨.boolean, truth⟩ exec fetch = .ok (.filter truth exec fetch) := rfl

omit [DecidableEq V] in
theorem IndexedTableProvider.createExecutionPlanWithIndexes_eq_ok
    (hplans : createPhysicalExpr.Plans leaf schema remaining)
    : provider.createExecutionPlanWithIndexes df createPhysicalExpr [f] remaining limit schema mapper
          = .ok plan
        ↔
      ∃ input,
        RecordFetchExec.buildScanExec df provider.unionMode f (if remaining = [] then limit else none)
            = .ok input ∧
          plan = match conjunction remaining with
            | none => .recordFetch ⟨[f], limit, mapper, input, schema, provider.unionMode⟩
            | some predicate => .filter (fun row => predicate.truth leaf row)
                ⟨[f], none, mapper, input, schema, provider.unionMode⟩ limit := by
  unfold createExecutionPlanWithIndexes
  cases hconjunction : conjunction remaining with
  | none =>
    rw [if_pos (conjunction_eq_none.mp hconjunction)]
    simp only [RecordFetchExec.tryNew, Collect.bind_eq_ok, Collect.pure_eq_ok]
    constructor
    . intro h
      obtain ⟨_, ⟨input, hinput, rfl⟩, rfl⟩ := h
      exact ⟨input, hinput, rfl⟩
    . intro h
      obtain ⟨input, hinput, rfl⟩ := h
      exact ⟨_, ⟨input, hinput, rfl⟩, rfl⟩
  | some predicate =>
    have hne : remaining ≠ [] := by
      intro hnil
      rw [conjunction_eq_none.mpr hnil] at hconjunction
      cases hconjunction
    rw [if_neg hne]
    simp only [hplans predicate hconjunction, RecordFetchExec.tryNew,
      Collect.bind_eq_ok, Collect.pure_eq_ok, Except.ok.injEq]
    constructor
    . intro h
      obtain ⟨_, rfl, _, ⟨input, hinput, rfl⟩, h⟩ := h
      rw [FilterExec.build_boolean, Except.ok.injEq] at h
      exact ⟨input, hinput, h.symm⟩
    . intro h
      obtain ⟨input, hinput, rfl⟩ := h
      exact ⟨_, rfl, _, ⟨input, hinput, rfl⟩, FilterExec.build_boolean _ _ _⟩

def Table.answers (table : Table V R) (leaf : Expr → R → Option Bool) (f : IndexFilter V)
    (remaining : List Expr) : Set R :=
  {row | row ∈ table.rows ∧ f.selects leaf row = true ∧
    ∀ filter ∈ remaining, filter.truth leaf row = some true}

structure Table.Answers (table : Table V R) (leaf : Expr → R → Option Bool) (limit : Option Nat)
    (index : Index V) (filter : Expr) : Prop where
  exact : table.Exact leaf index filter
  limited : ∀ n, limit = some n → table.Limited leaf n index filter

omit [DecidableEq V] in
theorem Table.Answers.scans {index : Index V} {filter : Expr}
    (h : table.Answers leaf limit index filter) {limit' : Option Nat}
    (hlimit : limit' = none ∨ limit' = limit)
    : index.Scans table.keySchema.columns (table.leafKeys leaf index filter) filter limit' := by
  cases limit' with
  | none => exact Table.scans_of_exact h.exact
  | some n =>
    rcases hlimit with hlimit | hlimit
    . cases hlimit
    . exact Table.scans_of_limited (h.limited n hlimit.symm)

section

variable (hdf : df.Schemas)
  (hfetch : ∀ leaf' ∈ f.leaves.head?, table.FetchedBy leaf'.1.indexSchema.columns mapper)
  (hplans : createPhysicalExpr.Plans leaf schema remaining) (hf : f.NoEmptyNode)
  (hleaves : ∀ leaf' ∈ f.leaves, table.Answers leaf limit leaf'.1 leaf'.2)
include hdf hfetch hplans hf hleaves

theorem IndexedTableProvider.createExecutionPlanWithIndexes_returns
    (h : provider.createExecutionPlanWithIndexes df createPhysicalExpr [f] remaining limit schema
      mapper = .ok plan)
    : (∃ rows, plan.Returns rows) ∧
        ∀ rows, plan.Returns rows → Enumerates (table.answers leaf f remaining) limit rows ∧
          ((remaining ≠ [] ∨ ∀ index filter, f ≠ .single index filter) →
            ∀ n, limit = some n → rows.length ≤ n) := by
  obtain ⟨input, hinput, rfl⟩ := (createExecutionPlanWithIndexes_eq_ok hplans).mp h
  have hproduces : input.Produces table.keySchema.columns (f.denote (table.leafKeys leaf))
      (if remaining = [] then limit else none) := by
    apply RecordFetchExec.buildScanExec_produces hdf Table.columns_nodup Table.columns_ne_nil hf _
      hinput
    intro leaf' hleaf limit' hlimit
    apply (hleaves leaf' hleaf).scans
    split at hlimit
    . exact hlimit
    . exact .inl (or_self_iff.mp hlimit)
  have hfetch : table.FetchedBy input.schema.columns mapper :=
    .of_leftmost hdf hf (fun leaf' hleaf' => (hleaves leaf' hleaf').exact.columns) hfetch hinput
  cases hconjunction : conjunction remaining with
  | none =>
    have hnil := conjunction_eq_none.mp hconjunction
    subst hnil
    have hanswers : table.answers leaf f [] = table.selected leaf f := by
      ext row
      simp [Table.answers, Table.selected]
    rw [if_pos rfl] at hinput hproduces
    constructor
    . apply Table.exists_returns hfetch hf hproduces
    intro rows hrows
    have hrows : RecordFetchExec.Returns _ rows := hrows
    obtain ⟨hemits, henumerates⟩ := Table.returns_eq hfetch hf hproduces hrows
    rw [hanswers]
    refine ⟨henumerates, ?_⟩
    intro hroot n hn
    subst hn
    have hle := RecordFetchExec.buildScanExec_emitsPart_le (hroot.resolve_left (by simp)) hinput
      hemits.emitsPart
    rw [List.length_map] at hle
    exact hle
  | some predicate =>
    have hne : remaining ≠ [] := by
      intro hnil
      rw [conjunction_eq_none.mpr hnil] at hconjunction
      cases hconjunction
    have hanswers : table.answers leaf f remaining
        = {row | row ∈ table.selected leaf f ∧
            decide (predicate.truth leaf row = some true) = true} := by
      ext row
      simp only [Table.answers, Table.selected, Set.mem_ofPred_eq, decide_eq_true_eq,
        conjunction_truth hconjunction, and_assoc]
    rw [if_neg hne] at hinput hproduces
    constructor
    . have hreturns : ∃ rows, RecordFetchExec.Returns
          ⟨[f], none, mapper, input, schema, provider.unionMode⟩ rows :=
        Table.exists_returns hfetch hf hproduces
      obtain ⟨rows, hrows⟩ := hreturns
      exact ⟨_, rows, hrows, rfl⟩
    . -- The filter sees every row the tree selects, and the limit cuts off what it keeps.
      intro rows hrows
      obtain ⟨fetched, hfetched, rfl⟩ := hrows
      obtain ⟨-, henumerates⟩ := Table.returns_eq hfetch hf hproduces hfetched
      have hkept := henumerates.filter fun row => decide (predicate.truth leaf row = some true)
      rw [hanswers]
      cases limit with
      | none =>
        refine ⟨hkept, ?_⟩
        intro _ n hn
        cases hn
      | some n =>
        refine ⟨hkept.take (.inl rfl), ?_⟩
        intro _ n' hn
        cases hn
        exact List.length_take_le _ _

end

end

variable [DecidableEq V] {df : DataFusion} {merge : Metadata → Metadata → Metadata}
  {createPhysicalExpr : CreatePhysicalExpr R} {provider : IndexedTableProvider V}
  {filters remaining : List Expr} {indexed : IndexFilters V} {schema : Schema}
  {mapper : RecordFetcher V R} {table : Table V R} {leaf : Expr → R → Option Bool}

def IndexedTableProvider.ExactOn (provider : IndexedTableProvider V) (table : Table V R)
    (leaf : Expr → R → Option Bool) : Prop :=
  ∀ indexes, provider.indexes = .ok indexes → ∀ index ∈ indexes,
    index.indexSchema = table.keySchema ∧
      ∀ expr, index.supportsPredicate expr = .ok true → table.Exact leaf index expr

/--
An indexed scan without a limit can be planned, and returns each row of the table that meets all
filters once, and no other.
-/
theorem IndexedTableProvider.indexed_scan_eq_filtered_scan
    (hdf : df.Schemas) (hheaders : df.Headers) (horderings : df.KeyOrderings)
    (hmerge : df.JoinMetadata merge) (hindexes : provider.ExactOn table leaf)
    (hfetch : table.FetchedAs id mapper)
    (h : provider.analyzeAndOptimizeFilters filters = .ok (indexed, remaining)) (hne : indexed ≠ [])
    (hplans : createPhysicalExpr.Plans leaf schema remaining)
    : ∃ plan, provider.createExecutionPlanWithIndexes df createPhysicalExpr indexed remaining none
          schema mapper = .ok plan ∧
        (∃ rows, plan.Returns rows) ∧
          ∀ rows, plan.Returns rows → rows.Perm (table.rows.filter fun row =>
            filters.all fun filter => filter.truth leaf row = some true) := by
  obtain ⟨root, rfl, hf, hpicks, htruth⟩ := analyzeAndOptimizeFilters_eq_ok (R := R) h hne
  have hleaf : ∀ leaf' ∈ root.leaves, leaf'.1.indexSchema = table.keySchema ∧
      table.Exact leaf leaf'.1 leaf'.2 := by
    intro leaf' hleaf'
    obtain ⟨before, after, hprovider, -, hsupports⟩ := hpicks leaf' hleaf'
    obtain ⟨hschema, hexact⟩ := hindexes _ hprovider leaf'.1 (by simp)
    exact ⟨hschema, hexact _ hsupports⟩
  obtain ⟨input, hinput⟩ := IndexFilter.accepted_of_leaves hdf hheaders horderings hmerge
    table.fields_ne_nil table.names_nodup hf (fun leaf' hleaf' => (hleaf leaf' hleaf').1)
    provider.unionMode none
  obtain ⟨plan, hplan⟩ : ∃ plan, provider.createExecutionPlanWithIndexes df createPhysicalExpr [root]
      remaining none schema mapper = .ok plan := by
    refine ⟨_, (createExecutionPlanWithIndexes_eq_ok hplans).mpr ⟨input, ?_, rfl⟩⟩
    rw [ite_self]
    exact hinput
  have hanswers : ∀ leaf' ∈ root.leaves, table.Answers leaf none leaf'.1 leaf'.2 := by
    intro leaf' hleaf'
    exact ⟨(hleaf leaf' hleaf').2, by simp⟩
  have hfetchedBy : ∀ leaf' ∈ root.leaves.head?,
      table.FetchedBy leaf'.1.indexSchema.columns mapper := by
    intro leaf' hleaf'
    rw [(hleaf leaf' (List.mem_of_head? hleaf')).1]
    exact hfetch.fetchedBy
  obtain ⟨hreturns, henumerates⟩ :=
    createExecutionPlanWithIndexes_returns hdf hfetchedBy hplans hf hanswers hplan
  refine ⟨plan, hplan, hreturns, ?_⟩
  intro rows hrows
  apply (henumerates rows hrows).1.perm_of_mem_iff (table.keys_nodup.of_map.filter _)
  intro row
  simp only [Table.answers, List.mem_filter, List.all_eq_true, decide_eq_true_eq, htruth,
    Set.mem_ofPred_eq]

def employees : Table Nat (Nat × Option Bool × Option Bool) where
  keySchema := idSchema
  rows := [(1, some true, none), (2, none, some true), (3, some false, some true)]
  key row := [some row.1]
  fields_ne_nil := by decide
  names_nodup := by decide
  keys_nodup := by decide
  key_length := by decide

def employeePredicate {κ : Type} : Expr → κ × Option Bool × Option Bool → Option Bool
  | .column ⟨_, "active"⟩, row => row.2.1
  | .column ⟨_, "remote"⟩, row => row.2.2
  | .node .isNotNull [.column ⟨_, "active"⟩], row => some row.2.1.isSome
  | _, _ => none

def employeeProvider : IndexedTableProvider Nat where
  indexes := .ok [
    employees.index employeePredicate fun | .column ⟨_, "active"⟩ => true | _ => false,
    employees.index employeePredicate fun | .column ⟨_, "remote"⟩ => true | _ => false
  ]
  unionMode := .sequential

-- The same employees under a composite key: the ids are unique within a tenant only.
def tenantEmployees : Table Nat ((Nat × Nat) × Option Bool × Option Bool) where
  keySchema := ⟨[⟨"tenant", .int32, false, []⟩, ⟨"id", .int32, false, []⟩], []⟩
  rows := [((1, 1), some true, none), ((1, 2), none, some true), ((2, 1), some false, some true)]
  key row := [some row.1.1, some row.1.2]
  fields_ne_nil := by decide
  names_nodup := by decide
  keys_nodup := by decide
  key_length := by decide

def tenantProvider : IndexedTableProvider Nat where
  indexes := .ok [
    tenantEmployees.index employeePredicate fun | .column ⟨_, "active"⟩ => true | _ => false,
    tenantEmployees.index employeePredicate fun | .column ⟨_, "remote"⟩ => true | _ => false
  ]
  unionMode := .sequential

theorem tenantProvider_scan
    : ∃ indexed remaining plan,
        tenantProvider.analyzeAndOptimizeFilters
            [.binaryExpr (.column ⟨none, "active"⟩) .or (.column ⟨none, "remote"⟩),
              .node .isNotNull [.column ⟨none, "active"⟩]] = .ok (indexed, remaining) ∧
          tenantProvider.createExecutionPlanWithIndexes DataFusion.reference
              (.ofTruth employeePredicate) indexed remaining none idSchema
              (tenantEmployees.fetcher idSchema) = .ok plan ∧
            (∃ rows, plan.Returns rows) ∧
              ∀ rows, plan.Returns rows →
                rows.Perm [((1, 1), some true, none), ((2, 1), some false, some true)] := by
  have hindexes : tenantProvider.ExactOn tenantEmployees employeePredicate := by
    intro indexes h index hindex
    cases h
    simp only [List.mem_cons, List.not_mem_nil, or_false] at hindex
    rcases hindex with rfl | rfl
    . exact ⟨rfl, fun _ _ => Table.index_exact⟩
    . exact ⟨rfl, fun _ _ => Table.index_exact⟩
  have hanalyze : ∃ indexed remaining, tenantProvider.analyzeAndOptimizeFilters
      [.binaryExpr (.column ⟨none, "active"⟩) .or (.column ⟨none, "remote"⟩),
        .node .isNotNull [.column ⟨none, "active"⟩]] = .ok (indexed, remaining) ∧ indexed ≠ [] :=
    ⟨_, _, rfl, List.cons_ne_nil _ _⟩
  obtain ⟨indexed, remaining, hanalyze, hne⟩ := hanalyze
  obtain ⟨plan, h⟩ := IndexedTableProvider.indexed_scan_eq_filtered_scan
    DataFusion.reference_schemas DataFusion.reference_headers DataFusion.reference_keyOrderings
    DataFusion.reference_joinMetadata hindexes (tenantEmployees.fetcher_fetches idSchema) hanalyze hne
    (CreatePhysicalExpr.ofTruth_plans employeePredicate idSchema remaining)
  exact ⟨indexed, remaining, plan, hanalyze, h⟩

end IndexProvider
