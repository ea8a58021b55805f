import IndexProvider.Lemmas.DefaultPredicates
import IndexProvider.Lemmas.Records
import IndexProvider.Semantics.Query

/-!
This module contains the results of queries on a table provider: what the scan and the filters above it
return together are the rows of the batch that satisfy all filters.
-/

namespace IndexProvider

open Enumeration

variable {V R S : Type}

namespace IndexedTableProvider

variable {provider : IndexedTableProvider V} {filters exprs : List Expr}
  {reports : List TableProviderFilterPushDown} {built : List (Option (IndexFilter V))}

theorem pushed_eq_reported (h : ∀ r ∈ reports, r = .exact ∨ r = .unsupported)
    : pushed filters reports = reported .exact filters reports := by
  unfold pushed reported
  congr 1
  apply List.filter_congr
  intro p hp
  rcases h p.2 (List.of_mem_zip hp).2 with hr | hr <;> simp [hr]

theorem kept_eq_reported (h : ∀ r ∈ reports, r = .exact ∨ r = .unsupported)
    : kept filters reports = reported .unsupported filters reports := by
  unfold kept reported
  congr 1
  apply List.filter_congr
  intro p hp
  rcases h p.2 (List.of_mem_zip hp).2 with hr | hr <;> simp [hr]

theorem exists_trees (h : ∀ expr ∈ exprs, ∃ tree, provider.buildIndexFilter expr = .ok (some tree))
    : ∃ trees : List (IndexFilter V), Built provider exprs (trees.map some) := by
  induction exprs with
  | nil => exact ⟨[], .nil⟩
  | cons expr exprs ih =>
    rw [List.forall_mem_cons] at h
    obtain ⟨⟨tree, htree⟩, h⟩ := h
    obtain ⟨trees, htrees⟩ := ih h
    exact ⟨tree :: trees, .cons htree htrees⟩

theorem mem_leaves_rootFilters {trees : List (IndexFilter V)} {root : IndexFilter V}
    {leaf : Index V × Expr} (hroot : root ∈ rootFilters trees) (hleaf : leaf ∈ root.leaves)
    : ∃ tree ∈ trees, leaf ∈ tree.leaves := by
  by_cases hlength : trees.length < 2
  . rw [rootFilters_of_length_lt hlength] at hroot
    exact ⟨root, hroot, hleaf⟩
  . rw [rootFilters_of_le_length (by omega), List.mem_singleton] at hroot
    subst hroot
    have htrees : ∀ tree ∈ trees, ∀ leaf ∈ tree.leaves, ∃ tree ∈ trees, leaf ∈ tree.leaves := by
      intro tree htree leaf hleaf
      exact ⟨tree, htree, hleaf⟩
    exact IndexFilter.forall_allLeaves.mpr htrees leaf hleaf

/--
The analysis of filters that the indexes answer leaves nothing over, and reads nothing but their leaves.
-/
theorem analyze_answered
    (h : ∀ expr ∈ exprs, ∃ tree, provider.buildIndexFilter expr = .ok (some tree))
    : ∃ indexed, provider.analyzeAndOptimizeFilters exprs = .ok (indexed, []) ∧
        (indexed = [] → exprs = []) ∧
          ∀ root ∈ indexed, ∀ leaf ∈ root.leaves, ∃ expr ∈ exprs, leaf.2 ∈ expr.leaves := by
  obtain ⟨trees, htrees⟩ := exists_trees h
  have htrees_eq : (trees.map some).reduceOption = trees := by simp [List.reduceOption]
  refine ⟨rootFilters trees, ?_, ?_, ?_⟩
  . rw [htrees.analyze, htrees_eq, ← htrees.remaining_eq, reduceOption_pair_some]
  . intro hnil
    have hlength := htrees.length_eq
    rw [List.length_map] at hlength
    by_cases hlt : trees.length < 2
    . rw [rootFilters_of_length_lt hlt] at hnil
      rw [hnil] at hlength
      exact List.length_eq_zero_iff.mp hlength
    . rw [rootFilters_of_le_length (by omega)] at hnil
      cases hnil
  . intro root hroot leaf hleaf
    obtain ⟨tree, htree, hleaf⟩ := mem_leaves_rootFilters hroot hleaf
    obtain ⟨expr, hexpr, hbuilt⟩ :=
      Collect.forall₂_of_mem_right (List.forall₂_map_right_iff.mp htrees) htree
    refine ⟨expr, hexpr, ?_⟩
    rw [← (buildIndexFilter_eq_some hbuilt).leaves_eq]
    exact List.mem_map_of_mem hleaf

/--
The filters that are pushed down are filters that the indexes answer, and those kept are all the others.
-/
theorem pushed_kept (h : provider.supportsFiltersIndexPushdown filters = .ok reports)
    : (∀ filter ∈ pushed filters reports, ∃ tree, provider.buildIndexFilter filter = .ok (some tree)) ∧
        ∀ P : Expr → Prop, (∀ filter ∈ filters, P filter)
          ↔ (∀ filter ∈ pushed filters reports, P filter) ∧
            ∀ filter ∈ kept filters reports, P filter := by
  rw [supportsFiltersIndexPushdown_eq] at h
  cases hbuilt : filters.mapM provider.buildIndexFilter with
  | error e =>
    rw [hbuilt] at h
    cases h
  | ok built =>
    rw [hbuilt] at h
    cases h
    have hbuilt : Built provider filters built := Collect.mapM_eq_ok.mp hbuilt
    have hreports := hbuilt.negotiated.exact_or_unsupported
    dsimp only
    rw [pushed_eq_reported hreports, kept_eq_reported hreports]
    constructor
    . intro filter hfilter
      obtain ⟨_, hmem, htree⟩ := Collect.forall₂_of_mem_left hbuilt.exacts hfilter
      obtain ⟨tree, -, rfl⟩ := List.mem_map.mp hmem
      exact ⟨tree, htree⟩
    . intro P
      exact forall_reported_iff hbuilt.negotiated.length_eq hreports

/--
The indexes answer what is read of them: each leaf of a filter that they answer is answered by the index
that is picked for it.
-/
def AnswersFor (provider : IndexedTableProvider V) (table : Table V R)
    (leaf : Expr → R → Option Bool) (filters : List Expr) (limit : Option Nat) : Prop :=
  ∀ filter ∈ filters, (∀ expr ∈ filter.leaves, provider.Supports expr) →
    ∀ expr ∈ filter.leaves, ∀ index, provider.PicksFirst index expr →
      index.indexSchema = table.keySchema ∧ table.Answers leaf limit index expr

theorem AnswersFor.weaken {table : Table V R} {leaf : Expr → R → Option Bool}
    {limit limit' : Option Nat} (h : provider.AnswersFor table leaf filters limit)
    (hsubset : ∀ expr ∈ exprs, expr ∈ filters) (hlimit : limit' = none ∨ limit' = limit)
    : provider.AnswersFor table leaf exprs limit' := by
  intro filter hfilter hsupports expr hexpr index hpicks
  obtain ⟨hschema, hanswers⟩ := h filter (hsubset filter hfilter) hsupports expr hexpr index hpicks
  refine ⟨hschema, hanswers.exact, ?_⟩
  intro n hn
  rcases hlimit with rfl | rfl
  . cases hn
  . exact hanswers.limited n hn

theorem AnswersFor.of_picks {table : Table V R} {leaf : Expr → R → Option Bool} {limit : Option Nat}
    (h : ∀ filter ∈ filters, (∀ expr ∈ filter.leaves, provider.Supports expr) →
      ∀ expr ∈ filter.leaves, ∃ index, provider.PicksFirst index expr ∧
        index.indexSchema = table.keySchema ∧ table.Answers leaf limit index expr)
    : provider.AnswersFor table leaf filters limit := by
  intro filter hfilter hsupports expr hexpr index hpicks
  obtain ⟨index', hpicks', hschema, hanswers⟩ := h filter hfilter hsupports expr hexpr
  rw [hpicks.unique hpicks']
  exact ⟨hschema, hanswers⟩

/--
Where the indexes keep the default `supports_predicate` and have different columns, each of them is read
for what refers to its column.
-/
theorem UsesDefault.answersFor {exprToColumns : ExprToColumns} {indexes : List (Index V)}
    {table : Table V R} {leaf : Expr → R → Option Bool} {limit : Option Nat}
    (hcollects : exprToColumns.Collects) (hdefault : provider.UsesDefault exprToColumns)
    (hindexes : provider.indexes = .ok indexes) (hnodup : (indexes.map Index.columnName).Nodup)
    (hschema : ∀ index ∈ indexes, index.indexSchema = table.keySchema)
    (hanswers : ∀ filter ∈ filters,
      (∀ expr ∈ filter.leaves, ∃ index ∈ indexes, expr.OnColumn index.columnName) →
        ∀ expr ∈ filter.leaves, ∀ index ∈ indexes, expr.OnColumn index.columnName →
          table.Answers leaf limit index expr)
    : provider.AnswersFor table leaf filters limit := by
  apply AnswersFor.of_picks
  intro filter hfilter hsupports expr hexpr
  simp only [hdefault.supports_iff hcollects hindexes] at hsupports
  obtain ⟨index, hindex, hcolumn⟩ := hsupports expr hexpr
  exact ⟨index, hdefault.picksFirst hcollects hindexes hnodup hindex hcolumn, hschema index hindex,
    hanswers filter hfilter hsupports expr hexpr index hindex hcolumn⟩

end IndexedTableProvider

theorem satisfiesAll_iff {leaf : Expr → R → Option Bool} {filters : List Expr} {row : R}
    : satisfiesAll leaf filters row = true ↔ ∀ filter ∈ filters, filter.truth leaf row = some true := by
  simp [satisfiesAll]

namespace TableProvider

/--
The batch has the records of the table, and the mapper fetches them.
-/
structure Stores (provider : TableProvider V S) (table : Table V R) (record : R → S) : Prop where
  batch : provider.batch = table.rows.map record
  mapper : table.FetchedAs record provider.mapper

variable [DecidableEq V] {df : DataFusion} {merge : Metadata → Metadata → Metadata}
  (createPhysicalExpr : CreatePhysicalExpr S) {leaf : Expr → S → Option Bool}
  {self : TableProvider V S} {table : Table V R} {record : R → S} {filters scanFilters : List Expr}
  {limit : Option Nat} {reports : List TableProviderFilterPushDown}

theorem scan_records
    (hdf : df.Schemas) (hheaders : df.Headers) (horderings : df.KeyOrderings)
    (hmerge : df.JoinMetadata merge) (hstores : self.Stores table record)
    (hanswers : self.AnswersFor table (fun expr row => leaf expr (record row)) scanFilters limit)
    (hbuilt : ∀ filter ∈ scanFilters, ∃ tree, self.buildIndexFilter filter = .ok (some tree))
    : ∃ plan, self.scan df createPhysicalExpr scanFilters limit = .ok plan ∧
        (∃ out, plan.Returns out) ∧
          ∀ out, plan.Returns out → ∃ rows, out = rows.map record ∧
            Enumerates {row | row ∈ table.rows ∧ satisfiesAll leaf scanFilters (record row) = true}
              limit rows := by
  obtain ⟨indexed, hanalyze, hnil, hleaves⟩ := IndexedTableProvider.analyze_answered hbuilt
  cases indexed with
  | nil =>
    have hscan : self.scan df createPhysicalExpr scanFilters limit = .ok (.memTable self.batch limit) := by
      simp only [scan, hanalyze, bind, Except.bind, List.isEmpty_nil, if_true, scanWithTable]
    refine ⟨_, hscan, ⟨self.batch, List.prefix_refl _, .inl rfl⟩, ?_⟩
    intro out hout
    obtain ⟨hstart, hlimit⟩ := hout
    rw [hstores.batch] at hstart hlimit
    obtain ⟨rows, hrows, rfl⟩ := List.prefix_map_iff.mp hstart
    refine ⟨rows, rfl, .of_isPrefix ?_ table.keys_nodup.of_map hrows ?_⟩
    . intro row
      simp [hnil rfl, satisfiesAll]
    . refine hlimit.imp ?_ ?_
      . intro heq
        apply hrows.eq_of_length
        have hlength := congrArg List.length heq
        rwa [List.length_map, List.length_map] at hlength
      . rw [List.length_map]
        exact id
  | cons root rest =>
    obtain ⟨root, heq, hf, hpicks, htruth⟩ :=
      IndexedTableProvider.analyzeAndOptimizeFilters_eq_ok (R := R) hanalyze (List.cons_ne_nil _ _)
    rw [heq] at hanalyze hleaves
    have hleaf : ∀ leaf' ∈ root.leaves, leaf'.1.indexSchema = table.keySchema ∧
        table.Answers (fun expr row => leaf expr (record row)) limit leaf'.1 leaf'.2 := by
      intro leaf' hleaf'
      obtain ⟨filter, hfilter, hmem⟩ := hleaves root (by simp) leaf' hleaf'
      obtain ⟨tree, htree⟩ := hbuilt filter hfilter
      have hsupports := (IndexedTableProvider.buildIndexFilter_eq_some htree).supports
      exact hanswers filter hfilter hsupports leaf'.2 hmem leaf'.1 (hpicks leaf' hleaf')
    have hplans : createPhysicalExpr.Plans leaf self.schema [] := by
      intro filter hfilter
      cases hfilter
    obtain ⟨input, hinput⟩ := IndexFilter.accepted_of_leaves hdf hheaders horderings hmerge
      table.fields_ne_nil table.names_nodup hf (fun leaf' hleaf' => (hleaf leaf' hleaf').1)
      self.unionMode limit
    obtain ⟨plan, hplan⟩ : ∃ plan, self.createExecutionPlanWithIndexes df createPhysicalExpr [root]
        [] limit self.schema self.mapper = .ok plan :=
      ⟨_, (IndexedTableProvider.createExecutionPlanWithIndexes_eq_ok hplans).mpr ⟨input, hinput, rfl⟩⟩
    have hscan : self.scan df createPhysicalExpr scanFilters limit = .ok (.indexed plan) := by
      simp only [scan, hanalyze, bind, Except.bind, List.isEmpty_cons, Bool.false_eq_true, if_false,
        scanWithIndexes, hplan, pure, Except.pure]
    obtain ⟨hreturns, hrun⟩ := IndexedTableProvider.createExecutionPlanWithIndexes_records hdf
      hstores.mapper hplans hf (fun leaf' hleaf' => congrArg Schema.columns (hleaf leaf' hleaf').1)
      (fun leaf' hleaf' => (hleaf leaf' hleaf').2) hplan
    refine ⟨_, hscan, hreturns, ?_⟩
    intro out hout
    obtain ⟨rows, hrows, henumerates, -⟩ := hrun out hout
    refine ⟨rows, hrows, ?_⟩
    have hanswers : table.answers (fun expr row => leaf expr (record row)) root []
        = {row | row ∈ table.rows ∧ satisfiesAll leaf scanFilters (record row) = true} := by
      ext row
      have hiff := htruth (fun expr row => leaf expr (record row)) row
      simp only [List.not_mem_nil, false_implies, implies_true, and_true, Expr.truth_record] at hiff
      simp [Table.answers, satisfiesAll_iff, hiff]
    rw [← hanswers]
    exact henumerates

/--
If no filter is kept above the scan, nothing but the scan evaluates the filters.
-/
theorem results_congr {leaf' : Expr → S → Option Bool} {out : List S}
    (hreports : self.supportsFiltersPushdown filters = .ok reports)
    (hkept : kept filters reports = [])
    (h : self.Results df createPhysicalExpr leaf filters limit out)
    : self.Results df createPhysicalExpr leaf' filters limit out := by
  obtain ⟨reports', scanFilters, plan, rows, hreports', hscan, hplan, hrows, hout⟩ := h
  refine ⟨reports', scanFilters, plan, rows, hreports', hscan, hplan, hrows, ?_⟩
  rw [hreports] at hreports'
  cases hreports'
  rw [hkept] at hout ⊢
  exact hout

section

variable (hdf : df.Schemas) (hheaders : df.Headers) (horderings : df.KeyOrderings)
  (hmerge : df.JoinMetadata merge) (hstores : self.Stores table record)
  (hanswers : self.AnswersFor table (fun expr row => leaf expr (record row)) filters limit)
  (hreports : self.supportsFiltersPushdown filters = .ok reports)
include hdf hheaders horderings hmerge hstores hanswers hreports

theorem scan_pushed (hscan : ∀ filter, filter ∈ scanFilters ↔ filter ∈ pushed filters reports)
    : ∃ plan, self.scan df createPhysicalExpr scanFilters
          (if kept filters reports = [] then limit else none) = .ok plan ∧
        (∃ rows, plan.Returns rows) ∧
          ∀ rows, plan.Returns rows →
            Picks limit (self.batch.filter (satisfiesAll leaf filters))
              (takeLimit limit (rows.filter (satisfiesAll leaf (kept filters reports)))) := by
  obtain ⟨hpushed, hsplit⟩ := IndexedTableProvider.pushed_kept hreports
  have hsubset : ∀ filter ∈ scanFilters, filter ∈ filters := by
    intro filter hfilter
    have hall := (hsplit fun filter => filter ∈ filters).mp fun _ hfilter => hfilter
    exact hall.1 filter ((hscan filter).mp hfilter)
  have hsatisfies : ∀ row, satisfiesAll leaf filters row = true
      ↔ satisfiesAll leaf scanFilters row = true ∧
        satisfiesAll leaf (kept filters reports) row = true := by
    intro row
    simp only [satisfiesAll_iff, hsplit, hscan]
  have hlimit : (if kept filters reports = [] then limit else none) = none ∨
      (if kept filters reports = [] then limit else none) = limit := (ite_eq_or_eq _ _ _).symm
  obtain ⟨plan, hplan, hreturns, hrun⟩ := scan_records createPhysicalExpr hdf hheaders horderings
    hmerge hstores (hanswers.weaken hsubset hlimit)
    (fun filter hfilter => hpushed filter ((hscan filter).mp hfilter))
  refine ⟨plan, hplan, hreturns, ?_⟩
  intro rows hrows
  obtain ⟨rows, rfl, henumerates⟩ := hrun rows hrows
  have hkept : Enumerates {row | row ∈ table.rows ∧ satisfiesAll leaf filters (record row) = true}
      limit (rows.filter fun row => satisfiesAll leaf (kept filters reports) (record row)) := by
    simp only [hsatisfies, ← and_assoc]
    by_cases hnil : kept filters reports = []
    . rw [if_pos hnil] at henumerates
      simpa [hnil, satisfiesAll] using henumerates
    . rw [if_neg hnil] at henumerates
      exact (henumerates.filter _).weaken limit
  have hall : ∀ row, row ∈ table.rows.filter (satisfiesAll leaf filters ∘ record)
      ↔ row ∈ {row | row ∈ table.rows ∧ satisfiesAll leaf filters (record row) = true} := by simp
  have hpicks := (hkept.picks (table.keys_nodup.of_map.filter _) hall).map record
  rw [map_takeLimit] at hpicks
  rw [hstores.batch, List.filter_map, List.filter_map]
  exact hpicks

theorem exists_results : ∃ out, self.Results df createPhysicalExpr leaf filters limit out := by
  obtain ⟨plan, hplan, ⟨rows, hrows⟩, -⟩ := scan_pushed createPhysicalExpr hdf hheaders horderings
    hmerge hstores hanswers hreports (fun _ => Iff.rfl)
  exact ⟨_, reports, _, plan, rows, hreports, fun _ => Iff.rfl, hplan, hrows, rfl⟩

theorem results_picked {out : List S}
    (hout : self.Results df createPhysicalExpr leaf filters limit out)
    : Picks limit (self.batch.filter (satisfiesAll leaf filters)) out := by
  obtain ⟨reports', scanFilters, plan, rows, hreports', hscan, hplan, hrows, rfl⟩ := hout
  rw [hreports] at hreports'
  cases hreports'
  obtain ⟨plan', hplan', -, hpicks⟩ := scan_pushed createPhysicalExpr hdf hheaders horderings hmerge
    hstores hanswers hreports hscan
  rw [hplan] at hplan'
  cases hplan'
  exact hpicks rows hrows

/--
A query returns the records of the batch that satisfy all filters, in any order: all of them without a
limit, and with a limit as many of them as it allows. This holds whichever filters are pushed down, and
whether or not an index is read.
-/
theorem results_eq_filtered
    : (∃ out, self.Results df createPhysicalExpr leaf filters limit out) ∧
        ∀ out, self.Results df createPhysicalExpr leaf filters limit out →
          Picks limit (self.batch.filter (satisfiesAll leaf filters)) out := by
  constructor
  . exact exists_results createPhysicalExpr hdf hheaders horderings hmerge hstores hanswers hreports
  . intro out hout
    exact results_picked createPhysicalExpr hdf hheaders horderings hmerge hstores hanswers hreports hout

end

def activity : TableProvider Nat (Nat × Option Bool × Option Bool) where
  toIndexedTableProvider := employeeProvider
  schema := idSchema
  batch := employees.rows
  mapper := employees.fetcher idSchema

theorem activity_results
    : ∃ filters,
        (∃ out, activity.Results DataFusion.reference (.ofTruth employeePredicate) employeePredicate
          filters (some 1) out) ∧
        ∀ out, activity.Results DataFusion.reference (.ofTruth employeePredicate) employeePredicate
            filters (some 1) out →
          out = [(1, some true, none)] ∨ out = [(3, some false, some true)] := by
  have hanswers : activity.AnswersFor employees employeePredicate
      [.binaryExpr (.column ⟨none, "active"⟩) .or (.column ⟨none, "remote"⟩),
        .node .isNotNull [.column ⟨none, "active"⟩]] (some 1) := by
    intro filter _ _ expr _ index hpicks
    obtain ⟨before, after, hindexes, -, -⟩ := hpicks
    have hmem : index ∈ before ++ index :: after := by simp
    rw [← Except.ok.inj hindexes] at hmem
    simp only [List.mem_cons, List.not_mem_nil, or_false] at hmem
    rcases hmem with rfl | rfl
    all_goals exact ⟨rfl, Table.index_exact, fun n _ => Table.index_limited n⟩
  obtain ⟨hresults, hpicks⟩ := results_eq_filtered (.ofTruth employeePredicate)
    DataFusion.reference_schemas DataFusion.reference_headers DataFusion.reference_keyOrderings
    DataFusion.reference_joinMetadata
    ⟨(List.map_id _).symm, Table.fetcher_fetches idSchema⟩ hanswers rfl
  refine ⟨_, hresults, ?_⟩
  intro out hout
  obtain ⟨hsubperm, hlength⟩ := hpicks out hout
  obtain ⟨row, rfl⟩ := List.length_eq_one_iff.mp hlength
  have hrow : row ∈ [(1, some true, none), (3, some false, some true)] :=
    hsubperm.subset (List.mem_singleton_self row)
  simpa using hrow

end TableProvider

end IndexProvider
