import IndexProvider.Lemmas.Acceptance
import IndexProvider.Lemmas.Provider
import IndexProvider.Lemmas.Scan
import IndexProvider.Semantics.Table

/-!
This module contains whole table scans: the rows that the plan of a table scan returns, against the
rows of the table that satisfy the filters.
-/

namespace IndexProvider

open NamedTuple Enumeration

variable {V R : Type}

theorem Expr.truth_and {leaf : Expr → R → Option Bool} {row : R} {left right : Expr}
    : Expr.truth leaf row (.binaryExpr left .and right) = some true
        ↔
      left.truth leaf row = some true ∧ right.truth leaf row = some true := by
  simp only [Expr.truth, Kleene.and_eq_true]

theorem Expr.truth_or {leaf : Expr → R → Option Bool} {row : R} {left right : Expr}
    : Expr.truth leaf row (.binaryExpr left .or right) = some true
        ↔
      left.truth leaf row = some true ∨ right.truth leaf row = some true := by
  simp only [Expr.truth, Kleene.or_eq_true]

theorem conjunction_truth {leaf : Expr → R → Option Bool} {row : R} {exprs : List Expr}
    {filter : Expr} (h : conjunction exprs = some filter)
    : filter.truth leaf row = some true ↔ ∀ expr ∈ exprs, expr.truth leaf row = some true := by
  cases exprs with
  | nil => cases h
  | cons expr exprs =>
    cases h
    induction exprs generalizing expr with
    | nil => simp
    | cons expr' exprs ih =>
      rw [List.foldl_cons, ih, List.forall_mem_cons, Expr.truth_and, List.forall_mem_cons,
        List.forall_mem_cons, and_assoc]

theorem conjunction_eq_none {exprs : List Expr} : conjunction exprs = none ↔ exprs = [] := by
  cases exprs <;> simp [conjunction]

namespace IndexFilter

theorem eraseAll_cons_eq_some {f : IndexFilter V} {filters : List (IndexFilter V)} {expr : Expr}
    {exprs : List Expr}
    : eraseAll (f :: filters) = some (expr :: exprs)
        ↔
      f.erase = some expr ∧ eraseAll filters = some exprs := by
  rw [eraseAll]
  cases f.erase with
  | none => simp
  | some _ => cases eraseAll filters <;> simp

theorem eq_pair_of_eraseAll {filters : List (IndexFilter V)} {l r : Expr}
    (h : eraseAll filters = some [l, r])
    : ∃ f g, filters = [f, g] ∧ f.erase = some l ∧ g.erase = some r := by
  cases filters with
  | nil => cases h
  | cons f filters =>
    obtain ⟨hl, h⟩ := eraseAll_cons_eq_some.mp h
    cases filters with
    | nil => cases h
    | cons g filters =>
      obtain ⟨hr, h⟩ := eraseAll_cons_eq_some.mp h
      cases filters with
      | nil => exact ⟨f, g, rfl, hl, hr⟩
      | cons f' filters =>
        unfold eraseAll at h
        split at h <;> cases h

theorem selects_eq_true_iff {leaf : Expr → R → Option Bool} {row : R} {f : IndexFilter V}
    {expr : Expr} (h : f.erase = some expr)
    : f.selects leaf row = true ↔ expr.truth leaf row = some true := by
  induction f generalizing expr with
  | single index filter =>
    cases h
    simp [selects]
  | and filters ih =>
    simp only [erase] at h
    split at h
    . next l r herase =>
      cases h
      obtain ⟨f, g, rfl, hl, hr⟩ := eq_pair_of_eraseAll herase
      rw [selects, selectsAll_iff, Expr.truth_and, ← ih f (by simp) hl, ← ih g (by simp) hr]
      simp
    . cases h
  | or filters ih =>
    simp only [erase] at h
    split at h
    . next l r herase =>
      cases h
      obtain ⟨f, g, rfl, hl, hr⟩ := eq_pair_of_eraseAll herase
      rw [selects, selectsAny_iff, Expr.truth_or, ← ih f (by simp) hl, ← ih g (by simp) hr]
      simp
    . cases h

end IndexFilter

namespace Table

variable (table : Table V R) (leaf : Expr → R → Option Bool)

def leafKeys (_ : Index V) (filter : Expr) : Set (Row V) := {key | key ∈ table.matching leaf filter}

variable {table leaf}

theorem names_eq : table.keySchema.columns.map Prod.fst = table.keySchema.names :=
  (Schema.names_eq_columns _).symm

theorem columns_nodup : (table.keySchema.columns.map Prod.fst).Nodup := by
  rw [names_eq]
  exact table.names_nodup

theorem columns_ne_nil : table.keySchema.columns ≠ [] := by
  intro h
  exact table.fields_ne_nil (List.map_eq_nil_iff.mp h)

theorem key_injective {row row' : R} (hrow : row ∈ table.rows) (hrow' : row' ∈ table.rows)
    (h : table.key row = table.key row')
    : row = row' :=
  List.inj_on_of_nodup_map table.keys_nodup hrow hrow' h

theorem matching_nodup (filter : Expr) : (table.matching leaf filter).Nodup :=
  table.keys_nodup.sublist (List.filter_sublist.map _)

theorem key_mem_leafKeys {index : Index V} {filter : Expr} {row : R} (hrow : row ∈ table.rows)
    : table.key row ∈ table.leafKeys leaf index filter ↔ filter.truth leaf row = some true := by
  simp only [leafKeys, matching, Set.mem_ofPred_eq, List.mem_map, List.mem_filter,
    decide_eq_true_eq]
  constructor
  . intro h
    obtain ⟨row', ⟨hrow', htruth⟩, hkey⟩ := h
    rw [← key_injective hrow' hrow hkey]
    exact htruth
  . intro h
    exact ⟨row, ⟨hrow, h⟩, rfl⟩

/--
A tree denotes the keys of the rows it selects.
-/
theorem key_mem_denote {f : IndexFilter V} {row : R} (hrow : row ∈ table.rows)
    : table.key row ∈ f.denote (table.leafKeys leaf) ↔ f.selects leaf row = true := by
  induction f with
  | single index filter =>
    rw [IndexFilter.denote, key_mem_leafKeys hrow]
    simp [IndexFilter.selects]
  | and filters ih =>
    rw [IndexFilter.denote, IndexFilter.mem_denoteAll, IndexFilter.selects,
      IndexFilter.selectsAll_iff]
    apply forall₂_congr
    exact ih
  | or filters ih =>
    rw [IndexFilter.denote, IndexFilter.mem_denoteAny, IndexFilter.selects,
      IndexFilter.selectsAny_iff]
    apply exists_congr
    intro f
    rw [and_congr_right_iff]
    exact ih f

theorem exists_row_of_mem_denote {f : IndexFilter V} (hf : f.NoEmptyNode) {key : Row V}
    (h : key ∈ f.denote (table.leafKeys leaf))
    : ∃ row ∈ table.rows, table.key row = key := by
  induction f with
  | single index filter =>
    obtain ⟨row, hrow, rfl⟩ := List.mem_map.mp h
    exact ⟨row, List.mem_of_mem_filter hrow, rfl⟩
  | and filters ih =>
    match filters, hf, h, ih with
    | f :: fs, hf, h, ih => exact ih f (by simp) hf.2.1 h.1
  | or filters ih =>
    rw [IndexFilter.denote, IndexFilter.mem_denoteAny] at h
    obtain ⟨f, hmem, h⟩ := h
    exact ih f hmem (IndexFilter.noEmptyNodes_iff.mp hf.2 f hmem) h

theorem scans_of_exact {index : Index V} {filter : Expr} (h : table.Exact leaf index filter)
    : index.Scans table.keySchema.columns (table.leafKeys leaf index filter) filter none where
  columns := h.columns
  scan := by
    obtain ⟨batches, hbatches, hwidth, hperm⟩ := h.scan
    rw [names_eq]
    exact ⟨batches, hbatches, hwidth,
      Enumerates.of_perm (fun _ => .rfl) (matching_nodup filter) hperm⟩

theorem scans_of_limited {n : Nat} {index : Index V} {filter : Expr}
    (h : table.Limited leaf n index filter)
    : index.Scans table.keySchema.columns (table.leafKeys leaf index filter) filter (some n) where
  columns := h.columns
  scan := by
    obtain ⟨batches, hbatches, hwidth, hnodup, hsubset, hlength⟩ := h.scan
    rw [names_eq]
    exact ⟨batches, hbatches, hwidth,
      Enumerates.of_min_le_length (fun _ => .rfl) hnodup hsubset hlength⟩

section Fetch

variable {schema : Schema} {mapper : RecordFetcher V R}

def keyIn (table : Table V R) (schema : Schema) (row : R) : Row V :=
  select schema.names table.keySchema.names (table.key row)

theorem keyIn_of_columns (hschema : schema.columns = table.keySchema.columns) {row : R}
    (hrow : row ∈ table.rows)
    : table.keyIn schema row = table.key row := by
  rw [keyIn, Schema.names_of_columns hschema]
  exact select_self table.names_nodup (table.key_length row hrow)

theorem FetchedAs.fetchedBy (h : table.FetchedAs id mapper)
    : table.FetchedBy table.keySchema.columns mapper := by
  intro schema hschema rows hrows
  have hkeys : rows.map (table.keyIn schema) = rows.map table.key :=
    List.map_congr_left fun row hrow => keyIn_of_columns hschema (hrows hrow)
  have hfetched := h schema hschema rows hrows
  rw [List.map_id, ← hkeys] at hfetched
  exact hfetched

/--
The plan of a tree hands its keys over in the columns of the leftmost leaf.
-/
theorem FetchedBy.of_leftmost [DecidableEq V] {df : DataFusion} (hdf : df.Schemas)
    {unionMode : UnionMode} {f : IndexFilter V} {limit : Option Nat} {plan : ExecutionPlan V}
    (hf : f.NoEmptyNode) (hcolumns : f.KeyColumns table.keySchema.columns)
    (hfetch : ∀ leaf ∈ f.leaves.head?, table.FetchedBy leaf.1.indexSchema.columns mapper)
    (h : RecordFetchExec.buildScanExec df unionMode f limit = .ok plan)
    : table.FetchedBy plan.schema.columns mapper := by
  obtain ⟨leaf, hleaf, hplan⟩ :=
    RecordFetchExec.buildScanExec_columns hdf columns_nodup hf hcolumns h
  rw [hplan]
  exact hfetch leaf hleaf

theorem fetch_batches (hfetch : table.FetchedBy schema.columns mapper) {batches : List (Batch V)}
    {rows : List R} (hrows : rows ⊆ table.rows) (h : batches.flatten = rows.map (table.keyIn schema))
    : ∃ fetched, (batches.filter fun batch => batch.length > 0).mapM (mapper.fetch schema)
          = .ok fetched ∧
        fetched.flatten = rows := by
  induction batches generalizing rows with
  | nil =>
    rw [List.flatten_nil, eq_comm, List.map_eq_nil_iff] at h
    rw [h]
    exact ⟨[], rfl, rfl⟩
  | cons batch batches ih =>
    rw [List.flatten_cons, eq_comm, List.map_eq_append_iff] at h
    obtain ⟨rows₁, rows₂, rfl, hbatch, hbatches⟩ := h
    rw [List.append_subset] at hrows
    obtain ⟨fetched, hfetched, hflatten⟩ := ih hrows.2 hbatches.symm
    by_cases hempty : batch.length > 0
    . refine ⟨rows₁ :: fetched, ?_, ?_⟩
      . have hfirst : mapper.fetch schema batch = .ok rows₁ := by
          rw [← hbatch]
          exact hfetch schema rfl rows₁ hrows.1
        rw [List.filter_cons_of_pos (by simpa using hempty), List.mapM_cons, hfirst, hfetched]
        rfl
      . rw [List.flatten_cons, hflatten]
    . have hnil : rows₁ = [] := by
        rw [← List.map_eq_nil_iff, hbatch, ← List.length_eq_zero_iff]
        omega
      refine ⟨fetched, ?_, ?_⟩
      . rw [List.filter_cons_of_neg (by simpa using hempty)]
        exact hfetched
      . rw [hnil, hflatten]
        rfl

theorem select_keyIn (hschema : schema.columns.Perm table.keySchema.columns) {row : R}
    (hrow : row ∈ table.rows)
    : select table.keySchema.names schema.names (table.keyIn schema row) = table.key row := by
  have hnames := Schema.names_perm hschema
  rw [names_eq] at hnames
  rw [keyIn, select_select hnames.symm.subset]
  exact select_self table.names_nodup (table.key_length row hrow)

theorem exists_rows {keys : List (Row V)} (h : ∀ key ∈ keys, ∃ row ∈ table.rows,
      table.keyIn schema row = key)
    : ∃ rows ⊆ table.rows, rows.map (table.keyIn schema) = keys := by
  obtain ⟨rows, hrows, hsubset⟩ := Collect.exists_forall₂_and
    fun key hkey => (h key hkey).imp fun _ => And.symm
  refine ⟨rows, hsubset, ?_⟩
  rw [← List.forall₂_eq_eq_eq, List.forall₂_map_left_iff]
  exact hrows.flip

end Fetch

section Returns

variable [DecidableEq V] {f : IndexFilter V} {limit : Option Nat} {exec : RecordFetchExec V R}

def selected (table : Table V R) (leaf : Expr → R → Option Bool) (f : IndexFilter V) : Set R :=
  {row | row ∈ table.rows ∧ f.selects leaf row = true}

theorem emitted_rows (hf : f.NoEmptyNode)
    (hinput : exec.input.Produces table.keySchema.columns (f.denote (table.leafKeys leaf)) limit)
    {keys : List (Row V)} (hkeys : exec.input.Emits keys)
    : ∃ rows ⊆ table.rows, rows.map (table.keyIn exec.input.schema) = keys ∧
        Enumerates (table.selected leaf f) limit rows := by
  have hnames := hinput.names_perm
  rw [names_eq] at hnames
  have henumerates := hinput.keys keys hkeys
  rw [names_eq] at henumerates
  have hrow : ∀ key ∈ keys, ∃ row ∈ table.rows, table.keyIn exec.input.schema row = key := by
    intro key hkey
    obtain ⟨row, hrow, heq⟩ :=
      exists_row_of_mem_denote hf (henumerates.sound _ (List.mem_map_of_mem hkey))
    refine ⟨row, hrow, ?_⟩
    rw [keyIn, heq, select_select hnames.subset]
    exact select_self (hinput.names_nodup columns_nodup) (hinput.width keys hkeys key hkey)
  obtain ⟨rows, hsubset, hrows⟩ := exists_rows hrow
  refine ⟨rows, hsubset, hrows, ?_⟩
  have hmap : keys.map (select table.keySchema.names exec.input.schema.names)
      = rows.map table.key := by
    rw [← hrows, List.map_map]
    apply List.map_congr_left
    intro row hmem
    exact select_keyIn hinput.columns (hsubset hmem)
  rw [hmap] at henumerates
  apply henumerates.of_map
  . intro row hselected
    exact (key_mem_denote hselected.1).mpr hselected.2
  . intro row hmem
    have hkey := henumerates.sound _ (List.mem_map_of_mem hmem)
    exact ⟨hsubset hmem, (key_mem_denote (hsubset hmem)).mp hkey⟩
  . intro row hselected row' hmem hkey
    exact key_injective hselected.1 (hsubset hmem) hkey

theorem returns_eq (hfetch : table.FetchedBy exec.input.schema.columns exec.recordFetcher)
    (hf : f.NoEmptyNode)
    (hinput : exec.input.Produces table.keySchema.columns (f.denote (table.leafKeys leaf)) limit)
    {rows : List R} (h : exec.Returns rows)
    : exec.input.Emits (rows.map (table.keyIn exec.input.schema)) ∧
        Enumerates (table.selected leaf f) limit rows := by
  obtain ⟨batches, fetched, hemits, hfetched, rfl⟩ := h
  obtain ⟨rows, hsubset, hrows, henumerates⟩ := emitted_rows hf hinput hemits
  obtain ⟨fetched', hfetched', hflatten⟩ :=
    fetch_batches hfetch hsubset hrows.symm
  rw [hfetched, Except.ok.injEq] at hfetched'
  rw [hfetched', hflatten, hrows]
  exact ⟨hemits, henumerates⟩

theorem exists_returns (hfetch : table.FetchedBy exec.input.schema.columns exec.recordFetcher)
    (hf : f.NoEmptyNode)
    (hinput : exec.input.Produces table.keySchema.columns (f.denote (table.leafKeys leaf)) limit)
    : ∃ rows, exec.Returns rows := by
  obtain ⟨keys, hkeys⟩ := hinput.emits
  obtain ⟨rows, hsubset, hrows, -⟩ := emitted_rows hf hinput hkeys
  have hflatten : [keys].flatten = rows.map (table.keyIn exec.input.schema) := by
    simpa using hrows.symm
  obtain ⟨fetched, hfetched, -⟩ := fetch_batches hfetch hsubset hflatten
  refine ⟨fetched.flatten, [keys], fetched, ?_, hfetched, rfl⟩
  simpa using hkeys

end Returns

section Reference

def index (table : Table V R) (leaf : Expr → R → Option Bool) (supports : Expr → Bool) : Index V where
  name := "reference"
  indexSchema := table.keySchema
  tableName := "t"
  columnName := "c"
  supportsPredicate expr := .ok (supports expr)
  isOrdered := false
  scan filters _ := .ok <| .complete [(table.rows.filter fun row =>
    filters.all fun filter => filter.truth leaf row = some true).map table.key]

-- A fetcher that reads the columns of a key by their positions.
def fetcher [DecidableEq V] (table : Table V R) (schema : Schema) : RecordFetcher V R where
  schema
  fetch _ batch := batch.mapM fun key =>
    match table.rows.find? fun row => table.key row = key with
    | some row => .ok row
    | none => .error (.execution "key not found")

variable {supports : Expr → Bool} {filter : Expr}

theorem index_scan (limit : Option Nat)
    : ∃ batches, (table.index leaf supports).scan [filter] limit = .ok (.complete batches) ∧
        (∀ row ∈ batches.flatten, row.length = table.keySchema.names.length) ∧
          batches.flatten.map (select table.keySchema.names table.keySchema.names)
            = table.matching leaf filter := by
  refine ⟨[table.matching leaf filter], ?_, ?_, ?_⟩
  . simp [index, matching]
  . simp only [List.flatten_cons, List.flatten_nil, List.append_nil]
    intro key hkey
    obtain ⟨row, hrow, rfl⟩ := List.mem_map.mp hkey
    exact table.key_length row (List.mem_of_mem_filter hrow)
  . simp only [List.flatten_cons, List.flatten_nil, List.append_nil, matching, List.map_map]
    apply List.map_congr_left
    intro row hrow
    exact select_self table.names_nodup (table.key_length row (List.mem_of_mem_filter hrow))

theorem index_exact : table.Exact leaf (table.index leaf supports) filter where
  columns := .refl _
  scan := by
    obtain ⟨batches, hbatches, hwidth, hkeys⟩ := index_scan none
    exact ⟨batches, hbatches, hwidth, .of_eq hkeys⟩

theorem index_limited (n : Nat) : table.Limited leaf n (table.index leaf supports) filter where
  columns := .refl _
  scan := by
    obtain ⟨batches, hbatches, hwidth, hkeys⟩ := index_scan (some n)
    refine ⟨batches, hbatches, hwidth, ?_⟩
    have hkeys : batches.flatten.map
        (select table.keySchema.names (table.index leaf supports).indexSchema.names)
          = table.matching leaf filter := hkeys
    rw [hkeys]
    exact ⟨matching_nodup filter, List.Subset.refl _, Nat.min_le_right _ _⟩

theorem find?_key [DecidableEq V] {row : R} (hrow : row ∈ table.rows)
    : table.rows.find? (fun row' => table.key row' = table.key row) = some row := by
  cases hfind : table.rows.find? (fun row' => table.key row' = table.key row) with
  | none =>
    rw [List.find?_eq_none] at hfind
    have hrow := hfind row hrow
    simp at hrow
  | some found =>
    have hkey := List.find?_some hfind
    rw [decide_eq_true_eq] at hkey
    rw [key_injective (List.mem_of_find?_eq_some hfind) hrow hkey]

theorem fetcher_fetches [DecidableEq V] (schema : Schema)
    : table.FetchedAs id (table.fetcher schema) := by
  intro keySchema _ rows hrows
  induction rows with
  | nil => rfl
  | cons row rows ih =>
    rw [List.cons_subset] at hrows
    have ih := ih hrows.2
    simp only [fetcher] at ih ⊢
    rw [List.map_cons, List.mapM_cons, find?_key hrows.1, ih]
    rfl

end Reference

end Table

def CreatePhysicalExpr.ofTruth (leaf : Expr → R → Option Bool) : CreatePhysicalExpr R :=
  fun expr _ => .ok ⟨.boolean, fun row => expr.truth leaf row⟩

theorem CreatePhysicalExpr.ofTruth_plans (leaf : Expr → R → Option Bool) (schema : Schema)
    (filters : List Expr)
    : (ofTruth leaf).Plans leaf schema filters := fun _ _ => rfl

end IndexProvider
