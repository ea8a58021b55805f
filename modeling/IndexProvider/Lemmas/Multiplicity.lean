import IndexProvider.Lemmas.FilteredScan

/-!
This module contains the multiplicities of keys: how often a plan produces a key, also where the scans
of the indexes repeat keys.
-/

namespace IndexProvider

open NamedTuple Bags

variable {V R : Type}

/--
A plan over the key columns that, in every run, produces rows of full width and each key as often as
`m` says.
-/
structure ExecutionPlan.Counts [DecidableEq V] (cols : List (String × DataType)) (m : Row V → Nat)
    (plan : ExecutionPlan V) : Prop where
  columns : plan.schema.columns.Perm cols
  emits : ∃ rows, plan.Emits rows
  width : ∀ rows, plan.Emits rows → ∀ row ∈ rows, row.length = plan.schema.names.length
  count : ∀ rows, plan.Emits rows → ∀ key,
    (rows.map (select (cols.map Prod.fst) plan.schema.names)).count key = m key

/--
How often the scan of an index for a predicate yields a key.
-/
def Index.count [DecidableEq V] (names : List String) (key : Row V) (index : Index V)
    (filter : Expr) : Nat :=
  match index.scan [filter] none with
  | .ok stream => (stream.batches.flatten.map (select names index.indexSchema.names)).count key
  | .error _ => 0

/--
The index has the key columns, in any order, and its scan for the predicate yields rows of full width.
-/
structure Index.Yields (cols : List (String × DataType)) (index : Index V) (filter : Expr) : Prop where
  columns : index.indexSchema.columns.Perm cols
  scan : ∃ batches, index.scan [filter] none = .ok (.complete batches) ∧
    ∀ row ∈ batches.flatten, row.length = index.indexSchema.names.length

section

variable [DecidableEq V] {df : DataFusion} (hdf : df.Schemas) {cols : List (String × DataType)}
  (hnodup : (cols.map Prod.fst).Nodup) {m m' : Row V → Nat} {plan left right : ExecutionPlan V}

open ExecutionPlan

theorem IndexScanExec.tryNew_counts {index : Index V} {filter : Expr} (hindex : index.Yields cols filter)
    (h : IndexScanExec.tryNew df index [filter] none index.indexSchema = .ok plan)
    : plan.Counts cols fun key => index.count (cols.map Prod.fst) key filter := by
  obtain ⟨batches, hbatches, hwidth⟩ := hindex.scan
  have hemits := IndexScanExec.tryNew_emits hbatches h
  cases h
  constructor
  . exact hindex.columns
  . exact ⟨_, (hemits _).mpr rfl⟩
  . intro rows hrows
    rw [(hemits rows).mp hrows]
    exact hwidth
  . intro rows hrows key
    rw [(hemits rows).mp hrows]
    simp only [Index.count, hbatches]
    rfl

include hdf hnodup in
theorem ExecutionPlan.Counts.projectToPkSchema {pkSchema : Schema} {projected : ExecutionPlan V}
    (h : plan.Counts cols m) (hpk : pkSchema.columns.Perm cols)
    (hproject : RecordFetchExec.projectToPkSchema df plan pkSchema = .ok projected)
    : projected.Counts cols m ∧ projected.schema.columns = pkSchema.columns := by
  have hcolumns : projected.schema.columns = pkSchema.columns :=
    RecordFetchExec.projectToPkSchema_columns hdf hnodup h.columns hpk hproject
  have hnames : projected.schema.names = pkSchema.names := Schema.names_of_columns hcolumns
  refine ⟨?_, hcolumns⟩
  by_cases hfields : plan.schema.fields = pkSchema.fields
  . rw [RecordFetchExec.projectToPkSchema_eq_ok, if_pos hfields] at hproject
    subst hproject
    exact h
  . have hemits := RecordFetchExec.projectToPkSchema_emits hproject hfields
    constructor
    . rw [hcolumns]
      exact hpk
    . obtain ⟨rows, hrows⟩ := h.emits
      exact ⟨_, (hemits _).mpr ⟨rows, hrows, rfl⟩⟩
    . intro out hout row hrow
      obtain ⟨rows, -, rfl⟩ := (hemits out).mp hout
      obtain ⟨row, -, rfl⟩ := List.mem_map.mp hrow
      rw [length_select, hnames]
    . intro out hout key
      obtain ⟨rows, hrows, rfl⟩ := (hemits out).mp hout
      have hkeys : ∀ row ∈ rows, (select (cols.map Prod.fst) pkSchema.names ∘
            select pkSchema.names plan.schema.names) row
          = select (cols.map Prod.fst) plan.schema.names row := by
        intro row _
        exact select_select (Schema.names_perm hpk).symm.subset
      rw [hnames, List.map_map, List.map_congr_left hkeys]
      exact h.count rows hrows key

theorem count_select_joinRows (hnodup : (cols.map Prod.fst).Nodup) (hleft : left.Counts cols m)
    (hright : right.Counts cols m')
    {ls rs : List (Row V)} (hls : left.Emits ls) (hrs : right.Emits rs) (key : Row V)
    : (((joinRows (joinPairs left.schema.names left.schema right.schema) ls rs).map
          (select left.schema.names (left.schema.names ++ right.schema.names))).map
            (select (cols.map Prod.fst) left.schema.names)).count key
        =
      m key * m' key := by
  have hleftnames := Schema.names_perm hleft.columns
  have hleftnodup := Schema.names_nodup hleft.columns hnodup
  rw [← hleft.count ls hls key, ← hright.count rs hrs key, List.map_map]
  apply count_innerJoin
  . intro l _ r _
    rw [agreeOn_joinPairs, select_eq_iff_of_subset hleftnames.subset hleftnames.symm.subset]
  . intro l hl r _
    have hwidth := hleft.width ls hls l hl
    rw [Function.comp_apply, select_append_left (List.Subset.refl _) hwidth,
      select_self hleftnodup hwidth]

include hdf hnodup in
theorem ExecutionPlan.Counts.join {pkSchema : Schema} {joined projected : ExecutionPlan V}
    (hcols : cols ≠ []) (hleft : left.Counts cols m) (hright : right.Counts cols m')
    (hpk : pkSchema.columns = left.schema.columns)
    (hjoin : tryCreateIndexLookupJoin df left right = .ok joined)
    (hproject : RecordFetchExec.projectToPkSchema df joined pkSchema = .ok projected)
    : projected.Counts cols (fun key => m key * m' key) ∧
        projected.schema.columns = left.schema.columns := by
  have hleftnodup := Schema.names_nodup hleft.columns hnodup
  obtain ⟨hcolumns, hemits, hjoined⟩ := projectToPkSchema_join hdf hcols hleftnodup hright.columns
    hpk hjoin hproject
  have hnames : projected.schema.names = left.schema.names := Schema.names_of_columns hcolumns
  refine ⟨?_, hcolumns⟩
  constructor
  . rw [hcolumns]
    exact hleft.columns
  . obtain ⟨ls, hls⟩ := hleft.emits
    obtain ⟨rs, hrs⟩ := hright.emits
    exact hemits ls rs hls hrs
  . intro rows hrows row hrow
    obtain ⟨ls, rs, -, -, hperm⟩ := hjoined rows hrows
    obtain ⟨row, -, rfl⟩ := List.mem_map.mp (hperm.subset hrow)
    rw [length_select, hnames]
  . intro rows hrows key
    obtain ⟨ls, rs, hls, hrs, hperm⟩ := hjoined rows hrows
    rw [hnames, (hperm.map _).count_eq, count_select_joinRows hnodup hleft hright hls hrs]

theorem Concatenates.emitted_counts {ms : List (Row V → Nat)} {first union : ExecutionPlan V}
    {rest : List (ExecutionPlan V)} {schema : Schema}
    (hinputs : List.Forall₂ (fun m plan =>
      plan.Counts cols m ∧ plan.schema.columns = schema.columns) ms (first :: rest))
    (hunion : Concatenates first rest union) {rows : List (Row V)} (hrows : union.Emits rows)
    : (∀ row ∈ rows, row.length = schema.names.length) ∧
        ∀ key, key ∈ rows.map (select (cols.map Prod.fst) schema.names) ↔ ∃ m ∈ ms, 0 < m key := by
  obtain ⟨outs, houts, hperm⟩ := hunion.perm rows hrows
  constructor
  . intro row hrow
    obtain ⟨out, hout, hrow⟩ := List.mem_flatten.mp (hperm.subset hrow)
    obtain ⟨plan, hplan, hemits⟩ := Collect.forall₂_of_mem_right houts hout
    obtain ⟨_, -, hcounts, hplancolumns⟩ := Collect.forall₂_of_mem_right hinputs hplan
    rw [← Schema.names_of_columns hplancolumns]
    exact hcounts.width out hemits row hrow
  . intro key
    have hparts : List.Forall₂ (fun m out =>
        ∀ key, (List.map (select (cols.map Prod.fst) schema.names) out).count key = m key) ms outs := by
      apply Collect.forall₂_trans _ hinputs houts
      intro m plan out hplan hemits
      rw [← Schema.names_of_columns hplan.2]
      exact hplan.1.count out hemits
    rw [(hperm.map _).mem_iff, List.map_flatten, List.mem_flatten]
    simp only [List.mem_map, exists_exists_and_eq_and]
    constructor
    . intro h
      obtain ⟨out, hout, hkey⟩ := h
      obtain ⟨m, hm, hcount⟩ := Collect.forall₂_of_mem_right hparts hout
      exact ⟨m, hm, (hcount key).symm ▸ List.count_pos_iff.mpr (List.mem_map.mpr hkey)⟩
    . intro h
      obtain ⟨m, hm, hpos⟩ := h
      obtain ⟨out, hout, hcount⟩ := Collect.forall₂_of_mem_left hparts hm
      rw [← hcount key] at hpos
      exact ⟨out, hout, List.mem_map.mp (List.count_pos_iff.mp hpos)⟩

theorem count_select_dedup {schema : Schema} (hcolumns : schema.columns.Perm cols)
    (hschema : schema.names.Nodup) {rows : List (Row V)}
    (hwidth : ∀ row ∈ rows, row.length = schema.names.length) (key : Row V)
    : (rows.dedup.map (select (cols.map Prod.fst) schema.names)).count key
        =
      if key ∈ rows.map (select (cols.map Prod.fst) schema.names) then 1 else 0 := by
  have hdedup : (rows.dedup.map (select (cols.map Prod.fst) schema.names)).Nodup := by
    apply (List.nodup_dedup rows).map_on
    intro row hrow row' hrow' heq
    apply select_inj (Schema.names_perm hcolumns).subset hschema _ _ heq
    . exact hwidth row (List.mem_dedup.mp hrow)
    . exact hwidth row' (List.mem_dedup.mp hrow')
  rw [hdedup.count]
  simp only [List.mem_map, List.mem_dedup]

include hdf hnodup in
theorem ExecutionPlan.Counts.dedup (hcols : cols ≠ []) {ms : List (Row V → Nat)}
    {first union : ExecutionPlan V} {rest : List (ExecutionPlan V)} {schema : Schema}
    {p : PlanProperties}
    (hinputs : List.Forall₂ (fun m plan =>
      plan.Counts cols m ∧ plan.schema.columns = schema.columns) ms (first :: rest))
    (hunion : Concatenates first rest union)
    (hp : df.aggregate (RecordFetchExec.groupExprs schema) union.properties schema = .ok p)
    (hle : ∀ key, m key ≤ 1) (hpos : ∀ key, 0 < m key ↔ ∃ m' ∈ ms, 0 < m' key)
    : Counts cols m (.aggregate p (RecordFetchExec.groupExprs schema) union) := by
  obtain ⟨_, hfirst⟩ := Collect.forall₂_of_mem_right hinputs (List.mem_cons_self)
  obtain ⟨-, hfirst, hfirstcolumns⟩ := hfirst
  have hcolumns : schema.columns.Perm cols := by
    rw [← hfirstcolumns]
    exact hfirst.columns
  have hschema : schema.names.Nodup := Schema.names_nodup hcolumns hnodup
  have hunioncolumns := hunion.columns.trans hfirstcolumns
  have hpschema := aggregate_schema hdf hschema (Schema.names_of_columns hunioncolumns) hp
  have hpcolumns : p.schema.columns = schema.columns := by
    rw [hpschema]
    exact hunioncolumns
  have hnames : p.schema.names = schema.names := Schema.names_of_columns hpcolumns
  have hrun : ∀ out, Emits (.aggregate p (RecordFetchExec.groupExprs schema) union) out →
      ∃ rows, union.Emits rows ∧ out.Perm rows.dedup := by
    intro out hout
    obtain ⟨-, rows, hrows, hperm⟩ := hout
    obtain ⟨hwidth, -⟩ := hunion.emitted_counts hinputs hrows
    rw [map_project_groupExprs hschema hwidth] at hperm
    exact ⟨rows, hrows, hperm⟩
  constructor
  . change p.schema.columns.Perm cols
    rw [hpcolumns]
    exact hcolumns
  . have hall : ∀ plan ∈ first :: rest, ∃ out, plan.Emits out := by
      intro plan hplan
      obtain ⟨_, -, hcounts, -⟩ := Collect.forall₂_of_mem_right hinputs hplan
      exact hcounts.emits
    obtain ⟨outs, houts⟩ := Collect.exists_forall₂ hall
    obtain ⟨rows, hrows⟩ := hunion.emits outs houts
    have hgroups := RecordFetchExec.groupExprs_ne_nil (Schema.fields_ne_nil hcols hcolumns)
    exact ⟨_, hgroups, rows, hrows, .refl _⟩
  . intro out hout row hrow
    obtain ⟨rows, hrows, hperm⟩ := hrun out hout
    obtain ⟨hwidth, -⟩ := hunion.emitted_counts hinputs hrows
    change _ = p.schema.names.length
    rw [hnames]
    exact hwidth row (List.mem_dedup.mp (hperm.subset hrow))
  . intro out hout key
    obtain ⟨rows, hrows, hperm⟩ := hrun out hout
    obtain ⟨hwidth, hmem⟩ := hunion.emitted_counts hinputs hrows
    change (out.map (select (cols.map Prod.fst) p.schema.names)).count key = _
    rw [hnames, (hperm.map _).count_eq, count_select_dedup hcolumns hschema hwidth key]
    simp only [hmem, ← hpos]
    have hle := hle key
    split <;> omega

namespace RecordFetchExec

include hdf hnodup in
theorem joinAll_counts (hcols : cols ≠ []) {pkSchema : Schema} {ms : List (Row V → Nat)}
    {plans : List (ExecutionPlan V)} {joined : ExecutionPlan V}
    (hleft : left.Counts cols m) (hpk : pkSchema.columns = left.schema.columns)
    (hplans : List.Forall₂ (fun m plan => plan.Counts cols m) ms plans)
    (h : joinAll df pkSchema left plans = .ok joined)
    : joined.Counts cols fun key => ms.foldl (fun count m => count * m key) (m key) := by
  induction hplans generalizing left m with
  | nil =>
    cases h
    exact hleft
  | @cons m' right ms plans hright hplans ih =>
    rw [joinAll_cons_eq_ok] at h
    obtain ⟨joinedOnce, hjoin, next, hproject, h⟩ := h
    obtain ⟨hnext, hcolumns⟩ := hleft.join hdf hnodup hcols hright hpk hjoin hproject
    exact ih hnext (hpk.trans hcolumns.symm) h

include hdf hnodup in
theorem buildOr_counts (hcols : cols ≠ []) {unionMode : UnionMode} {ms : List (Row V → Nat)}
    {plans : List (ExecutionPlan V)} (hne : plans ≠ [])
    (hplans : List.Forall₂ (fun m plan => plan.Counts cols m) ms plans)
    (h : buildOr df unionMode none plans = .ok plan)
    (hle : ∀ key, m key ≤ 1) (hpos : ∀ key, 0 < m key ↔ ∃ m' ∈ ms, 0 < m' key)
    : plan.Counts cols m := by
  match plans, hne with
  | first :: rest, _ =>
    rw [buildOr_eq_ok] at h
    obtain ⟨normalized, hnormalized, union, hunion, p, hp, rfl⟩ := h
    have hfirst : first.schema.columns.Perm cols := by
      obtain ⟨_, -, hfirst⟩ := Collect.forall₂_of_mem_right hplans (List.mem_cons_self)
      exact hfirst.columns
    have hinputs : List.Forall₂ (fun m plan =>
        plan.Counts cols m ∧ plan.schema.columns = first.schema.columns) ms normalized := by
      apply Collect.forall₂_trans _ hplans hnormalized
      intro m plan projected hplan hproject
      exact hplan.projectToPkSchema hdf hnodup hfirst hproject
    match normalized, hnormalized, hunion, hinputs with
    | first' :: rest', _, hunion, hinputs =>
      exact Counts.dedup hdf hnodup hcols hinputs (unionExec_concatenates hdf hunion) hp hle hpos

end RecordFetchExec

end

namespace IndexFilter

variable {leaf : Index V → Expr → Nat}

theorem foldl_multiplicity (filters : List (IndexFilter V)) (n : Nat)
    : filters.foldl (fun count f => count * f.multiplicity leaf) n = n * multiplicityAll leaf filters := by
  induction filters generalizing n with
  | nil => simp [multiplicityAll]
  | cons f fs ih => rw [List.foldl_cons, ih, multiplicityAll, Nat.mul_assoc]

theorem mem_allLeaves {filters : List (IndexFilter V)} {leaf : Index V × Expr}
    : leaf ∈ allLeaves filters ↔ ∃ f ∈ filters, leaf ∈ f.leaves := by
  induction filters with
  | nil => simp [allLeaves]
  | cons f fs ih => simp [allLeaves, ih]

theorem multiplicityAny_pos {filters : List (IndexFilter V)}
    : 0 < multiplicityAny leaf filters ↔ ∃ f ∈ filters, 0 < f.multiplicity leaf := by
  induction filters with
  | nil => simp [multiplicityAny]
  | cons f fs ih => simp only [multiplicityAny, List.exists_mem_cons_iff, ← ih, Nat.add_pos_iff_pos_or_pos]

end IndexFilter

section

variable [DecidableEq V] {df : DataFusion} {cols : List (String × DataType)} {plan : ExecutionPlan V}

theorem RecordFetchExec.buildScanExec_counts (hdf : df.Schemas) (hnodup : (cols.map Prod.fst).Nodup)
    (hcols : cols ≠ []) {unionMode : UnionMode} {f : IndexFilter V} (hf : f.NoEmptyNode)
    (hleaves : ∀ leaf ∈ f.leaves, leaf.1.Yields cols leaf.2)
    (h : buildScanExec df unionMode f none = .ok plan)
    : plan.Counts cols fun key => f.multiplicity (Index.count (cols.map Prod.fst) key) := by
  induction f generalizing plan with
  | single index filter =>
    rw [buildScanExec_single] at h
    exact IndexScanExec.tryNew_counts (hleaves (index, filter) (by simp [IndexFilter.leaves])) h
  | and filters ih =>
    rw [buildScanExec_and_eq_ok] at h
    obtain ⟨plans, hplans, h⟩ := h
    have hchildren : List.Forall₂ (fun f plan =>
        plan.Counts cols fun key => f.multiplicity (Index.count (cols.map Prod.fst) key))
          filters plans := by
      apply Collect.forall₂_imp_of_mem hplans
      intro child hchild plan hplan
      exact ih child hchild (IndexFilter.noEmptyNodes_iff.mp hf.2 child hchild)
        (IndexFilter.forall_allLeaves.mp hleaves child hchild) hplan
    cases hchildren with
    | nil => exact absurd rfl hf.1
    | @cons first left rest plans hleft hchildren =>
      rw [buildAnd_eq_ok] at h
      obtain ⟨joined, hjoined, rfl⟩ := h
      have hms : List.Forall₂ (fun m plan => plan.Counts cols m)
          (rest.map fun f key => f.multiplicity (Index.count (cols.map Prod.fst) key)) plans :=
        List.forall₂_map_left_iff.mpr hchildren
      have hjoined := joinAll_counts hdf hnodup hcols hleft rfl hms hjoined
      simp only [List.foldl_map, IndexFilter.foldl_multiplicity] at hjoined
      exact hjoined
  | or filters ih =>
    rw [buildScanExec_or_eq_ok] at h
    obtain ⟨plans, hplans, h⟩ := h
    have hms : List.Forall₂ (fun m plan => plan.Counts cols m)
        (filters.map fun f key => f.multiplicity (Index.count (cols.map Prod.fst) key)) plans := by
      rw [List.forall₂_map_left_iff]
      apply Collect.forall₂_imp_of_mem hplans
      intro child hchild plan hplan
      exact ih child hchild (IndexFilter.noEmptyNodes_iff.mp hf.2 child hchild)
        (IndexFilter.forall_allLeaves.mp hleaves child hchild) hplan
    apply buildOr_counts hdf hnodup hcols (Collect.forall₂_ne_nil hplans hf.1) hms h
    . intro key
      exact Nat.min_le_left _ _
    . intro key
      simp only [List.mem_map, exists_exists_and_eq_and, ← IndexFilter.multiplicityAny_pos,
        IndexFilter.multiplicity]
      omega

end

theorem IndexFilter.exists_leaf_of_multiplicity_pos {leaf : Index V → Expr → Nat} {f : IndexFilter V}
    (hf : f.NoEmptyNode) (h : 0 < f.multiplicity leaf)
    : ∃ leaf' ∈ f.leaves, 0 < leaf leaf'.1 leaf'.2 := by
  induction f with
  | single index filter => exact ⟨(index, filter), by simp [leaves], h⟩
  | and filters ih =>
    cases filters with
    | nil => exact absurd rfl hf.1
    | cons first rest =>
      rw [multiplicity, multiplicityAll] at h
      obtain ⟨leaf', hleaf', hpos⟩ := ih first (by simp) hf.2.1 (Nat.pos_of_mul_pos_right h)
      exact ⟨leaf', List.mem_append_left _ hleaf', hpos⟩
  | or filters ih =>
    rw [multiplicity] at h
    have hany : 0 < multiplicityAny leaf filters := by omega
    obtain ⟨child, hchild, hpos⟩ := multiplicityAny_pos.mp hany
    obtain ⟨leaf', hleaf', hpos⟩ := ih child hchild (noEmptyNodes_iff.mp hf.2 child hchild) hpos
    exact ⟨leaf', mem_allLeaves.mpr ⟨child, hchild, hleaf'⟩, hpos⟩

section Returns

variable [DecidableEq V] [BEq R] [LawfulBEq R] {table : Table V R} {m : Row V → Nat}
  {exec : RecordFetchExec V R}

omit [DecidableEq V] in
theorem Table.count_map_key [BEq (Row V)] [LawfulBEq (Row V)] {rows : List R}
    (hrows : rows ⊆ table.rows) {row : R} (hrow : row ∈ table.rows)
    : (rows.map table.key).count (table.key row) = rows.count row := by
  rw [List.count, List.countP_map, List.count]
  apply List.countP_congr
  intro row' hrow'
  rw [Function.comp_apply, beq_iff_eq, beq_iff_eq]
  constructor
  . intro hkey
    exact table.key_injective (hrows hrow') hrow hkey
  . intro heq
    rw [heq]

theorem Table.counted_rows {input : ExecutionPlan V}
    (hinput : input.Counts table.keySchema.columns m)
    (hkeys : ∀ key, 0 < m key → ∃ row ∈ table.rows, table.key row = key) {keys : List (Row V)}
    (h : input.Emits keys)
    : ∃ rows ⊆ table.rows, rows.map (table.keyIn input.schema) = keys ∧
        ∀ row ∈ table.rows, rows.count row = m (table.key row) := by
  have hnames := Schema.names_perm hinput.columns
  rw [Table.names_eq] at hnames
  have hcount := hinput.count keys h
  rw [Table.names_eq] at hcount
  have hrow : ∀ key ∈ keys, ∃ row ∈ table.rows, table.keyIn input.schema row = key := by
    intro key hkey
    obtain ⟨row, hrow, heq⟩ := hkeys (select table.keySchema.names input.schema.names key) (by
      rw [← hcount]
      exact List.count_pos_iff.mpr (List.mem_map_of_mem hkey))
    refine ⟨row, hrow, ?_⟩
    rw [keyIn, heq, select_select hnames.subset]
    exact select_self (Schema.names_nodup hinput.columns table.columns_nodup) (hinput.width keys h key hkey)
  obtain ⟨rows, hsubset, hrows⟩ := exists_rows hrow
  refine ⟨rows, hsubset, hrows, ?_⟩
  intro row hrow
  have hmap : keys.map (select table.keySchema.names input.schema.names)
      = rows.map table.key := by
    rw [← hrows, List.map_map]
    apply List.map_congr_left
    intro row hmem
    exact select_keyIn hinput.columns (hsubset hmem)
  rw [← hcount, hmap, count_map_key hsubset hrow]

/--
A fetch without a limit returns each row of the table as often as the scans of the tree make it, whatever
keys they repeat: as often as the product of its conditions under `And`, and at most once under `Or`.
-/
theorem RecordFetchExec.returns_multiplicity {df : DataFusion} (hdf : df.Schemas)
    {mapper : RecordFetcher V R} {f : IndexFilter V} (hf : f.NoEmptyNode)
    (hfetch : ∀ leaf ∈ f.leaves.head?, table.FetchedBy leaf.1.indexSchema.columns mapper)
    (hleaves : ∀ leaf ∈ f.leaves, leaf.1.Yields table.keySchema.columns leaf.2 ∧
      ∀ key, 0 < leaf.1.count table.keySchema.names key leaf.2 →
        ∃ row ∈ table.rows, table.key row = key)
    {schema : Schema} {unionMode : UnionMode}
    (h : tryNew df [f] none mapper schema unionMode = .ok exec)
    : (∃ rows, exec.Returns rows) ∧
        ∀ rows, exec.Returns rows → rows ⊆ table.rows ∧
          ∀ row ∈ table.rows,
            rows.count row = f.multiplicity (Index.count table.keySchema.names (table.key row)) := by
  simp only [tryNew, Collect.bind_eq_ok, Collect.pure_eq_ok] at h
  obtain ⟨input, hinput, rfl⟩ := h
  have hcounts := buildScanExec_counts hdf table.columns_nodup table.columns_ne_nil hf
    (fun leaf hleaf => (hleaves leaf hleaf).1) hinput
  rw [Table.names_eq] at hcounts
  have hfetch : table.FetchedBy input.schema.columns mapper :=
    .of_leftmost hdf hf (fun leaf hleaf => (hleaves leaf hleaf).1.columns) hfetch hinput
  have hkeys : ∀ key, 0 < f.multiplicity (Index.count table.keySchema.names key) →
      ∃ row ∈ table.rows, table.key row = key := by
    intro key hpos
    obtain ⟨leaf, hleaf, hpos⟩ := IndexFilter.exists_leaf_of_multiplicity_pos hf hpos
    exact (hleaves leaf hleaf).2 key hpos
  have hrows : ∀ keys, input.Emits keys → ∃ rows ⊆ table.rows,
      rows.map (table.keyIn input.schema) = keys ∧ ∀ row ∈ table.rows,
        rows.count row = f.multiplicity (Index.count table.keySchema.names (table.key row)) :=
    fun _ => Table.counted_rows hcounts hkeys
  constructor
  . obtain ⟨keys, hemits⟩ := hcounts.emits
    obtain ⟨rows, hsubset, hmap, -⟩ := hrows keys hemits
    have hflatten : [keys].flatten = rows.map (table.keyIn input.schema) := by
      simpa using hmap.symm
    obtain ⟨fetched, hfetched, -⟩ := Table.fetch_batches hfetch hsubset hflatten
    refine ⟨fetched.flatten, [keys], fetched, ?_, hfetched, rfl⟩
    simpa using hemits
  . intro returned hreturned
    obtain ⟨batches, fetched, hemits, hfetched, rfl⟩ := hreturned
    obtain ⟨rows, hsubset, hmap, hcount⟩ := hrows _ hemits
    obtain ⟨fetched', hfetched', hflatten⟩ := Table.fetch_batches hfetch hsubset hmap.symm
    rw [hfetched, Except.ok.injEq] at hfetched'
    rw [hfetched', hflatten]
    exact ⟨hsubset, hcount⟩

end Returns

-- The first index yields the key of one row twice, and so does the second one.
def repeatedKeys : IndexFilter Nat :=
  .and [
    .single (idIndex false [[1, 2], [1]]) (.column ⟨none, "active"⟩),
    .or [
      .single (idIndex true [[3, 1]]) (.column ⟨none, "remote"⟩),
      .single (idIndex false [[1], [1]]) (.column ⟨none, "active"⟩)
    ],
    .single (idIndex true [[1, 1]]) (.column ⟨none, "remote"⟩)
  ]

theorem repeatedKeys_returned_four_times
    : ∃ exec : RecordFetchExec Nat (Nat × Option Bool × Option Bool),
        RecordFetchExec.tryNew DataFusion.reference [repeatedKeys] none (employees.fetcher idSchema)
            idSchema .parallel = .ok exec ∧
          ∃ rows, exec.Returns rows ∧ rows.count (1, some true, none) = 4 ∧
            rows.count (2, none, some true) = 0 := by
  have hleaves : ∀ leaf ∈ repeatedKeys.leaves, leaf.1.Yields employees.keySchema.columns leaf.2 ∧
      ∀ key, 0 < leaf.1.count employees.keySchema.names key leaf.2 →
        ∃ row ∈ employees.rows, employees.key row = key := by
    intro leaf hleaf
    simp only [repeatedKeys, IndexFilter.leaves, IndexFilter.allLeaves, List.append_nil,
      List.mem_cons, List.not_mem_nil, or_false, List.cons_append, List.nil_append] at hleaf
    rcases hleaf with rfl | rfl | rfl | rfl
    all_goals
      refine ⟨⟨.refl _, _, rfl, by decide⟩, ?_⟩
      intro key hpos
      have hmem := List.count_pos_iff.mp hpos
      clear hpos
      revert key
      decide
  have hfetch : ∀ leaf ∈ repeatedKeys.leaves.head?,
      employees.FetchedBy leaf.1.indexSchema.columns (employees.fetcher idSchema) := by
    intro leaf hleaf
    cases hleaf
    exact (Table.fetcher_fetches idSchema).fetchedBy
  have hf : repeatedKeys.NoEmptyNode := by
    simp [repeatedKeys, IndexFilter.NoEmptyNode, IndexFilter.NoEmptyNodes]
  have hexec : ∃ exec, RecordFetchExec.tryNew DataFusion.reference [repeatedKeys] none
      (employees.fetcher idSchema) idSchema .parallel = .ok exec := ⟨_, rfl⟩
  obtain ⟨exec, hexec⟩ := hexec
  obtain ⟨⟨rows, hrows⟩, hcount⟩ := RecordFetchExec.returns_multiplicity DataFusion.reference_schemas
    hf hfetch hleaves hexec
  obtain ⟨-, hcount⟩ := hcount rows hrows
  refine ⟨exec, hexec, rows, hrows, ?_, ?_⟩
  . rw [hcount _ (by decide)]
    rfl
  . rw [hcount _ (by decide)]
    rfl

end IndexProvider
