import IndexProvider.Lemmas.Reference
import IndexProvider.Lemmas.Scan

/-!
This module contains the columns of the plans of the index provider and what their rows say when they
are read by column name: composite keys are combined by name, whatever the order of the columns.
-/

namespace IndexProvider

open NamedTuple Bags

variable {V : Type}

-- A tuple as a map from column names to values. Columns it does not have are NULL.
abbrev NamedRow (V : Type) := String → Option V

def namedRows (schema : Schema) (rows : List (Row V)) : Set (NamedRow V) :=
  {m | ∃ row ∈ rows, valueOf schema.names row = m}

def Index.namedRows (index : Index V) (filter : Expr) : Set (NamedRow V) :=
  {m | ∃ batches, index.scan [filter] none = .ok (.complete batches) ∧
    m ∈ IndexProvider.namedRows index.indexSchema batches.flatten}

/--
The scan yields rows of the width of the index schema.
-/
def Index.ScansRows (index : Index V) (filter : Expr) : Prop :=
  ∃ batches, index.scan [filter] none = .ok (.complete batches) ∧
    ∀ row ∈ batches.flatten, row.length = index.indexSchema.names.length

namespace ExecutionPlan

def FullWidth [DecidableEq V] (plan : ExecutionPlan V) : Prop :=
  ∀ rows, plan.Emits rows → ∀ row ∈ rows, row.length = plan.schema.names.length

/--
A plan with the given columns that produces, in every run, rows of full width which, read by name, are
those in `D`.
-/
structure ReadsAs [DecidableEq V] (columns : List (String × DataType)) (D : Set (NamedRow V))
    (plan : ExecutionPlan V) : Prop where
  columns_eq : plan.schema.columns = columns
  emits : ∃ rows, plan.Emits rows
  width : plan.FullWidth
  named : ∀ rows, plan.Emits rows → namedRows plan.schema rows = D

end ExecutionPlan

section

variable [DecidableEq V] {df : DataFusion} (hdf : df.Schemas)
  {cols columns columns' : List (String × DataType)} (hnodup : (cols.map Prod.fst).Nodup)
  {D E : Set (NamedRow V)} {plan left right joined projected : ExecutionPlan V}

open ExecutionPlan

omit [DecidableEq V] in
theorem namedRows_congr {schema schema' : Schema} (h : schema.names = schema'.names)
    (rows : List (Row V))
    : namedRows schema rows = namedRows schema' rows := by
  rw [namedRows, namedRows, h]

omit [DecidableEq V] in
theorem namedRows_select {schema pkSchema : Schema} {rows : List (Row V)}
    (hnames : schema.names ⊆ pkSchema.names) (hwidth : ∀ row ∈ rows, row.length = schema.names.length)
    : namedRows pkSchema (rows.map (select pkSchema.names schema.names)) = namedRows schema rows := by
  ext m
  simp only [namedRows, Set.mem_ofPred_eq, List.mem_map]
  constructor
  . intro h
    obtain ⟨_, ⟨row, hrow, rfl⟩, rfl⟩ := h
    exact ⟨row, hrow, (valueOf_select_of_subset hnames (hwidth row hrow)).symm⟩
  . intro h
    obtain ⟨row, hrow, rfl⟩ := h
    exact ⟨_, ⟨row, hrow, rfl⟩, valueOf_select_of_subset hnames (hwidth row hrow)⟩

include hdf hnodup in
theorem ExecutionPlan.ReadsAs.projectToPkSchema {pkSchema : Schema}
    (h : plan.ReadsAs columns D) (hcolumns : columns.Perm cols) (hpk : pkSchema.columns.Perm cols)
    (hproject : RecordFetchExec.projectToPkSchema df plan pkSchema = .ok projected)
    : projected.ReadsAs pkSchema.columns D := by
  have hplan : plan.schema.columns.Perm cols := by
    rw [h.columns_eq]
    exact hcolumns
  have hprojected := RecordFetchExec.projectToPkSchema_columns hdf hnodup hplan hpk hproject
  have hnames : projected.schema.names = pkSchema.names := Schema.names_of_columns hprojected
  by_cases hfields : plan.schema.fields = pkSchema.fields
  . rw [RecordFetchExec.projectToPkSchema_eq_ok, if_pos hfields] at hproject
    subst hproject
    exact ⟨hprojected, h.emits, h.width, h.named⟩
  . have hemits := RecordFetchExec.projectToPkSchema_emits hproject hfields
    refine ⟨hprojected, ?_, ?_, ?_⟩
    . obtain ⟨rows, hrows⟩ := h.emits
      exact ⟨_, (hemits _).mpr ⟨rows, hrows, rfl⟩⟩
    . intro out hout row hrow
      obtain ⟨rows, -, rfl⟩ := (hemits out).mp hout
      obtain ⟨row, -, rfl⟩ := List.mem_map.mp hrow
      rw [length_select, hnames]
    . intro out hout
      obtain ⟨rows, hrows, rfl⟩ := (hemits out).mp hout
      have hsubset : plan.schema.names ⊆ pkSchema.names :=
        ((Schema.names_perm hplan).trans (Schema.names_perm hpk).symm).subset
      rw [namedRows_congr hnames, namedRows_select hsubset (h.width rows hrows)]
      exact h.named rows hrows

theorem mem_select_joinRows {left right : Schema} {ls rs : List (Row V)}
    (hleft : left.names.Nodup) (hnames : left.names.Perm right.names)
    (hls : ∀ l ∈ ls, l.length = left.names.length) (hrs : ∀ r ∈ rs, r.length = right.names.length)
    (row : Row V)
    : row ∈ (joinRows (joinPairs left.names left right) ls rs).map
          (select left.names (left.names ++ right.names))
        ↔
      row ∈ ls ∧ ∃ r ∈ rs, valueOf right.names r = valueOf left.names row := by
  have hkeep : ∀ l ∈ ls, ∀ r : Row V,
      select left.names (left.names ++ right.names) (l ++ r) = l := by
    intro l hl r
    rw [select_append_left (List.Subset.refl _) (hls l hl)]
    exact select_self hleft (hls l hl)
  have hagree : ∀ l ∈ ls, ∀ r ∈ rs,
      agreeOn (joinPairs left.names left right) l r = true
        ↔ valueOf right.names r = valueOf left.names l := by
    intro l hl r hr
    rw [agreeOn_joinPairs, eq_comm, valueOf_eq_iff hnames.symm.subset (List.Subset.refl _)
      (hrs r hr) (hls l hl)]
  simp only [List.mem_map, joinRows, mem_innerJoin]
  constructor
  . intro h
    obtain ⟨_, ⟨l, hl, r, hr, hlr, rfl⟩, rfl⟩ := h
    rw [hkeep l hl r]
    exact ⟨hl, r, hr, (hagree l hl r hr).mp hlr⟩
  . intro h
    obtain ⟨hl, r, hr, hlr⟩ := h
    exact ⟨_, ⟨row, hl, r, hr, (hagree row hl r hr).mpr hlr, rfl⟩, hkeep row hl r⟩

include hdf hnodup in
theorem join_keeps_left {pkSchema : Schema} (hcols : cols ≠ [])
    (hleft : left.schema.columns.Perm cols) (hright : right.schema.columns.Perm cols)
    (hls : left.FullWidth) (hrs : right.FullWidth)
    (hpk : pkSchema.columns = left.schema.columns)
    (hjoin : tryCreateIndexLookupJoin df left right = .ok joined)
    (hproject : RecordFetchExec.projectToPkSchema df joined pkSchema = .ok projected)
    : projected.schema.columns = left.schema.columns ∧
        (∀ ls rs, left.Emits ls → right.Emits rs → ∃ rows, projected.Emits rows) ∧
          ∀ rows, projected.Emits rows → ∃ ls rs, left.Emits ls ∧ right.Emits rs ∧
            ∀ row, row ∈ rows
              ↔ row ∈ ls ∧ ∃ r ∈ rs, valueOf right.schema.names r = valueOf left.schema.names row := by
  have hleftnodup : left.schema.names.Nodup := Schema.names_nodup hleft hnodup
  have hnames : left.schema.names.Perm right.schema.names :=
    (Schema.names_perm hleft).trans (Schema.names_perm hright).symm
  obtain ⟨hcolumns, hemits, hjoined⟩ := projectToPkSchema_join hdf hcols hleftnodup hright hpk hjoin
    hproject
  refine ⟨hcolumns, hemits, ?_⟩
  intro rows hrows
  obtain ⟨ls, rs, hlsemits, hrsemits, hperm⟩ := hjoined rows hrows
  refine ⟨ls, rs, hlsemits, hrsemits, ?_⟩
  intro row
  rw [hperm.mem_iff]
  exact mem_select_joinRows hleftnodup hnames (hls ls hlsemits) (hrs rs hrsemits) row

include hdf hnodup in
theorem ExecutionPlan.ReadsAs.join {pkSchema : Schema} (hcols : cols ≠ [])
    (hleft : left.ReadsAs columns D) (hright : right.ReadsAs columns' E)
    (hcolumns : columns.Perm cols) (hcolumns' : columns'.Perm cols)
    (hpk : pkSchema.columns = left.schema.columns)
    (hjoin : tryCreateIndexLookupJoin df left right = .ok joined)
    (hproject : RecordFetchExec.projectToPkSchema df joined pkSchema = .ok projected)
    : projected.ReadsAs columns (D ∩ E) := by
  rw [← hleft.columns_eq] at hcolumns
  rw [← hright.columns_eq] at hcolumns'
  obtain ⟨hprojected, hemits, hkeeps⟩ := join_keeps_left hdf hnodup hcols hcolumns hcolumns'
    hleft.width hright.width hpk hjoin hproject
  have hnames : projected.schema.names = left.schema.names := Schema.names_of_columns hprojected
  refine ⟨hprojected.trans hleft.columns_eq, ?_, ?_, ?_⟩
  . obtain ⟨ls, hls⟩ := hleft.emits
    obtain ⟨rs, hrs⟩ := hright.emits
    exact hemits ls rs hls hrs
  . intro rows hrows row hrow
    obtain ⟨ls, rs, hls, -, hmem⟩ := hkeeps rows hrows
    rw [hnames]
    exact hleft.width ls hls row ((hmem row).mp hrow).1
  . intro rows hrows
    obtain ⟨ls, rs, hls, hrs, hmem⟩ := hkeeps rows hrows
    rw [namedRows_congr hnames, ← hleft.named ls hls, ← hright.named rs hrs]
    ext m
    simp only [namedRows, Set.mem_inter_iff, Set.mem_ofPred_eq, hmem]
    constructor
    . intro h
      obtain ⟨row, ⟨hrow, r, hr, heq⟩, rfl⟩ := h
      exact ⟨⟨row, hrow, rfl⟩, r, hr, heq⟩
    . intro h
      obtain ⟨⟨row, hrow, rfl⟩, r, hr, heq⟩ := h
      exact ⟨row, ⟨hrow, r, hr, heq⟩, rfl⟩

abbrev Reads (cols : List (String × DataType)) (D : Set (NamedRow V)) (plan : ExecutionPlan V) :
    Prop :=
  ∃ columns, columns.Perm cols ∧ plan.ReadsAs columns D

include hdf in
theorem unionExec_named {unionMode : UnionMode} {schema : Schema} {first union : ExecutionPlan V}
    {rest : List (ExecutionPlan V)} {Ds : List (Set (NamedRow V))}
    (hplans : List.Forall₂ (fun D plan => plan.ReadsAs schema.columns D) Ds (first :: rest))
    (h : RecordFetchExec.unionExec df unionMode (first :: rest) = .ok union)
    : union.ReadsAs schema.columns {m | ∃ D ∈ Ds, m ∈ D} := by
  have hunion := RecordFetchExec.unionExec_concatenates hdf h
  have hschema : ∀ plan ∈ first :: rest, plan.schema.columns = schema.columns := by
    intro plan hplan
    obtain ⟨_, -, hreads⟩ := Collect.forall₂_of_mem_right hplans hplan
    exact hreads.columns_eq
  have hcolumns : union.schema.columns = schema.columns :=
    hunion.columns.trans (hschema first (by simp))
  have hnames : ∀ plan ∈ first :: rest, union.schema.names = plan.schema.names := by
    intro plan hplan
    exact Schema.names_of_columns (hcolumns.trans (hschema plan hplan).symm)
  refine ⟨hcolumns, ?_, ?_, ?_⟩
  . have hall : ∀ plan ∈ first :: rest, ∃ out, plan.Emits out := by
      intro plan hplan
      obtain ⟨_, -, hreads⟩ := Collect.forall₂_of_mem_right hplans hplan
      exact hreads.emits
    obtain ⟨outs, houts⟩ := Collect.exists_forall₂ hall
    exact hunion.emits outs houts
  . intro rows hrows row hrow
    obtain ⟨outs, houts, hperm⟩ := hunion.perm rows hrows
    obtain ⟨out, hout, hrow⟩ := List.mem_flatten.mp (hperm.subset hrow)
    obtain ⟨plan, hplan, hemits⟩ := Collect.forall₂_of_mem_right houts hout
    obtain ⟨_, -, hreads⟩ := Collect.forall₂_of_mem_right hplans hplan
    rw [hnames plan hplan]
    exact hreads.width out hemits row hrow
  . intro rows hrows
    obtain ⟨outs, houts, hperm⟩ := hunion.perm rows hrows
    ext m
    constructor
    . intro h
      obtain ⟨row, hrow, rfl⟩ := h
      obtain ⟨out, hout, hrow⟩ := List.mem_flatten.mp (hperm.subset hrow)
      obtain ⟨plan, hplan, hemits⟩ := Collect.forall₂_of_mem_right houts hout
      obtain ⟨D, hD, hreads⟩ := Collect.forall₂_of_mem_right hplans hplan
      refine ⟨D, hD, ?_⟩
      rw [← hreads.named out hemits, ← namedRows_congr (hnames plan hplan)]
      exact ⟨row, hrow, rfl⟩
    . intro h
      obtain ⟨D, hD, hm⟩ := h
      obtain ⟨plan, hplan, hreads⟩ := Collect.forall₂_of_mem_left hplans hD
      obtain ⟨out, hout, hemits⟩ := Collect.forall₂_of_mem_left houts hplan
      rw [← hreads.named out hemits, ← namedRows_congr (hnames plan hplan)] at hm
      obtain ⟨row, hrow, rfl⟩ := hm
      exact ⟨row, hperm.symm.subset (List.mem_flatten.mpr ⟨out, hout, hrow⟩), rfl⟩

include hdf hnodup in
theorem ExecutionPlan.ReadsAs.dedup {schema : Schema} {union : ExecutionPlan V} {p : PlanProperties}
    (hcols : cols ≠ []) (hschema : schema.columns.Perm cols)
    (hunion : union.ReadsAs schema.columns D)
    (hp : df.aggregate (RecordFetchExec.groupExprs schema) union.properties schema = .ok p)
    : ReadsAs schema.columns D (.aggregate p (RecordFetchExec.groupExprs schema) union) := by
  have hschemanodup : schema.names.Nodup := Schema.names_nodup hschema hnodup
  have hunionnames : union.schema.names = schema.names := Schema.names_of_columns hunion.columns_eq
  have hpschema : p.schema = union.schema := aggregate_schema hdf hschemanodup hunionnames hp
  have hrun : ∀ out, Emits (.aggregate p (RecordFetchExec.groupExprs schema) union) out →
      ∃ rows, union.Emits rows ∧ ∀ row, row ∈ out ↔ row ∈ rows := by
    intro out hout
    obtain ⟨-, rows, hrows, hperm⟩ := hout
    have hwidth := hunion.width rows hrows
    rw [hunionnames] at hwidth
    rw [map_project_groupExprs hschemanodup hwidth] at hperm
    refine ⟨rows, hrows, ?_⟩
    intro row
    rw [hperm.mem_iff, List.mem_dedup]
  refine ⟨?_, ?_, ?_, ?_⟩
  . change p.schema.columns = _
    rw [hpschema]
    exact hunion.columns_eq
  . obtain ⟨rows, hrows⟩ := hunion.emits
    have hgroups := RecordFetchExec.groupExprs_ne_nil (Schema.fields_ne_nil hcols hschema)
    exact ⟨_, hgroups, rows, hrows, .refl _⟩
  . intro out hout row hrow
    obtain ⟨rows, hrows, hmem⟩ := hrun out hout
    change _ = p.schema.names.length
    rw [hpschema]
    exact hunion.width rows hrows row ((hmem row).mp hrow)
  . intro out hout
    obtain ⟨rows, hrows, hmem⟩ := hrun out hout
    change namedRows p.schema out = D
    rw [hpschema, ← hunion.named rows hrows]
    simp only [namedRows, hmem]

include hdf hnodup in
theorem joinAll_readsAs {pkSchema : Schema} {Ds : List (Set (NamedRow V))}
    {plans : List (ExecutionPlan V)} (hcols : cols ≠ []) (hleft : left.ReadsAs columns D)
    (hcolumns : columns.Perm cols) (hpk : pkSchema.columns = columns)
    (hplans : List.Forall₂ (Reads cols) Ds plans)
    (h : RecordFetchExec.joinAll df pkSchema left plans = .ok joined)
    : joined.ReadsAs columns (D ∩ {m | ∀ E ∈ Ds, m ∈ E}) := by
  induction hplans generalizing left D with
  | nil =>
    cases h
    simpa using hleft
  | @cons E right Ds plans hright hplans ih =>
    obtain ⟨columns', hcolumns', hright⟩ := hright
    rw [RecordFetchExec.joinAll_cons_eq_ok] at h
    obtain ⟨joinedOnce, hjoin, next, hproject, h⟩ := h
    have hnext := hleft.join hdf hnodup hcols hright hcolumns hcolumns'
      (hpk.trans hleft.columns_eq.symm) hjoin hproject
    have hsets : D ∩ {m | ∀ E' ∈ E :: Ds, m ∈ E'} = D ∩ E ∩ {m | ∀ E' ∈ Ds, m ∈ E'} := by
      ext m
      simp [and_assoc]
    rw [hsets]
    exact ih hnext h

include hdf hnodup in
theorem buildAnd_readsAs {Ds : List (Set (NamedRow V))} {plans : List (ExecutionPlan V)}
    (hcols : cols ≠ []) (hleft : left.ReadsAs columns D) (hcolumns : columns.Perm cols)
    (hplans : List.Forall₂ (Reads cols) Ds plans)
    (h : RecordFetchExec.buildAnd df none (left :: plans) = .ok plan)
    : plan.ReadsAs columns {m | ∀ E ∈ D :: Ds, m ∈ E} := by
  rw [RecordFetchExec.buildAnd_eq_ok] at h
  obtain ⟨joined, hjoined, rfl⟩ := h
  have hsets : {m | ∀ E ∈ D :: Ds, m ∈ E} = D ∩ {m | ∀ E ∈ Ds, m ∈ E} := by
    ext m
    simp
  rw [hsets]
  exact joinAll_readsAs hdf hnodup hcols hleft hcolumns hleft.columns_eq hplans hjoined

include hdf hnodup in
theorem buildOr_readsAs {unionMode : UnionMode} {first : ExecutionPlan V}
    {rest : List (ExecutionPlan V)} {Ds : List (Set (NamedRow V))} (hcols : cols ≠ [])
    (hfirst : first.ReadsAs columns D) (hcolumns : columns.Perm cols)
    (hplans : List.Forall₂ (Reads cols) Ds rest)
    (h : RecordFetchExec.buildOr df unionMode none (first :: rest) = .ok plan)
    : plan.ReadsAs columns {m | ∃ E ∈ D :: Ds, m ∈ E} := by
  rw [RecordFetchExec.buildOr_eq_ok] at h
  obtain ⟨normalized, hnormalized, union, hunion, p, hp, rfl⟩ := h
  have hschema : first.schema.columns.Perm cols := by
    rw [hfirst.columns_eq]
    exact hcolumns
  have hall : List.Forall₂ (Reads cols) (D :: Ds) (first :: rest) :=
    .cons ⟨columns, hcolumns, hfirst⟩ hplans
  have hinputs : List.Forall₂ (fun D plan => plan.ReadsAs first.schema.columns D) (D :: Ds)
      normalized := by
    apply Collect.forall₂_trans _ hall hnormalized
    intro D plan projected hplan hproject
    obtain ⟨columns', hcolumns', hplan⟩ := hplan
    exact hplan.projectToPkSchema hdf hnodup hcolumns' hschema hproject
  rw [← hfirst.columns_eq]
  match normalized, hnormalized, hunion, hinputs with
  | first' :: rest', _, hunion, hinputs =>
    exact (unionExec_named hdf hinputs hunion).dedup hdf hnodup hcols hschema hp

theorem IndexScanExec.tryNew_readsAs {index : Index V} {filter : Expr}
    (hindex : index.ScansRows filter)
    (h : IndexScanExec.tryNew df index [filter] none index.indexSchema = .ok plan)
    : plan.ReadsAs index.indexSchema.columns (index.namedRows filter) := by
  obtain ⟨batches, hbatches, hwidth⟩ := hindex
  have hemits := IndexScanExec.tryNew_emits hbatches h
  cases h
  refine ⟨rfl, ⟨_, (hemits _).mpr rfl⟩, ?_, ?_⟩
  . intro rows hrows
    rw [(hemits rows).mp hrows]
    exact hwidth
  . intro rows hrows
    rw [(hemits rows).mp hrows]
    ext m
    constructor
    . intro hm
      exact ⟨batches, hbatches, hm⟩
    . intro h
      obtain ⟨batches', hbatches', hm⟩ := h
      rw [hbatches] at hbatches'
      cases hbatches'
      exact hm

def ReadsFirst (cols : List (String × DataType)) (f : IndexFilter V) (plan : ExecutionPlan V) : Prop :=
  ∃ leaf, f.leaves.head? = some leaf ∧ leaf.1.indexSchema.columns.Perm cols ∧
    plan.ReadsAs leaf.1.indexSchema.columns (f.denote Index.namedRows)

theorem reads_of_readsFirst {filters : List (IndexFilter V)} {plans : List (ExecutionPlan V)}
    (h : List.Forall₂ (ReadsFirst cols) filters plans)
    : List.Forall₂ (Reads cols) (filters.map (IndexFilter.denote Index.namedRows)) plans := by
  rw [List.forall₂_map_left_iff]
  apply h.imp
  intro f plan hreads
  obtain ⟨leaf, -, hcolumns, hreads⟩ := hreads
  exact ⟨_, hcolumns, hreads⟩

include hdf hnodup in
theorem RecordFetchExec.buildScanExec_readsAs {unionMode : UnionMode} {f : IndexFilter V}
    (hcols : cols ≠ []) (hf : f.NoEmptyNode) (hcolumns : f.KeyColumns cols)
    (hleaves : ∀ leaf ∈ f.leaves, leaf.1.ScansRows leaf.2)
    (h : buildScanExec df unionMode f none = .ok plan)
    : ReadsFirst cols f plan := by
  induction f generalizing plan with
  | single index filter =>
    rw [buildScanExec_single] at h
    exact ⟨(index, filter), rfl, hcolumns (index, filter) (by simp [IndexFilter.leaves]),
      IndexScanExec.tryNew_readsAs (hleaves (index, filter) (by simp [IndexFilter.leaves])) h⟩
  | and filters ih =>
    rw [buildScanExec_and_eq_ok] at h
    obtain ⟨plans, hplans, h⟩ := h
    have hchildren : List.Forall₂ (ReadsFirst cols) filters plans := by
      apply Collect.forall₂_imp_of_mem hplans
      intro child hchild plan hplan
      exact ih child hchild (IndexFilter.noEmptyNodes_iff.mp hf.2 child hchild) (hcolumns.and hchild)
        (IndexFilter.forall_allLeaves.mp hleaves child hchild) hplan
    have hdenote : IndexFilter.denote Index.namedRows (.and filters)
        = {m | ∀ D ∈ filters.map (IndexFilter.denote Index.namedRows), m ∈ D} := by
      ext m
      simp [IndexFilter.denote, IndexFilter.mem_denoteAll]
    rw [ReadsFirst, hdenote]
    cases hchildren with
    | nil => exact absurd rfl hf.1
    | cons hleft hrest =>
      obtain ⟨leaf, hleaf, hleafcolumns, hleft⟩ := hleft
      refine ⟨leaf, IndexFilter.allLeaves_head? hleaf, hleafcolumns, ?_⟩
      exact buildAnd_readsAs hdf hnodup hcols hleft hleafcolumns (reads_of_readsFirst hrest) h
  | or filters ih =>
    rw [buildScanExec_or_eq_ok] at h
    obtain ⟨plans, hplans, h⟩ := h
    have hchildren : List.Forall₂ (ReadsFirst cols) filters plans := by
      apply Collect.forall₂_imp_of_mem hplans
      intro child hchild plan hplan
      exact ih child hchild (IndexFilter.noEmptyNodes_iff.mp hf.2 child hchild) (hcolumns.or hchild)
        (IndexFilter.forall_allLeaves.mp hleaves child hchild) hplan
    have hdenote : IndexFilter.denote Index.namedRows (.or filters)
        = {m | ∃ D ∈ filters.map (IndexFilter.denote Index.namedRows), m ∈ D} := by
      ext m
      simp [IndexFilter.denote, IndexFilter.mem_denoteAny]
    rw [ReadsFirst, hdenote]
    cases hchildren with
    | nil => exact absurd rfl hf.1
    | cons hleft hrest =>
      obtain ⟨leaf, hleaf, hleafcolumns, hleft⟩ := hleft
      refine ⟨leaf, IndexFilter.allLeaves_head? hleaf, hleafcolumns, ?_⟩
      exact buildOr_readsAs hdf hnodup hcols hleft hleafcolumns (reads_of_readsFirst hrest) h

/--
Composite keys are combined by column name: the output has the columns of the leftmost leaf, its rows
are the union and intersection of the rows of the leaves, all read by name, and a join keeps the left
rows that occur on the right.
-/
theorem RecordFetchExec.composite_keys_by_name {df : DataFusion} (hdf : df.Schemas)
    {cols : List (String × DataType)} (hcols : cols ≠ []) (hnodup : (cols.map Prod.fst).Nodup)
    {unionMode : UnionMode} {f : IndexFilter V} (hf : f.NoEmptyNode) (hcolumns : f.KeyColumns cols)
    (hleaves : ∀ leaf ∈ f.leaves, leaf.1.ScansRows leaf.2) {plan : ExecutionPlan V}
    (h : buildScanExec df unionMode f none = .ok plan)
    : (∃ leaf, f.leaves.head? = some leaf ∧ plan.schema.names = leaf.1.indexSchema.names) ∧
        (∃ rows, plan.Emits rows) ∧
          (∀ rows, plan.Emits rows → namedRows plan.schema rows = f.denote Index.namedRows) ∧
            ∀ left right joined projected : ExecutionPlan V, left.schema.columns.Perm cols →
              right.schema.columns.Perm cols → left.FullWidth → right.FullWidth →
                tryCreateIndexLookupJoin df left right = .ok joined →
                  projectToPkSchema df joined left.schema = .ok projected →
                    projected.schema.names = left.schema.names ∧
                      ∀ rows, projected.Emits rows → ∃ ls rs, left.Emits ls ∧ right.Emits rs ∧
                        ∀ row, row ∈ rows ↔ row ∈ ls ∧ ∃ r ∈ rs,
                          valueOf right.schema.names r = valueOf left.schema.names row := by
  obtain ⟨leaf, hleaf, -, hreads⟩ := buildScanExec_readsAs hdf hnodup hcols hf hcolumns hleaves h
  refine ⟨⟨leaf, hleaf, Schema.names_of_columns hreads.columns_eq⟩, hreads.emits, hreads.named, ?_⟩
  intro left right joined projected hleft hright hls hrs hjoin hproject
  obtain ⟨hprojected, -, hkeeps⟩ :=
    join_keeps_left hdf hnodup hcols hleft hright hls hrs rfl hjoin hproject
  exact ⟨Schema.names_of_columns hprojected, hkeeps⟩

end

def tenantField : Field := ⟨"tenant", .utf8, true, []⟩

def rowField : Field := ⟨"row", .int32, true, []⟩

def tenantRow : Index Nat :=
  .constant ⟨[tenantField, rowField], []⟩ false [[[some 1, some 2], [none, some 3]]]

def rowTenant : Index Nat :=
  .constant ⟨[rowField, tenantField], []⟩ false [[[some 1, some 2]], [[some 3, none]]]

def permutedKeys : IndexFilter Nat :=
  .and [
    .single tenantRow (.literal .null),
    .or [.single rowTenant (.literal .null), .single rowTenant (.literal .null)]
  ]

theorem permutedKeys_by_name
    : ∃ plan, RecordFetchExec.buildScanExec DataFusion.reference .sequential permutedKeys none
          = .ok plan ∧ plan.schema.names = ["tenant", "row"] ∧
        ∀ rows, plan.Emits rows →
          namedRows plan.schema rows = permutedKeys.denote Index.namedRows := by
  have hf : permutedKeys.NoEmptyNode := by
    simp [permutedKeys, IndexFilter.NoEmptyNode, IndexFilter.NoEmptyNodes]
  have hleaves : ∀ leaf ∈ permutedKeys.leaves,
      leaf.1.indexSchema.columns.Perm [("tenant", .utf8), ("row", .int32)] ∧
        leaf.1.ScansRows leaf.2 := by
    intro leaf hleaf
    simp only [permutedKeys, IndexFilter.leaves, IndexFilter.allLeaves, List.append_nil,
      List.cons_append, List.nil_append, List.mem_cons, List.not_mem_nil, or_false] at hleaf
    rcases hleaf with rfl | rfl | rfl
    . exact ⟨.refl _, _, rfl, by decide⟩
    . exact ⟨.swap _ _ _, _, rfl, by decide⟩
    . exact ⟨.swap _ _ _, _, rfl, by decide⟩
  have hplan : ∃ plan, RecordFetchExec.buildScanExec DataFusion.reference .sequential permutedKeys none
      = .ok plan := ⟨_, rfl⟩
  obtain ⟨plan, hplan⟩ := hplan
  obtain ⟨⟨leaf, hleaf, hnames⟩, -, hrows, -⟩ := RecordFetchExec.composite_keys_by_name
    DataFusion.reference_schemas (by simp) (by decide) hf (fun leaf hleaf => (hleaves leaf hleaf).1)
    (fun leaf hleaf => (hleaves leaf hleaf).2) hplan
  cases hleaf
  exact ⟨plan, hplan, hnames, hrows⟩

end IndexProvider
