import IndexProvider.Library.Enumeration
import IndexProvider.Lemmas.Operators
import IndexProvider.Semantics.Filter

/-!
This module contains the keys that the plans of the index provider produce. The key columns are
`cols`; a plan may list them in any order, and a key is a row read in the order of `cols`.
-/

namespace IndexProvider

open NamedTuple Bags Enumeration

variable {V : Type}

namespace Schema

theorem names_perm {schema : Schema} {cols : List (String × DataType)}
    (h : schema.columns.Perm cols)
    : schema.names.Perm (cols.map Prod.fst) := by
  rw [names_eq_columns]
  apply h.map

theorem names_nodup {schema : Schema} {cols : List (String × DataType)}
    (h : schema.columns.Perm cols) (hnodup : (cols.map Prod.fst).Nodup)
    : schema.names.Nodup := by
  rw [(names_perm h).nodup_iff]
  exact hnodup

theorem names_of_columns {schema schema' : Schema} (h : schema.columns = schema'.columns)
    : schema.names = schema'.names := by
  rw [names_eq_columns, names_eq_columns, h]

def reorder (schema : Schema) (names : List String) : List Field := names.filterMap schema.field?

theorem field?_of_columns {schema : Schema} (hnodup : schema.names.Nodup) {name : String}
    {type : DataType} (h : (name, type) ∈ schema.columns)
    : ∃ field ∈ schema.fields, schema.field? name = some field ∧ field.name = name ∧
        field.dataType = type := by
  obtain ⟨field, hfield, hcolumn⟩ := List.mem_map.mp h
  cases hcolumn
  exact ⟨field, hfield, field?_of_mem hnodup hfield, rfl, rfl⟩

theorem columns_reorder {schema pkSchema : Schema} {metadata : Metadata}
    (hnodup : schema.names.Nodup) (h : pkSchema.columns ⊆ schema.columns)
    : columns ⟨schema.reorder pkSchema.names, metadata⟩ = pkSchema.columns := by
  have hfields : ∀ fields : List Field,
      (∀ field ∈ fields, (field.name, field.dataType) ∈ schema.columns)
        →
      ((fields.map Field.name).filterMap schema.field?).map (fun f => (f.name, f.dataType))
        =
      fields.map (fun f => (f.name, f.dataType)) := by
    intro fields hfields
    induction fields with
    | nil => rfl
    | cons field fields ih =>
      obtain ⟨found, -, hfound, hname, htype⟩ := field?_of_columns hnodup (hfields field (by simp))
      rw [List.map_cons, List.filterMap_cons_some hfound, List.map_cons, List.map_cons, hname, htype,
        ih (fun field hfield => hfields field (by simp [hfield]))]
  apply hfields
  intro field hfield
  exact h (List.mem_map_of_mem hfield)

theorem reorder_self {schema : Schema} (hnodup : schema.names.Nodup)
    : schema.reorder schema.names = schema.fields := filterMap_field?_self hnodup

theorem reorder_append_left {schema left : Schema} {fields : List Field}
    (h : schema.fields = left.fields ++ fields) (hnodup : left.names.Nodup)
    : schema.reorder left.names = left.fields := by
  rw [← reorder_self hnodup]
  apply List.filterMap_congr
  intro name hname
  exact field?_append_left h hname

end Schema

theorem select_eq_iff_of_subset {cols cols' names names' : List String} {row row' : Row V}
    (h : cols ⊆ cols') (h' : cols' ⊆ cols)
    : select cols names row = select cols names' row'
        ↔
      select cols' names row = select cols' names' row' := by
  rw [select_eq_select_iff, select_eq_select_iff]
  constructor
  . intro heq name hname
    exact heq name (h' hname)
  . intro heq name hname
    exact heq name (h hname)

namespace ExecutionPlan

/--
A plan over the key columns that, in every run, produces rows of full width whose keys enumerate `D`
under the limit.
-/
structure Produces [DecidableEq V] (cols : List (String × DataType)) (D : Set (Row V))
    (limit : Option Nat) (plan : ExecutionPlan V) : Prop where
  columns : plan.schema.columns.Perm cols
  emits : ∃ rows, plan.Emits rows
  width : ∀ rows, plan.Emits rows → ∀ row ∈ rows, row.length = plan.schema.names.length
  keys : ∀ rows, plan.Emits rows →
    Enumerates D limit (rows.map (select (cols.map Prod.fst) plan.schema.names))

end ExecutionPlan

section

variable [DecidableEq V] {df : DataFusion} (hdf : df.Schemas) {cols : List (String × DataType)}
  (hnodup : (cols.map Prod.fst).Nodup) {D E : Set (Row V)} {limit : Option Nat}
  {plan left right : ExecutionPlan V}

open ExecutionPlan

theorem ExecutionPlan.Produces.names_perm (h : plan.Produces cols D limit)
    : plan.schema.names.Perm (cols.map Prod.fst) := Schema.names_perm h.columns

include hnodup in
theorem ExecutionPlan.Produces.names_nodup (h : plan.Produces cols D limit)
    : plan.schema.names.Nodup := Schema.names_nodup h.columns hnodup

omit [DecidableEq V] in
include hdf in
theorem RecordFetchExec.projectToPkSchema_schema {pkSchema : Schema} {projected : ExecutionPlan V}
    (hpk : pkSchema.names.Nodup) (h : projectToPkSchema df plan pkSchema = .ok projected)
    : projected.schema = ⟨plan.schema.reorder pkSchema.names, plan.schema.metadata⟩ := by
  rw [projectToPkSchema_eq_ok] at h
  split at h
  . next hfields =>
    subst h
    have hnames : plan.schema.names = pkSchema.names := by simp only [Schema.names, hfields]
    rw [← hnames] at hpk ⊢
    rw [Schema.reorder_self hpk]
  . obtain ⟨-, p, hp, rfl⟩ := h
    have hschema : p.schema
        = ⟨(selectExprs pkSchema.names plan.schema).fields plan.schema, plan.schema.metadata⟩ :=
      hdf.projection_schema _ _ _ hp
    rw [fields_selectExprs] at hschema
    exact hschema

omit [DecidableEq V] in
include hdf hnodup in
theorem RecordFetchExec.projectToPkSchema_columns {pkSchema : Schema} {projected : ExecutionPlan V}
    (hplan : plan.schema.columns.Perm cols) (hpk : pkSchema.columns.Perm cols)
    (h : projectToPkSchema df plan pkSchema = .ok projected)
    : projected.schema.columns = pkSchema.columns := by
  have hpknodup : pkSchema.names.Nodup := Schema.names_nodup hpk hnodup
  have hplannodup : plan.schema.names.Nodup := Schema.names_nodup hplan hnodup
  rw [RecordFetchExec.projectToPkSchema_schema hdf hpknodup h]
  apply Schema.columns_reorder hplannodup
  exact (hpk.trans hplan.symm).subset

theorem RecordFetchExec.projectToPkSchema_emits {pkSchema : Schema} {projected : ExecutionPlan V}
    (h : projectToPkSchema df plan pkSchema = .ok projected)
    (hne : plan.schema.fields ≠ pkSchema.fields) (out : List (Row V))
    : projected.Emits out
        ↔
      ∃ rows, plan.Emits rows ∧ out = rows.map (select pkSchema.names plan.schema.names) := by
  rw [projectToPkSchema_eq_ok, if_neg hne] at h
  obtain ⟨-, p, hp, rfl⟩ := h
  have hselect : project (V := V) (selectExprs pkSchema.names plan.schema)
      = select pkSchema.names plan.schema.names := by
    funext row
    rw [project_selectExprs]
  rw [Emits, hselect]

include hdf hnodup in
theorem ExecutionPlan.Produces.projectToPkSchema {pkSchema : Schema} {projected : ExecutionPlan V}
    (h : plan.Produces cols D limit) (hpk : pkSchema.columns.Perm cols)
    (hproject : RecordFetchExec.projectToPkSchema df plan pkSchema = .ok projected)
    : projected.Produces cols D limit ∧ projected.schema.columns = pkSchema.columns := by
  have hcolumns : projected.schema.columns = pkSchema.columns :=
    RecordFetchExec.projectToPkSchema_columns hdf hnodup h.columns hpk hproject
  have hnames : projected.schema.names = pkSchema.names := Schema.names_of_columns hcolumns
  refine ⟨?_, hcolumns⟩
  by_cases hfields : plan.schema.fields = pkSchema.fields
  . rw [RecordFetchExec.projectToPkSchema_eq_ok, if_pos hfields] at hproject
    subst hproject
    exact h
  . have hemits := RecordFetchExec.projectToPkSchema_emits hproject hfields
    constructor
    . rw [hcolumns]
      exact hpk
    . obtain ⟨rows, hrows⟩ := h.emits
      exact ⟨_, (hemits _).mpr ⟨rows, hrows, rfl⟩⟩
    . intro out hout row hrow
      obtain ⟨rows, -, rfl⟩ := (hemits out).mp hout
      obtain ⟨row, -, rfl⟩ := List.mem_map.mp hrow
      rw [length_select, hnames]
    . intro out hout
      obtain ⟨rows, hrows, rfl⟩ := (hemits out).mp hout
      rw [hnames, List.map_map]
      have hkeys : ∀ row ∈ rows, (select (cols.map Prod.fst) pkSchema.names ∘
            select pkSchema.names plan.schema.names) row
          = select (cols.map Prod.fst) plan.schema.names row := by
        intro row _
        apply select_select
        exact (Schema.names_perm hpk).symm.subset
      rw [List.map_congr_left hkeys]
      exact h.keys rows hrows

structure JoinsOnKey (left right joined : ExecutionPlan V) : Prop where
  names_subset : left.schema.names ⊆ right.schema.names
  fields : joined.schema.fields = left.schema.fields ++ right.schema.fields
  emits_iff : ∀ out, joined.Emits out ↔ ∃ ls rs, left.Emits ls ∧ right.Emits rs ∧
    out.Perm (joinRows (joinPairs left.schema.names left.schema right.schema) ls rs)

omit [DecidableEq V] in
include hdf in
theorem tryCreateIndexLookupJoin_fields {joined : ExecutionPlan V}
    (h : tryCreateIndexLookupJoin df left right = .ok joined)
    : joined.schema.fields = left.schema.fields ++ right.schema.fields := by
  rw [tryCreateIndexLookupJoin_eq_ok] at h
  obtain ⟨on, -, h⟩ := h
  split at h
  . obtain ⟨p, hp, rfl⟩ := h
    exact hdf.sortMergeJoin_schema _ _ _ _ _ hp
  . obtain ⟨p, hp, rfl⟩ := h
    exact hdf.hashJoin_schema _ _ _ _ hp

omit [DecidableEq V] in
include hdf in
theorem tryCreateIndexLookupJoin_projects {pkSchema : Schema} {joined : ExecutionPlan V}
    (hcols : cols ≠ []) (hright : right.schema.columns.Perm cols)
    (hpk : pkSchema.columns = left.schema.columns)
    (h : tryCreateIndexLookupJoin df left right = .ok joined)
    : joined.schema.fields ≠ pkSchema.fields := by
  intro hfields
  have hpklength := congrArg List.length hpk
  have hlength := congrArg List.length (hfields.symm.trans (tryCreateIndexLookupJoin_fields hdf h))
  have hright := hright.length_eq
  have hpos := List.length_pos_of_ne_nil hcols
  simp only [Schema.columns, List.length_map, List.length_append] at hpklength hlength hright
  omega

include hdf in
theorem tryCreateIndexLookupJoin_joins {joined : ExecutionPlan V}
    (hleft : left.schema.names.Nodup) (h : tryCreateIndexLookupJoin df left right = .ok joined)
    : JoinsOnKey left right joined := by
  have hfields := tryCreateIndexLookupJoin_fields hdf h
  rw [tryCreateIndexLookupJoin_eq_ok] at h
  obtain ⟨on, hon, h⟩ := h
  rw [joinOn_eq_ok_iff hleft] at hon
  obtain ⟨hnames, rfl⟩ := hon
  split at h
  . obtain ⟨p, hp, rfl⟩ := h
    exact ⟨hnames, hfields, fun out => by simp only [Emits]⟩
  . obtain ⟨p, hp, rfl⟩ := h
    exact ⟨hnames, hfields, fun out => by simp only [Emits]⟩

section

variable {names names' : List String} {ls rs : List (Row V)} {on : JoinOn}

/--
Over keys, joining and projecting back to the left columns keeps the left rows whose key the right
side has.
-/
theorem map_select_joinRows
    (hnodup : names.Nodup) (hls : ∀ l ∈ ls, l.length = names.length)
    (hon : ∀ l r : Row V, agreeOn on l r = true ↔ select names names l = select names names' r)
    (hrs : (rs.map (select names names')).Nodup)
    : (joinRows on ls rs).map (select names (names ++ names'))
        =
      ls.filter (fun l => rs.any (agreeOn on l)) := by
  apply map_innerJoin_eq_filter
  . intro l hl r _
    rw [select_append_left (List.Subset.refl names) (hls l hl)]
    exact select_self hnodup (hls l hl)
  . intro l _
    apply length_filter_le_one (select names names') (select names names l) hrs
    intro r _ hr
    exact ((hon l r).mp hr).symm

theorem any_agreeOn_joinPairs {left right : Schema} (h : left.names.Perm names) (l : Row V)
    : rs.any (agreeOn (joinPairs left.names left right) l)
        =
      decide (select names left.names l ∈ rs.map (select names right.names)) := by
  rw [Bool.eq_iff_iff, List.any_eq_true, decide_eq_true_iff, List.mem_map]
  apply exists_congr
  intro r
  rw [agreeOn_joinPairs, select_eq_iff_of_subset h.subset h.symm.subset]
  simp only [eq_comm]

end

theorem ExecutionPlan.Produces.nodup_select (h : plan.Produces cols D limit) {rows : List (Row V)}
    (hrows : plan.Emits rows) {names : List String} (hnames : names.Perm (cols.map Prod.fst))
    : (rows.map (select names plan.schema.names)).Nodup := by
  have hkeys := (h.keys rows hrows).nodup
  have hrownodup : rows.Nodup := hkeys.of_map _
  apply hrownodup.map_on
  intro row hrow row' hrow' heq
  rw [select_eq_iff_of_subset hnames.subset hnames.symm.subset] at heq
  exact List.inj_on_of_nodup_map hkeys hrow hrow' heq

theorem ExecutionPlan.Produces.semijoin (hleft : left.Produces cols D none)
    (hright : right.Produces cols E none) {ls rs : List (Row V)} (hls : left.Emits ls)
    (hrs : right.Emits rs)
    : Enumerates (D ∩ E) none ((ls.filter fun l =>
        rs.any (agreeOn (joinPairs left.schema.names left.schema right.schema) l)).map
          (select (cols.map Prod.fst) left.schema.names)) := by
  let rkeys := rs.map (select (cols.map Prod.fst) right.schema.names)
  have hfilter := List.filter_map (f := select (cols.map Prod.fst) left.schema.names)
    (p := fun key => decide (key ∈ rkeys)) (l := ls)
  simp only [Function.comp_def] at hfilter
  simp only [any_agreeOn_joinPairs hleft.names_perm]
  rw [← hfilter]
  apply (hleft.keys ls hls).inter (hright.keys rs hrs)
  simp [rkeys]

omit [DecidableEq V] in
include hdf in
theorem projectToPkSchema_join_columns {pkSchema : Schema} {joined projected : ExecutionPlan V}
    (hleft : left.schema.names.Nodup) (hpk : pkSchema.columns = left.schema.columns)
    (hjoin : tryCreateIndexLookupJoin df left right = .ok joined)
    (hproject : RecordFetchExec.projectToPkSchema df joined pkSchema = .ok projected)
    : projected.schema.columns = left.schema.columns := by
  have hfields := tryCreateIndexLookupJoin_fields hdf hjoin
  have hpknames : pkSchema.names = left.schema.names := Schema.names_of_columns hpk
  have hpknodup : pkSchema.names.Nodup := by
    rw [hpknames]
    exact hleft
  rw [RecordFetchExec.projectToPkSchema_schema hdf hpknodup hproject, hpknames,
    Schema.reorder_append_left hfields hleft]
  rfl

include hdf in
/--
The join of two plans, projected to the key columns, has the columns of the left plan and emits the left
halves of the joined rows.
-/
theorem projectToPkSchema_join {pkSchema : Schema} {joined projected : ExecutionPlan V}
    (hcols : cols ≠ []) (hleft : left.schema.names.Nodup) (hright : right.schema.columns.Perm cols)
    (hpk : pkSchema.columns = left.schema.columns)
    (hjoin : tryCreateIndexLookupJoin df left right = .ok joined)
    (hproject : RecordFetchExec.projectToPkSchema df joined pkSchema = .ok projected)
    : projected.schema.columns = left.schema.columns ∧
        (∀ ls rs, left.Emits ls → right.Emits rs → ∃ rows, projected.Emits rows) ∧
          ∀ rows, projected.Emits rows → ∃ ls rs, left.Emits ls ∧ right.Emits rs ∧
            rows.Perm ((joinRows (joinPairs left.schema.names left.schema right.schema) ls rs).map
              (select left.schema.names (left.schema.names ++ right.schema.names))) := by
  refine ⟨projectToPkSchema_join_columns hdf hleft hpk hjoin hproject, ?_⟩
  have hj := tryCreateIndexLookupJoin_joins hdf hleft hjoin
  have hjnames : joined.schema.names = left.schema.names ++ right.schema.names := by
    simp only [Schema.names, hj.fields, List.map_append]
  -- A join has more columns than the key, so it is always projected.
  have hne := tryCreateIndexLookupJoin_projects hdf hcols hright hpk hjoin
  have hemits := RecordFetchExec.projectToPkSchema_emits hproject hne
  rw [hjnames, Schema.names_of_columns hpk] at hemits
  constructor
  . intro ls rs hls hrs
    exact ⟨_, (hemits _).mpr ⟨_, (hj.emits_iff _).mpr ⟨ls, rs, hls, hrs, .refl _⟩, rfl⟩⟩
  . intro rows hrows
    obtain ⟨out, hout, rfl⟩ := (hemits rows).mp hrows
    obtain ⟨ls, rs, hls, hrs, hperm⟩ := (hj.emits_iff out).mp hout
    exact ⟨ls, rs, hls, hrs, hperm.map _⟩

include hdf hnodup in
theorem ExecutionPlan.Produces.join {pkSchema : Schema} {joined projected : ExecutionPlan V}
    (hcols : cols ≠ []) (hleft : left.Produces cols D none) (hright : right.Produces cols E none)
    (hpk : pkSchema.columns = left.schema.columns)
    (hjoin : tryCreateIndexLookupJoin df left right = .ok joined)
    (hproject : RecordFetchExec.projectToPkSchema df joined pkSchema = .ok projected)
    : projected.Produces cols (D ∩ E) none ∧ projected.schema.columns = left.schema.columns := by
  have hleftnodup := hleft.names_nodup hnodup
  obtain ⟨hcolumns, hemits, hjoined⟩ := projectToPkSchema_join hdf hcols hleftnodup hright.columns
    hpk hjoin hproject
  have hnames : projected.schema.names = left.schema.names := Schema.names_of_columns hcolumns
  have hpairs := agreeOn_joinPairs (V := V) left.schema.names left.schema right.schema
  have hrows : ∀ rows, projected.Emits rows →
      ∃ ls rs, left.Emits ls ∧ right.Emits rs ∧ rows.Perm (ls.filter (fun l =>
        rs.any (agreeOn (joinPairs left.schema.names left.schema right.schema) l))) := by
    intro rows hrows
    obtain ⟨ls, rs, hls, hrs, hperm⟩ := hjoined rows hrows
    rw [map_select_joinRows hleftnodup (hleft.width ls hls) hpairs
      (hright.nodup_select hrs hleft.names_perm)] at hperm
    exact ⟨ls, rs, hls, hrs, hperm⟩
  refine ⟨?_, hcolumns⟩
  constructor
  . rw [hcolumns]
    exact hleft.columns
  . obtain ⟨ls, hls⟩ := hleft.emits
    obtain ⟨rs, hrs⟩ := hright.emits
    exact hemits ls rs hls hrs
  . intro rows hemits row hrow
    obtain ⟨ls, rs, hls, -, hperm⟩ := hrows rows hemits
    rw [hnames]
    exact hleft.width ls hls row (List.mem_of_mem_filter (hperm.subset hrow))
  . intro rows hemits
    obtain ⟨ls, rs, hls, hrs, hperm⟩ := hrows rows hemits
    rw [hnames]
    exact (hleft.semijoin hright hls hrs).perm (hperm.map _)

structure Concatenates (first : ExecutionPlan V) (rest : List (ExecutionPlan V))
    (union : ExecutionPlan V) : Prop where
  columns : union.schema.columns = first.schema.columns
  emits : ∀ outs, List.Forall₂ Emits (first :: rest) outs → ∃ out, union.Emits out
  perm : ∀ out, union.Emits out → ∃ outs, List.Forall₂ Emits (first :: rest) outs ∧
    out.Perm outs.flatten

include hdf in
theorem RecordFetchExec.unionExec_concatenates {unionMode : UnionMode} {first union : ExecutionPlan V}
    {rest : List (ExecutionPlan V)} (h : unionExec df unionMode (first :: rest) = .ok union)
    : Concatenates first rest union := by
  cases unionMode with
  | parallel =>
    rw [unionExec, UnionExec.tryNew_eq_ok] at h
    split at h
    . next hrest =>
      subst hrest h
      constructor
      . rfl
      . intro outs houts
        cases houts with
        | cons hout _ => exact ⟨_, hout⟩
      . intro out hout
        refine ⟨[out], .cons hout .nil, ?_⟩
        simp
    . obtain ⟨p, hp, rfl⟩ := h
      constructor
      . exact hdf.union_schema _ _ _ hp
      . intro outs houts
        exact ⟨outs.flatten, outs, emitsAll_iff.mpr houts, .refl _⟩
      . intro out hout
        obtain ⟨outs, houts, hperm⟩ := hout
        exact ⟨outs, emitsAll_iff.mp houts, hperm⟩
  | sequential =>
    obtain ⟨-, eq, -, rfl⟩ := SequentialUnionExec.tryNew_eq_ok.mp h
    constructor
    . rfl
    . intro outs houts
      exact ⟨outs.flatten, outs, emitsAll_iff.mpr houts, .refl _⟩
    . intro out hout
      obtain ⟨outs, houts, hperm⟩ := hout
      exact ⟨outs, emitsAll_iff.mp houts, hperm⟩

omit [DecidableEq V] in
theorem map_project_groupExprs {schema : Schema} {rows : List (Row V)} (hschema : schema.names.Nodup)
    (hrows : ∀ row ∈ rows, row.length = schema.names.length)
    : rows.map (project (RecordFetchExec.groupExprs schema)) = rows := by
  rw [groupExprs_eq hschema]
  have hself : ∀ row ∈ rows, project (selectExprs schema.names schema) row = id row := by
    intro row hrow
    rw [project_selectExprs]
    exact select_self hschema (hrows row hrow)
  rw [List.map_congr_left hself, List.map_id]

omit [DecidableEq V] in
include hdf in
theorem aggregate_schema {schema : Schema} {union : ExecutionPlan V} {p : PlanProperties}
    (hschema : schema.names.Nodup) (hnames : union.schema.names = schema.names)
    (hp : df.aggregate (RecordFetchExec.groupExprs schema) union.properties schema = .ok p)
    : p.schema = union.schema := by
  rw [hdf.aggregate_schema _ _ _ _ hp, groupExprs_eq_selectExprs hschema hnames]
  rw [← hnames] at hschema
  change Schema.mk ((selectExprs union.schema.names union.schema).fields union.schema) _ = _
  rw [fields_selectExprs, filterMap_field?_self hschema]
  rfl

theorem Concatenates.emitted {Ds : List (Set (Row V))} {first union : ExecutionPlan V}
    {rest : List (ExecutionPlan V)} {schema : Schema}
    (hinputs : List.Forall₂ (fun D plan =>
      plan.Produces cols D limit ∧ plan.schema.columns = schema.columns) Ds (first :: rest))
    (hunion : Concatenates first rest union) {rows : List (Row V)} (hrows : union.Emits rows)
    : ∃ outs : List (List (Row V)), rows.Perm outs.flatten ∧
      (∀ row ∈ rows, row.length = schema.names.length) ∧
        List.Forall₂ (fun D keys => Enumerates D limit keys) Ds
          (outs.map (List.map (select (cols.map Prod.fst) schema.names))) := by
  obtain ⟨outs, houts, hperm⟩ := hunion.perm rows hrows
  refine ⟨outs, hperm, ?_, ?_⟩
  . intro row hrow
    obtain ⟨out, hout, hrow⟩ := List.mem_flatten.mp (hperm.subset hrow)
    obtain ⟨plan, hplan, hemits⟩ := Collect.forall₂_of_mem_right houts hout
    obtain ⟨_, -, hproduces, hplancolumns⟩ := Collect.forall₂_of_mem_right hinputs hplan
    rw [← Schema.names_of_columns hplancolumns]
    exact hproduces.width out hemits row hrow
  . rw [List.forall₂_map_right_iff]
    apply Collect.forall₂_trans _ hinputs houts
    intro D plan out hplan hemits
    rw [← Schema.names_of_columns hplan.2]
    exact hplan.1.keys out hemits

theorem enumerates_dedup {Ds : List (Set (Row V))} {schema : Schema}
    (hcolumns : schema.columns.Perm cols) (hschema : schema.names.Nodup)
    {rows out : List (Row V)} {outs : List (List (Row V))} (hrows : rows.Perm outs.flatten)
    (hwidth : ∀ row ∈ rows, row.length = schema.names.length)
    (henumerates : List.Forall₂ (fun D keys => Enumerates D limit keys) Ds
      (outs.map (List.map (select (cols.map Prod.fst) schema.names))))
    (hout : out.Perm rows.dedup)
    : Enumerates {x | ∃ D ∈ Ds, x ∈ D} limit
        (out.map (select (cols.map Prod.fst) schema.names)) := by
  apply Enumerates.union henumerates
  . have houtnodup : out.Nodup := hout.nodup_iff.mpr (List.nodup_dedup rows)
    apply houtnodup.map_on
    intro row hrow row' hrow' heq
    apply select_inj (Schema.names_perm hcolumns).subset hschema _ _ heq
    . exact hwidth row (List.mem_dedup.mp (hout.subset hrow))
    . exact hwidth row' (List.mem_dedup.mp (hout.subset hrow'))
  . intro key
    simp only [List.mem_map, hout.mem_iff, List.mem_dedup, hrows.mem_iff, List.mem_flatten]
    constructor
    . intro h
      obtain ⟨row, ⟨part, hpart, hrow⟩, rfl⟩ := h
      exact ⟨_, ⟨part, hpart, rfl⟩, List.mem_map_of_mem hrow⟩
    . intro h
      obtain ⟨_, ⟨part, hpart, rfl⟩, hkey⟩ := h
      obtain ⟨row, hrow, rfl⟩ := List.mem_map.mp hkey
      exact ⟨row, ⟨part, hpart, hrow⟩, rfl⟩

theorem RecordFetchExec.groupExprs_ne_nil {schema : Schema} (h : schema.fields ≠ [])
    : RecordFetchExec.groupExprs schema ≠ [] := by
  intro hnil
  rw [RecordFetchExec.groupExprs, List.map_eq_nil_iff, List.zipIdx_eq_nil_iff] at hnil
  exact h hnil

omit [DecidableEq V] in
theorem Schema.fields_ne_nil {schema : Schema} (hcols : cols ≠ []) (h : schema.columns.Perm cols)
    : schema.fields ≠ [] := by
  intro hnil
  rw [Schema.columns, hnil, List.map_nil, List.nil_perm] at h
  exact hcols h

include hdf hnodup in
theorem ExecutionPlan.Produces.dedup (hcols : cols ≠ []) {Ds : List (Set (Row V))} {first union : ExecutionPlan V}
    {rest : List (ExecutionPlan V)} {schema : Schema} {p : PlanProperties}
    (hinputs : List.Forall₂ (fun D plan =>
      plan.Produces cols D limit ∧ plan.schema.columns = schema.columns) Ds (first :: rest))
    (hunion : Concatenates first rest union)
    (hp : df.aggregate (RecordFetchExec.groupExprs schema) union.properties schema = .ok p)
    : Produces cols {x | ∃ D ∈ Ds, x ∈ D} limit
        (.aggregate p (RecordFetchExec.groupExprs schema) union) ∧
      p.schema.columns = schema.columns := by
  obtain ⟨_, hfirst⟩ := Collect.forall₂_of_mem_right hinputs (List.mem_cons_self)
  obtain ⟨-, hfirst, hfirstcolumns⟩ := hfirst
  have hcolumns : schema.columns.Perm cols := by
    rw [← hfirstcolumns]
    exact hfirst.columns
  have hschema : schema.names.Nodup := Schema.names_nodup hcolumns hnodup
  have hunionnames : union.schema.names = schema.names :=
    Schema.names_of_columns (hunion.columns.trans hfirstcolumns)
  have hpschema := aggregate_schema hdf hschema hunionnames hp
  have hpcolumns : p.schema.columns = schema.columns := by
    rw [hpschema]
    exact hunion.columns.trans hfirstcolumns
  have hnames : p.schema.names = schema.names := Schema.names_of_columns hpcolumns
  have hrun : ∀ out, Emits (.aggregate p (RecordFetchExec.groupExprs schema) union) out →
      ∃ rows, union.Emits rows ∧ out.Perm rows.dedup := by
    intro out hout
    obtain ⟨-, rows, hrows, hperm⟩ := hout
    obtain ⟨outs, -, hwidth, -⟩ := hunion.emitted hinputs hrows
    rw [map_project_groupExprs hschema hwidth] at hperm
    exact ⟨rows, hrows, hperm⟩
  refine ⟨?_, hpcolumns⟩
  constructor
  . change p.schema.columns.Perm cols
    rw [hpcolumns]
    exact hcolumns
  . have hall : ∀ plan ∈ first :: rest, ∃ out, plan.Emits out := by
      intro plan hplan
      obtain ⟨_, -, hproduces, -⟩ := Collect.forall₂_of_mem_right hinputs hplan
      exact hproduces.emits
    obtain ⟨outs, houts⟩ := Collect.exists_forall₂ hall
    obtain ⟨rows, hrows⟩ := hunion.emits outs houts
    have hgroups := RecordFetchExec.groupExprs_ne_nil (Schema.fields_ne_nil hcols hcolumns)
    exact ⟨_, hgroups, rows, hrows, .refl _⟩
  . intro out hout row hrow
    obtain ⟨rows, hrows, hperm⟩ := hrun out hout
    obtain ⟨_, -, hwidth, -⟩ := hunion.emitted hinputs hrows
    change _ = p.schema.names.length
    rw [hnames]
    exact hwidth row (List.mem_dedup.mp (hperm.subset hrow))
  . intro out hout
    obtain ⟨rows, hrows, hperm⟩ := hrun out hout
    obtain ⟨outs, houts, hwidth, henumerates⟩ := hunion.emitted hinputs hrows
    change Enumerates _ _ (out.map (select (cols.map Prod.fst) p.schema.names))
    rw [hnames]
    exact enumerates_dedup hcolumns hschema houts hwidth henumerates hperm

omit [DecidableEq V] in
include hdf in
theorem RecordFetchExec.withLimit_schema (plan : ExecutionPlan V) (limit : Option Nat)
    : (withLimit df plan limit).schema = plan.schema := by
  cases limit with
  | none => rfl
  | some n => exact hdf.localLimit_schema _ _

include hdf in
theorem ExecutionPlan.Produces.withLimit {limit' : Option Nat} (h : plan.Produces cols D limit')
    (hlimit : limit' = none ∨ limit' = limit)
    : (RecordFetchExec.withLimit df plan limit).Produces cols D limit ∧
        (RecordFetchExec.withLimit df plan limit).schema = plan.schema := by
  have hschema := RecordFetchExec.withLimit_schema hdf plan limit
  refine ⟨?_, hschema⟩
  cases limit with
  | none =>
    have hnone : limit' = none := by simpa using hlimit
    rw [hnone] at h
    exact h
  | some n =>
    constructor
    . rw [hschema]
      exact h.columns
    . obtain ⟨rows, hrows⟩ := h.emits
      exact ⟨_, rows, hrows, rfl⟩
    . intro out hout row hrow
      obtain ⟨rows, hrows, rfl⟩ := hout
      rw [hschema]
      exact h.width rows hrows row (List.mem_of_mem_take hrow)
    . intro out hout
      obtain ⟨rows, hrows, rfl⟩ := hout
      rw [hschema, List.map_take]
      exact (h.keys rows hrows).take hlimit

namespace RecordFetchExec

include hdf hnodup in
theorem joinAll_produces (hcols : cols ≠ []) {pkSchema : Schema} {Ds : List (Set (Row V))}
    {plans : List (ExecutionPlan V)} {joined : ExecutionPlan V}
    (hleft : left.Produces cols D none) (hpk : pkSchema.columns = left.schema.columns)
    (hplans : List.Forall₂ (fun D plan => plan.Produces cols D none) Ds plans)
    (h : joinAll df pkSchema left plans = .ok joined)
    : joined.Produces cols (D ∩ {x | ∀ E ∈ Ds, x ∈ E}) none ∧
        joined.schema.columns = left.schema.columns := by
  induction hplans generalizing left D with
  | nil =>
    cases h
    simpa using hleft
  | @cons E right Ds plans hright hplans ih =>
    rw [joinAll_cons_eq_ok] at h
    obtain ⟨joinedOnce, hjoin, next, hproject, h⟩ := h
    obtain ⟨hnext, hcolumns⟩ := hleft.join hdf hnodup hcols hright hpk hjoin hproject
    have hall := ih hnext (hpk.trans hcolumns.symm) h
    rw [hcolumns] at hall
    have hsets : D ∩ {x | ∀ E' ∈ E :: Ds, x ∈ E'} = D ∩ E ∩ {x | ∀ E' ∈ Ds, x ∈ E'} := by
      ext x
      simp [and_assoc]
    rw [hsets]
    exact hall

include hdf hnodup in
theorem buildAnd_produces (hcols : cols ≠ []) {Ds : List (Set (Row V))}
    {plans : List (ExecutionPlan V)} (hplans : List.Forall₂ (fun D plan => plan.Produces cols D none) Ds plans)
    (h : buildAnd df limit plans = .ok plan)
    : plan.Produces cols {x | ∀ D ∈ Ds, x ∈ D} limit := by
  cases hplans with
  | nil => simp [buildAnd] at h
  | @cons D left Ds plans hleft hplans =>
    rw [buildAnd_eq_ok] at h
    obtain ⟨joined, hjoined, rfl⟩ := h
    obtain ⟨hjoined, -⟩ := joinAll_produces hdf hnodup hcols hleft rfl hplans hjoined
    have hsets : {x | ∀ D' ∈ D :: Ds, x ∈ D'} = D ∩ {x | ∀ D' ∈ Ds, x ∈ D'} := by
      ext x
      simp
    rw [hsets]
    exact (hjoined.withLimit hdf (.inl rfl)).1

include hdf hnodup in
theorem buildOr_produces (hcols : cols ≠ []) {unionMode : UnionMode} {Ds : List (Set (Row V))}
    {plans : List (ExecutionPlan V)} (hne : plans ≠ [])
    (hplans : List.Forall₂ (fun D plan => plan.Produces cols D limit) Ds plans)
    (h : buildOr df unionMode limit plans = .ok plan)
    : plan.Produces cols {x | ∃ D ∈ Ds, x ∈ D} limit := by
  match plans, hne with
  | first :: rest, _ =>
    rw [buildOr_eq_ok] at h
    obtain ⟨normalized, hnormalized, union, hunion, p, hp, rfl⟩ := h
    have hfirst : first.schema.columns.Perm cols := by
      obtain ⟨_, -, hfirst⟩ := Collect.forall₂_of_mem_right hplans (List.mem_cons_self)
      exact hfirst.columns
    have hinputs : List.Forall₂ (fun D plan =>
        plan.Produces cols D limit ∧ plan.schema.columns = first.schema.columns) Ds normalized := by
      apply Collect.forall₂_trans _ hplans hnormalized
      intro D plan projected hplan hproject
      exact hplan.projectToPkSchema hdf hnodup hfirst hproject
    match normalized, hnormalized, hunion, hinputs with
    | first' :: rest', _, hunion, hinputs =>
      obtain ⟨hdedup, -⟩ :=
        Produces.dedup hdf hnodup hcols hinputs (unionExec_concatenates hdf hunion) hp
      exact (hdedup.withLimit hdf (.inr rfl)).1

end RecordFetchExec

end

end IndexProvider
