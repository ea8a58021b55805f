import IndexProvider.Lemmas.Scan

/-!
This module relates the two union modes: which trees each of them accepts, and the schemas of the
plans they build.
-/

namespace IndexProvider

variable {V : Type}

def Schema.SameUpToOrder (schema schema' : Schema) : Prop :=
  schema.fields.Perm schema'.fields ∧ schema.metadata = schema'.metadata

namespace IndexFilter

variable (merge : Metadata → Metadata → Metadata)

mutual

/--
The schema of the keys of a tree: that of its leftmost leaf, with the metadata of the joins.
-/
def schema : IndexFilter V → Schema
  | .single index _ => index.indexSchema
  | .and filters =>
    match schemas filters with
    | [] => .empty
    | first :: rest =>
      ⟨first.fields, rest.foldl (fun metadata s => merge metadata s.metadata) first.metadata⟩
  | .or filters => (schemas filters).headD .empty

def schemas : List (IndexFilter V) → List Schema
  | [] => []
  | f :: fs => schema f :: schemas fs

end

mutual

/--
At every `Or`, the schemas of the children differ in the order of their fields at most.
-/
def Uniform : IndexFilter V → Prop
  | .single _ _ => True
  | .and filters => AllUniform filters
  | .or filters =>
    AllUniform filters ∧ ∀ s ∈ schemas merge filters, ∀ s' ∈ schemas merge filters, s.SameUpToOrder s'

def AllUniform : List (IndexFilter V) → Prop
  | [] => True
  | f :: fs => Uniform f ∧ AllUniform fs

end

variable {merge}

theorem schemas_eq_map (filters : List (IndexFilter V))
    : schemas merge filters = filters.map (schema merge) := by
  induction filters with
  | nil => rfl
  | cons f fs ih => simp [schemas, ih]

theorem allUniform_iff {filters : List (IndexFilter V)}
    : AllUniform merge filters ↔ ∀ f ∈ filters, f.Uniform merge := by
  induction filters with
  | nil => simp [AllUniform]
  | cons f fs ih => simp [AllUniform, ih]

def KeyColumns (cols : List (String × DataType)) (f : IndexFilter V) : Prop :=
  ∀ leaf ∈ f.leaves, leaf.1.indexSchema.columns.Perm cols

variable {cols : List (String × DataType)} {filters : List (IndexFilter V)} {f : IndexFilter V}

theorem KeyColumns.and (h : KeyColumns cols (.and filters)) (hf : f ∈ filters)
    : f.KeyColumns cols :=
  forall_allLeaves.mp h f hf

theorem KeyColumns.or (h : KeyColumns cols (.or filters)) (hf : f ∈ filters)
    : f.KeyColumns cols :=
  forall_allLeaves.mp h f hf

theorem schema_columns (merge : Metadata → Metadata → Metadata) (hf : f.NoEmptyNode) (h : f.KeyColumns cols)
    : (f.schema merge).columns.Perm cols := by
  induction f with
  | single index filter => exact h (index, filter) (by simp [leaves])
  | and filters ih =>
    cases filters with
    | nil => exact absurd rfl hf.1
    | cons first rest => exact ih first (by simp) hf.2.1 (h.and (by simp))
  | or filters ih =>
    cases filters with
    | nil => exact absurd rfl hf.1
    | cons first rest => exact ih first (by simp) hf.2.1 (h.or (by simp))

end IndexFilter

section

variable {df : DataFusion} (hdf : df.Schemas) {cols : List (String × DataType)}
  (hnodup : (cols.map Prod.fst).Nodup) {left plan : ExecutionPlan V}
  {plans : List (ExecutionPlan V)} {unionMode : UnionMode} {limit : Option Nat}

namespace RecordFetchExec

include hdf hnodup in
theorem joinAll_columns {pkSchema : Schema} {joined : ExecutionPlan V}
    (hleft : left.schema.columns.Perm cols) (hpk : pkSchema.columns = left.schema.columns)
    (h : joinAll df pkSchema left plans = .ok joined)
    : joined.schema.columns = left.schema.columns := by
  induction plans generalizing left with
  | nil =>
    cases h
    rfl
  | cons right plans ih =>
    rw [joinAll_cons_eq_ok] at h
    obtain ⟨joinedOnce, hjoin, next, hproject, h⟩ := h
    have hnext := projectToPkSchema_join_columns hdf (Schema.names_nodup hleft hnodup) hpk hjoin hproject
    rw [← hnext] at hleft hpk ⊢
    exact ih hleft hpk h

variable [DecidableEq V]

include hdf hnodup in
theorem buildOr_columns {first : ExecutionPlan V} {rest : List (ExecutionPlan V)}
    (hfirst : first.schema.columns.Perm cols)
    (h : buildOr df unionMode limit (first :: rest) = .ok plan)
    : plan.schema.columns = first.schema.columns := by
  rw [buildOr_eq_ok] at h
  obtain ⟨normalized, hnormalized, union, hunion, p, hp, rfl⟩ := h
  cases hnormalized with
  | cons hproject hnormalized =>
    have hfirst' := projectToPkSchema_columns hdf hnodup hfirst hfirst hproject
    have hcolumns : union.schema.columns = first.schema.columns :=
      (unionExec_concatenates hdf hunion).columns.trans hfirst'
    have hschema : p.schema = union.schema :=
      aggregate_schema hdf (Schema.names_nodup hfirst hnodup) (Schema.names_of_columns hcolumns) hp
    rw [withLimit_schema hdf]
    change p.schema.columns = first.schema.columns
    rw [hschema]
    exact hcolumns

include hdf hnodup in
/--
The plan of a tree has the columns of its leftmost leaf, in their order.
-/
theorem buildScanExec_columns {f : IndexFilter V} (hf : f.NoEmptyNode) (hcolumns : f.KeyColumns cols)
    (h : buildScanExec df unionMode f limit = .ok plan)
    : ∃ leaf, f.leaves.head? = some leaf ∧ plan.schema.columns = leaf.1.indexSchema.columns := by
  have hleaf : ∀ {f : IndexFilter V} {leaf}, f.KeyColumns cols → f.leaves.head? = some leaf →
      leaf.1.indexSchema.columns.Perm cols := fun hcolumns hleaf =>
    hcolumns _ (List.mem_of_head? hleaf)
  induction f generalizing limit plan with
  | single index filter =>
    rw [buildScanExec_single] at h
    cases h
    exact ⟨(index, filter), rfl, rfl⟩
  | and filters ih =>
    rw [buildScanExec_and_eq_ok] at h
    obtain ⟨plans, hplans, h⟩ := h
    cases hplans with
    | nil => cases h
    | @cons first left rest plans hfirst hplans =>
      have hfirstcolumns := hcolumns.and List.mem_cons_self
      obtain ⟨leaf, hhead, hleft⟩ := ih first List.mem_cons_self hf.2.1 hfirstcolumns hfirst
      have hperm : left.schema.columns.Perm cols := by
        rw [hleft]
        exact hleaf hfirstcolumns hhead
      rw [buildAnd_eq_ok] at h
      obtain ⟨joined, hjoined, rfl⟩ := h
      refine ⟨leaf, IndexFilter.allLeaves_head? hhead, ?_⟩
      rw [withLimit_schema hdf, joinAll_columns hdf hnodup hperm rfl hjoined]
      exact hleft
  | or filters ih =>
    rw [buildScanExec_or_eq_ok] at h
    obtain ⟨plans, hplans, h⟩ := h
    cases hplans with
    | nil => exact absurd rfl hf.1
    | @cons first left rest plans hfirst hplans =>
      have hfirstcolumns := hcolumns.or List.mem_cons_self
      obtain ⟨leaf, hhead, hleft⟩ := ih first List.mem_cons_self hf.2.1 hfirstcolumns hfirst
      have hperm : left.schema.columns.Perm cols := by
        rw [hleft]
        exact hleaf hfirstcolumns hhead
      exact ⟨leaf, IndexFilter.allLeaves_head? hhead, (buildOr_columns hdf hnodup hperm h).trans hleft⟩

end RecordFetchExec

end

section

variable {df : DataFusion} (hdf : df.Schemas) {merge : Metadata → Metadata → Metadata}
  (hmerge : df.JoinMetadata merge) {limit : Option Nat} {plan left right : ExecutionPlan V}

include hdf hmerge in
theorem tryCreateIndexLookupJoin_schema {joined : ExecutionPlan V}
    (h : tryCreateIndexLookupJoin df left right = .ok joined)
    : joined.schema
        =
      ⟨left.schema.fields ++ right.schema.fields,
        merge left.schema.metadata right.schema.metadata⟩ := by
  have hfields := tryCreateIndexLookupJoin_fields hdf h
  rw [tryCreateIndexLookupJoin_eq_ok] at h
  obtain ⟨on, -, h⟩ := h
  split at h
  . obtain ⟨p, hp, rfl⟩ := h
    exact congrArg₂ Schema.mk hfields (hmerge.sortMergeJoin _ _ _ _ _ hp)
  . obtain ⟨p, hp, rfl⟩ := h
    exact congrArg₂ Schema.mk hfields (hmerge.hashJoin _ _ _ _ hp)

namespace RecordFetchExec

include hdf hmerge in
theorem joinAll_schema {pkSchema : Schema} {plans : List (ExecutionPlan V)}
    {joined : ExecutionPlan V} (hleft : left.schema.names.Nodup)
    (hpk : pkSchema.names = left.schema.names)
    (h : joinAll df pkSchema left plans = .ok joined)
    : joined.schema
        =
      ⟨left.schema.fields,
        (plans.map ExecutionPlan.schema).foldl (fun metadata s => merge metadata s.metadata)
          left.schema.metadata⟩ := by
  induction plans generalizing left with
  | nil =>
    cases h
    rfl
  | cons right plans ih =>
    rw [joinAll_cons_eq_ok] at h
    obtain ⟨joinedOnce, hjoin, next, hproject, h⟩ := h
    have hpknodup : pkSchema.names.Nodup := by
      rw [hpk]
      exact hleft
    have hjoined := tryCreateIndexLookupJoin_schema hdf hmerge hjoin
    -- The projection keeps the fields of the left side, and the metadata that the join merged.
    have hnext : next.schema
        = ⟨left.schema.fields, merge left.schema.metadata right.schema.metadata⟩ := by
      rw [projectToPkSchema_schema hdf hpknodup hproject, hpk,
        Schema.reorder_append_left (congrArg Schema.fields hjoined) hleft, hjoined]
    have hnames : next.schema.names = left.schema.names := by simp only [Schema.names, hnext]
    rw [← hnames] at hleft hpk
    rw [ih hleft hpk h, hnext]
    rfl

include hdf hmerge in
theorem buildAnd_schema {plans : List (ExecutionPlan V)} (hleft : left.schema.names.Nodup)
    (h : buildAnd df limit (left :: plans) = .ok plan)
    : plan.schema
        =
      ⟨left.schema.fields,
        (plans.map ExecutionPlan.schema).foldl (fun metadata s => merge metadata s.metadata)
          left.schema.metadata⟩ := by
  rw [buildAnd_eq_ok] at h
  obtain ⟨joined, hjoined, rfl⟩ := h
  rw [withLimit_schema hdf, joinAll_schema hdf hmerge hleft rfl hjoined]

variable {cols : List (String × DataType)} (hnodup : (cols.map Prod.fst).Nodup)

include hdf hnodup in
theorem projectToPkSchema_schema_eq_iff {schema : Schema} {projected : ExecutionPlan V}
    (hplan : plan.schema.columns.Perm cols) (hschema : schema.columns.Perm cols)
    (h : projectToPkSchema df plan schema = .ok projected)
    : projected.schema = schema ↔ plan.schema.SameUpToOrder schema := by
  have hschemanodup : schema.names.Nodup := Schema.names_nodup hschema hnodup
  have hplannodup : plan.schema.names.Nodup := Schema.names_nodup hplan hnodup
  have hnames : schema.names.Perm plan.schema.names :=
    (Schema.names_perm hschema).trans (Schema.names_perm hplan).symm
  have hperm : (plan.schema.reorder schema.names).Perm plan.schema.fields := by
    rw [← Schema.reorder_self hplannodup]
    exact hnames.filterMap _
  rw [projectToPkSchema_schema hdf hschemanodup h]
  unfold Schema.SameUpToOrder
  constructor
  . intro heq
    rw [← heq]
    exact ⟨hperm.symm, rfl⟩
  . intro hsame
    obtain ⟨hfields, hmetadata⟩ := hsame
    have hreorder : plan.schema.reorder schema.names = schema.fields := by
      rw [← Schema.reorder_self hschemanodup]
      simp only [Schema.reorder, Schema.field?_perm hplannodup hschemanodup hfields]
    rw [hreorder, hmetadata]

include hdf hnodup in
theorem buildOr_sequential_schema {first : ExecutionPlan V} {rest : List (ExecutionPlan V)}
    (hplans : ∀ plan ∈ first :: rest, plan.schema.columns.Perm cols)
    (h : buildOr df .sequential limit (first :: rest) = .ok plan)
    : plan.schema = first.schema ∧ ∀ plan ∈ rest, plan.schema.SameUpToOrder first.schema := by
  rw [buildOr_eq_ok] at h
  obtain ⟨normalized, hnormalized, union, hunion, p, hp, rfl⟩ := h
  have hfirst := hplans first (by simp)
  have hfirstnodup : first.schema.names.Nodup := Schema.names_nodup hfirst hnodup
  cases hnormalized with
  | @cons _ first' _ rest' hfirst' hrest' =>
    obtain ⟨hcheck, eq, -, rfl⟩ := SequentialUnionExec.tryNew_eq_ok.mp hunion
    have hcanonical : first'.schema = first.schema := by
      rw [projectToPkSchema_schema_eq_iff hdf hnodup hfirst hfirst hfirst']
      exact ⟨.refl _, rfl⟩
    have hunionnames : (ExecutionPlan.sequentialUnion (.new df first'.schema eq 1)
        (first' :: rest')).schema.names = first.schema.names := congrArg Schema.names hcanonical
    constructor
    . rw [withLimit_schema hdf]
      exact (aggregate_schema hdf hfirstnodup hunionnames hp).trans hcanonical
    . intro plan hplan
      obtain ⟨projected, hmem, hproject⟩ := Collect.forall₂_of_mem_left hrest' hplan
      rw [← projectToPkSchema_schema_eq_iff hdf hnodup (hplans plan (by simp [hplan])) hfirst hproject,
        hcheck projected hmem, hcanonical]

theorem schemas_of_forall₂ (merge : Metadata → Metadata → Metadata) {filters : List (IndexFilter V)} {plans : List (ExecutionPlan V)}
    (h : List.Forall₂ (fun f plan => plan.schema = f.schema merge) filters plans)
    : plans.map ExecutionPlan.schema = IndexFilter.schemas merge filters := by
  induction h with
  | nil => rfl
  | cons hhead _ ih => rw [List.map_cons, ih, hhead, IndexFilter.schemas]

theorem columns_of_forall₂ {filters : List (IndexFilter V)} {plans : List (ExecutionPlan V)}
    (hf : IndexFilter.NoEmptyNodes filters) (hcols : ∀ f ∈ filters, f.KeyColumns cols)
    (h : List.Forall₂ (fun f plan => plan.schema = f.schema merge) filters plans)
    : ∀ plan ∈ plans, plan.schema.columns.Perm cols := by
  intro plan hplan
  obtain ⟨child, hchild, hschema⟩ := Collect.forall₂_of_mem_right h hplan
  rw [hschema]
  exact IndexFilter.schema_columns merge (IndexFilter.noEmptyNodes_iff.mp hf child hchild)
    (hcols child hchild)

include hdf hmerge hnodup in
theorem buildAnd_uniform {filters : List (IndexFilter V)} {plans : List (ExecutionPlan V)}
    (hf : (IndexFilter.and filters).NoEmptyNode) (hcols : (IndexFilter.and filters).KeyColumns cols)
    (hschemas : plans.map ExecutionPlan.schema = IndexFilter.schemas merge filters)
    (h : buildAnd df limit plans = .ok plan)
    : plan.schema = (IndexFilter.and filters).schema merge := by
  cases filters with
  | nil => exact absurd rfl hf.1
  | cons first rest =>
    cases plans with
    | nil => cases hschemas
    | cons left plans =>
      simp only [List.map_cons, IndexFilter.schemas, List.cons.injEq] at hschemas
      have hleft : left.schema.names.Nodup := by
        rw [hschemas.1]
        have hcolumns := IndexFilter.schema_columns merge hf.2.1 (hcols.and (by simp))
        exact Schema.names_nodup hcolumns hnodup
      rw [buildAnd_schema hdf hmerge hleft h, hschemas.1, hschemas.2]
      rfl

include hdf hmerge hnodup in
theorem buildScanExec_sequential {f : IndexFilter V} (hf : f.NoEmptyNode) (hcols : f.KeyColumns cols)
    (h : buildScanExec df .sequential f limit = .ok plan)
    : f.Uniform merge ∧ plan.schema = f.schema merge := by
  induction f generalizing limit plan with
  | single index filter =>
    rw [buildScanExec_single] at h
    cases h
    exact ⟨trivial, rfl⟩
  | and filters ih =>
    rw [buildScanExec_and_eq_ok] at h
    obtain ⟨plans, hplans, h⟩ := h
    have hchildren : List.Forall₂ (fun f plan => f.Uniform merge ∧ plan.schema = f.schema merge)
        filters plans := by
      apply Collect.forall₂_imp_of_mem hplans
      intro child hchild plan hplan
      exact ih child hchild (IndexFilter.noEmptyNodes_iff.mp hf.2 child hchild) (hcols.and hchild) hplan
    obtain ⟨huniform, hchildren⟩ := (List.forall₂_and_left filters plans).mp hchildren
    have hschemas := schemas_of_forall₂ merge hchildren
    refine ⟨IndexFilter.allUniform_iff.mpr huniform, ?_⟩
    exact buildAnd_uniform hdf hmerge hnodup hf hcols hschemas h
  | or filters ih =>
    rw [buildScanExec_or_eq_ok] at h
    obtain ⟨plans, hplans, h⟩ := h
    have hchildren : List.Forall₂ (fun f plan => f.Uniform merge ∧ plan.schema = f.schema merge)
        filters plans := by
      apply Collect.forall₂_imp_of_mem hplans
      intro child hchild plan hplan
      exact ih child hchild (IndexFilter.noEmptyNodes_iff.mp hf.2 child hchild) (hcols.or hchild) hplan
    obtain ⟨huniform, hchildren⟩ := (List.forall₂_and_left filters plans).mp hchildren
    have hschemas := schemas_of_forall₂ merge hchildren
    have hcolumns := columns_of_forall₂ hf.2 (fun _ hchild => hcols.or hchild) hchildren
    cases hplans with
    | nil => exact absurd rfl hf.1
    | @cons first left rest plans _ _ =>
      obtain ⟨hschema, hsame⟩ := buildOr_sequential_schema hdf hnodup hcolumns h
      refine ⟨⟨IndexFilter.allUniform_iff.mpr huniform, ?_⟩, ?_⟩
      . rw [← hschemas]
        have hall : ∀ s ∈ (left :: plans).map ExecutionPlan.schema, s.SameUpToOrder left.schema := by
          intro s hs
          obtain ⟨plan, hplan, rfl⟩ := List.mem_map.mp hs
          cases hplan with
          | head => exact ⟨.refl _, rfl⟩
          | tail _ hplan => exact hsame plan hplan
        intro s hs s' hs'
        obtain ⟨hperm, hmetadata⟩ := hall s hs
        obtain ⟨hperm', hmetadata'⟩ := hall s' hs'
        exact ⟨hperm.trans hperm'.symm, hmetadata.trans hmetadata'.symm⟩
      . rw [hschema]
        simp only [IndexFilter.schema, ← hschemas]
        rfl

end RecordFetchExec

end

end IndexProvider
