import IndexProvider.Lemmas.Reference

/-!
This module contains the trees the union modes accept: Parallel mode builds every tree whose ordered
indexes list their columns in one order, and Sequential mode builds what Parallel mode builds, as far
as it is uniform.
-/

namespace IndexProvider

variable {V : Type}

def IndexFilter.OrderedBy (names : List String) (f : IndexFilter V) : Prop :=
  ∀ leaf ∈ f.leaves, leaf.1.isOrdered = true → leaf.1.indexSchema.names = names

/--
A plan over the key columns that advertises no ordering but by all of them.
-/
structure ExecutionPlan.Ready (cols : List (String × DataType)) (names : List String)
    (plan : ExecutionPlan V) : Prop where
  columns : plan.schema.columns.Perm cols
  keyed : plan.properties.Keyed names

section

variable {df : DataFusion} (hdf : df.Schemas) (hheaders : df.Headers) (horderings : df.KeyOrderings)
  {cols : List (String × DataType)} (hcols : cols ≠ []) (hnodup : (cols.map Prod.fst).Nodup)
  {names : List String} (hnames : names.Perm (cols.map Prod.fst))
  {limit : Option Nat} {plan left right : ExecutionPlan V}

theorem joinPairs_valid {left right : Schema} (hcols : cols ≠ [])
    (hnodup : (cols.map Prod.fst).Nodup) (hleft : left.columns.Perm cols)
    (hright : right.columns.Perm cols)
    : (joinPairs left.names left right).Valid left right := by
  have hleftnodup : left.names.Nodup := Schema.names_nodup hleft hnodup
  have hrightnodup : right.names.Nodup := Schema.names_nodup hright hnodup
  have hsubset : left.names ⊆ right.names :=
    ((Schema.names_perm hleft).trans (Schema.names_perm hright).symm).subset
  constructor
  . intro hnil
    have hlength := hleft.length_eq
    rw [joinPairs, List.map_eq_nil_iff, Schema.names, List.map_eq_nil_iff] at hnil
    simp only [Schema.columns, hnil, List.map_nil, List.length_nil] at hlength
    exact hcols (List.length_eq_zero_iff.mp hlength.symm)
  . intro p hp
    obtain ⟨name, hname, rfl⟩ := List.mem_map.mp hp
    exact refersTo_idxOf hname
  . intro p hp
    obtain ⟨name, hname, rfl⟩ := List.mem_map.mp hp
    exact refersTo_idxOf (hsubset hname)
  . intro p hp
    obtain ⟨name, hname, rfl⟩ := List.mem_map.mp hp
    rw [Schema.names_eq_columns] at hname
    obtain ⟨⟨_, type⟩, hcolumn, rfl⟩ := List.mem_map.mp hname
    obtain ⟨field, -, hfield, -, htype⟩ := Schema.field?_of_columns hleftnodup hcolumn
    obtain ⟨field', -, hfield', -, htype'⟩ :=
      Schema.field?_of_columns hrightnodup ((hleft.trans hright.symm).subset hcolumn)
    simp only [Schema.getElem?_idxOf, hfield, hfield', Option.map_some, htype, htype']

include horderings hnodup in
theorem IndexScanExec.tryNew_ready {index : Index V} {filters : List Expr}
    (hindex : index.indexSchema.columns.Perm cols)
    (hordered : index.isOrdered = true → index.indexSchema.names = names)
    (h : IndexScanExec.tryNew df index filters limit index.indexSchema = .ok plan)
    : plan.Ready cols names := by
  have hindexnodup : index.indexSchema.names.Nodup :=
    Schema.names_nodup hindex hnodup
  have hkeyed : ∀ o ∈ plan.properties.eqProperties.orderings,
      o = index.indexSchema.ordering names := by
    cases h
    intro o ho
    obtain ⟨hmem, hne⟩ := horderings.newWithOrderings _ _ o ho
    rw [List.mem_singleton] at hmem
    cases hisOrdered : index.isOrdered with
    | false =>
      simp only [hisOrdered, Bool.false_eq_true, if_false] at hmem
      exact absurd hmem hne
    | true =>
      simp only [hisOrdered, if_true] at hmem
      rw [hmem, ← hordered hisOrdered]
      exact zipIdx_map_idxOf Field.name (fun name i => PhysicalSortExpr.asc ⟨name, i⟩) hindexnodup
  cases h
  exact ⟨hindex, hkeyed, horderings.outputOrdering _ _ hkeyed⟩

namespace RecordFetchExec

include hdf horderings hnodup in
theorem projectToPkSchema_ready {pkSchema : Schema} (hkeys : names ⊆ cols.map Prod.fst)
    (hplan : plan.Ready cols names) (hpk : pkSchema.columns.Perm cols)
    : ∃ projected, projectToPkSchema df plan pkSchema = .ok projected ∧
        projected.Ready cols names ∧ projected.schema.columns = pkSchema.columns := by
  have hsubset : pkSchema.names ⊆ plan.schema.names :=
    ((Schema.names_perm hpk).trans (Schema.names_perm hplan.columns).symm).subset
  by_cases hfields : plan.schema.fields = pkSchema.fields
  . refine ⟨plan, ?_, hplan, ?_⟩
    . rw [projectToPkSchema_eq_ok, if_pos hfields]
    . simp only [Schema.columns, hfields]
  . obtain ⟨p, hp⟩ := hdf.projection_ok _ plan.properties (selectExprs_refersTo hsubset)
    have hproject : projectToPkSchema df plan pkSchema
        = .ok (.projection p (selectExprs pkSchema.names plan.schema) plan) := by
      rw [projectToPkSchema_eq_ok, if_neg hfields]
      exact ⟨hsubset, p, hp, rfl⟩
    have hcolumns := projectToPkSchema_columns hdf hnodup hplan.columns hpk hproject
    have hkeyed : p.Keyed names :=
      horderings.projection names _ _ _ hp hsubset
        (List.Subset.trans hkeys (Schema.names_perm hpk).symm.subset) hplan.keyed
    refine ⟨_, hproject, ⟨?_, hkeyed⟩, hcolumns⟩
    rw [hcolumns]
    exact hpk

include hdf horderings hcols hnodup hnames in
theorem join_ready {pkSchema : Schema} (hleft : left.Ready cols names)
    (hright : right.Ready cols names) (hpk : pkSchema.columns = left.schema.columns)
    : ∃ joined, tryCreateIndexLookupJoin df left right = .ok joined ∧
        ∃ next, projectToPkSchema df joined pkSchema = .ok next ∧ next.Ready cols names ∧
          next.schema.columns = left.schema.columns := by
  have hleftnodup : left.schema.names.Nodup :=
    Schema.names_nodup hleft.columns hnodup
  have hpknames : pkSchema.names = left.schema.names := Schema.names_of_columns hpk
  have hsubset : left.schema.names ⊆ right.schema.names :=
    ((Schema.names_perm hleft.columns).trans (Schema.names_perm hright.columns).symm).subset
  have hvalid := joinPairs_valid hcols hnodup hleft.columns hright.columns
  have hon : joinOn left.schema right.schema
      = .ok (joinPairs left.schema.names left.schema right.schema) :=
    (joinOn_eq_ok_iff hleftnodup).mpr ⟨hsubset, rfl⟩
  obtain ⟨joined, hjoined, hjoin⟩ : ∃ joined, tryCreateIndexLookupJoin df left right = .ok joined ∧
      (df.hashJoin left.properties right.properties
            (joinPairs left.schema.names left.schema right.schema) = .ok joined.properties ∨
        ∃ options, df.sortMergeJoin left.properties right.properties
          (joinPairs left.schema.names left.schema right.schema) options
            = .ok joined.properties) := by
    simp only [tryCreateIndexLookupJoin_eq_ok]
    cases hsorted : bothSorted left right with
    | none =>
      obtain ⟨p, hp⟩ := hdf.hashJoin_ok _ _ _ hvalid
      exact ⟨_, ⟨_, hon, p, hp, rfl⟩, .inl hp⟩
    | some options =>
      obtain ⟨o, hleftordering, -, hoptions⟩ := bothSorted_eq_some.mp hsorted
      have hlength : options.length
          = (joinPairs left.schema.names left.schema right.schema).length := by
        have hperm := ((Schema.names_perm hleft.columns).trans hnames.symm).length_eq
        rw [hoptions, hleft.keyed.outputOrdering o hleftordering]
        simp only [Schema.ordering, joinPairs, List.length_map, hperm]
      obtain ⟨p, hp⟩ := hdf.sortMergeJoin_ok _ _ _ _ hvalid hlength
      exact ⟨_, ⟨_, hon, p, hp, rfl⟩, .inr ⟨options, hp⟩⟩
  have hfields := tryCreateIndexLookupJoin_fields hdf hjoined
  have hjoinednames : pkSchema.names ⊆ joined.schema.names := by
    rw [hpknames, Schema.names, Schema.names, hfields, List.map_append]
    exact List.subset_append_left _ _
  obtain ⟨p, hp⟩ := hdf.projection_ok _ joined.properties (selectExprs_refersTo hjoinednames)
  have hproject : projectToPkSchema df joined pkSchema
      = .ok (.projection p (selectExprs pkSchema.names joined.schema) joined) := by
    rw [projectToPkSchema_eq_ok,
      if_neg (tryCreateIndexLookupJoin_projects hdf hcols hright.columns hpk hjoined)]
    exact ⟨hjoinednames, p, hp, rfl⟩
  have hpknodup : pkSchema.names.Nodup := by
    rw [hpknames]
    exact hleftnodup
  have hcolumns : (ExecutionPlan.projection p (selectExprs pkSchema.names joined.schema)
      joined).schema.columns = left.schema.columns := by
    rw [projectToPkSchema_schema hdf hpknodup hproject, hpknames,
      Schema.reorder_append_left hfields hleftnodup]
    rfl
  have hpkeyed : p.Keyed names := by
    rw [hpknames] at hp
    exact horderings.joinProjection names _ _ _ _ hjoin hp
      (hnames.trans (Schema.names_perm hleft.columns).symm).subset hleft.keyed hright.keyed
  refine ⟨joined, hjoined, _, hproject, ⟨?_, hpkeyed⟩, hcolumns⟩
  rw [hcolumns]
  exact hleft.columns

include horderings hdf in
theorem withLimit_ready (hplan : plan.Ready cols names)
    : (withLimit df plan limit).Ready cols names := by
  cases limit with
  | none => exact hplan
  | some n =>
    constructor
    . change (df.localLimit plan.properties n).schema.columns.Perm cols
      rw [hdf.localLimit_schema]
      exact hplan.columns
    . exact horderings.localLimit _ _ _ hplan.keyed

include hdf horderings hcols hnodup hnames in
theorem joinAll_ready {pkSchema : Schema} {plans : List (ExecutionPlan V)}
    (hleft : left.Ready cols names) (hplans : ∀ plan ∈ plans, plan.Ready cols names)
    (hpk : pkSchema.columns = left.schema.columns)
    : ∃ joined, joinAll df pkSchema left plans = .ok joined ∧ joined.Ready cols names := by
  induction plans generalizing left with
  | nil => exact ⟨left, rfl, hleft⟩
  | cons right plans ih =>
    obtain ⟨joinedOnce, hjoin, next, hproject, hnext, hcolumns⟩ :=
      join_ready hdf horderings hcols hnodup hnames hleft (hplans right (by simp)) hpk
    obtain ⟨joined, hjoined, hready⟩ := ih hnext (fun plan hplan => hplans plan (by simp [hplan]))
      (hpk.trans hcolumns.symm)
    exact ⟨joined, joinAll_cons_eq_ok.mpr ⟨_, hjoin, _, hproject, hjoined⟩, hready⟩

include hdf horderings hcols hnodup hnames in
theorem buildAnd_ready {plans : List (ExecutionPlan V)} (hne : plans ≠ [])
    (hplans : ∀ plan ∈ plans, plan.Ready cols names)
    : ∃ plan, buildAnd df limit plans = .ok plan ∧ plan.Ready cols names := by
  cases plans with
  | nil => exact absurd rfl hne
  | cons left plans =>
    have hrest : ∀ plan ∈ plans, plan.Ready cols names := by
      intro plan hplan
      exact hplans plan (List.mem_cons_of_mem _ hplan)
    obtain ⟨joined, hjoined, hready⟩ := joinAll_ready hdf horderings hcols hnodup hnames
      (hplans left (by simp)) hrest rfl
    exact ⟨_, buildAnd_eq_ok.mpr ⟨joined, hjoined, rfl⟩, withLimit_ready hdf horderings hready⟩

include hdf hheaders horderings in
theorem unionExec_parallel_ready {first : ExecutionPlan V} {rest : List (ExecutionPlan V)}
    (hplans : ∀ plan ∈ first :: rest, plan.Ready cols names)
    (hsame : ∀ plan ∈ rest, plan.schema.columns = first.schema.columns)
    : ∃ union, unionExec df .parallel (first :: rest) = .ok union ∧ union.properties.Keyed names ∧
        union.schema.columns = first.schema.columns := by
  have hlength : ∀ p ∈ rest.map ExecutionPlan.properties,
      p.schema.fields.length = first.properties.schema.fields.length := by
    intro p hp
    obtain ⟨plan, hplan, rfl⟩ := List.mem_map.mp hp
    have hlengths := congrArg List.length (hsame plan hplan)
    simp only [Schema.columns, List.length_map] at hlengths
    exact hlengths
  by_cases hrest : rest = []
  . refine ⟨first, ?_, (hplans first (by simp)).keyed, rfl⟩
    rw [unionExec, UnionExec.tryNew_eq_ok, if_pos hrest]
  obtain ⟨second, others, rfl⟩ := List.exists_cons_of_ne_nil hrest
  obtain ⟨u, hu⟩ := hdf.union_ok first.properties _ hlength
  obtain ⟨heq, hordering⟩ := hheaders.union _ _ _ _ hu
  have hucolumns : u.schema.columns = first.schema.columns := hdf.union_schema _ _ _ hu
  have hordering_eq : ∀ plan ∈ first :: second :: others,
      plan.schema.ordering names = u.schema.ordering names := by
    intro plan hplan
    have hplannames : plan.schema.names = u.schema.names := by
      apply Schema.names_of_columns
      rw [hucolumns]
      cases hplan with
      | head => rfl
      | tail _ hplan => exact hsame plan hplan
    rw [Schema.ordering, Schema.ordering, hplannames]
  have hkeyed : ∀ o ∈ u.eqProperties.orderings, o = u.schema.ordering names := by
    apply horderings.calculateUnion _ _ _ _ heq
    intro eq heq o ho
    obtain ⟨p, hp, rfl⟩ := List.mem_map.mp heq
    have hp' : p ∈ (first :: second :: others).map ExecutionPlan.properties := hp
    obtain ⟨plan, hplan, rfl⟩ := List.mem_map.mp hp'
    rw [← hordering_eq plan hplan]
    exact (hplans plan hplan).keyed.orderings o ho
  refine ⟨.union u (first :: second :: others), ?_, ⟨hkeyed, ?_⟩, hucolumns⟩
  . rw [unionExec, UnionExec.tryNew_eq_ok, if_neg hrest]
    exact ⟨u, hu, rfl⟩
  . change ∀ o, u.outputOrdering = some o → o = u.schema.ordering names
    rw [hordering]
    exact horderings.outputOrdering _ _ hkeyed

include hdf horderings hnodup in
theorem aggregate_keyed {schema : Schema} {union : ExecutionPlan V} {p : PlanProperties}
    (hkeys : names ⊆ cols.map Prod.fst) (hschema : schema.columns.Perm cols)
    (hcolumns : union.schema.columns = schema.columns) (hunion : union.properties.Keyed names)
    (hp : df.aggregate (groupExprs schema) union.properties schema = .ok p)
    : p.schema.columns = schema.columns ∧ p.Keyed names := by
  have hschemanodup : schema.names.Nodup := Schema.names_nodup hschema hnodup
  have hunionnames : union.schema.names = schema.names := Schema.names_of_columns hcolumns
  constructor
  . rw [aggregate_schema hdf hschemanodup hunionnames hp]
    exact hcolumns
  . rw [groupExprs_eq_selectExprs hschemanodup hunionnames] at hp
    apply horderings.aggregate names _ _ _ hp _ hunion
    change names ⊆ union.schema.names
    rw [hunionnames]
    exact List.Subset.trans hkeys (Schema.names_perm hschema).symm.subset

include hdf horderings hnodup in
theorem aggregate_ready {schema : Schema} {union : ExecutionPlan V}
    (hkeys : names ⊆ cols.map Prod.fst) (hschema : schema.columns.Perm cols)
    (hcolumns : union.schema.columns = schema.columns) (hunion : union.properties.Keyed names)
    : ∃ p, df.aggregate (groupExprs schema) union.properties schema = .ok p ∧
        p.schema.columns = schema.columns ∧ p.Keyed names := by
  have hrefers : ∀ e ∈ groupExprs schema, e.1.RefersTo union.schema := by
    rw [groupExprs_eq_selectExprs (Schema.names_nodup hschema hnodup) (Schema.names_of_columns hcolumns)]
    exact selectExprs_refersTo (List.Subset.refl _)
  obtain ⟨p, hp⟩ := hdf.aggregate_ok _ union.properties schema hrefers
  exact ⟨p, hp, aggregate_keyed hdf horderings hnodup hkeys hschema hcolumns hunion hp⟩

include hdf hheaders horderings hnodup hnames in
theorem buildOr_parallel_ready {plans : List (ExecutionPlan V)} (hne : plans ≠ [])
    (hplans : ∀ plan ∈ plans, plan.Ready cols names)
    : ∃ plan, buildOr df .parallel limit plans = .ok plan ∧ plan.Ready cols names := by
  cases plans with
  | nil => exact absurd rfl hne
  | cons first rest =>
    have hfirst := (hplans first (by simp)).columns
    have hproject : ∀ plan ∈ first :: rest, ∃ projected,
        projectToPkSchema df plan first.schema = .ok projected ∧ projected.Ready cols names ∧
          projected.schema.columns = first.schema.columns := by
      intro plan hplan
      exact projectToPkSchema_ready hdf horderings hnodup hnames.subset (hplans plan hplan) hfirst
    obtain ⟨normalized, hnormalized, hready⟩ := Collect.exists_forall₂_and hproject
    have hoks := hnormalized
    cases hnormalized with
    | @cons _ head _ tail _ _ =>
      have hhead := (hready head (by simp)).2
      have hsame : ∀ plan ∈ tail, plan.schema.columns = head.schema.columns := by
        intro plan hplan
        rw [(hready plan (by simp [hplan])).2, hhead]
      obtain ⟨union, hunion, hkeyed, hcolumns⟩ :=
        unionExec_parallel_ready hdf hheaders horderings (fun plan hplan => (hready plan hplan).1) hsame
      obtain ⟨p, hp, hpcolumns, hpkeyed⟩ :=
        aggregate_ready hdf horderings hnodup hnames.subset hfirst (hcolumns.trans hhead) hkeyed
      refine ⟨_, buildOr_eq_ok.mpr ⟨_, hoks, union, hunion, p, hp, rfl⟩, ?_⟩
      apply withLimit_ready hdf horderings
      constructor
      . change p.schema.columns.Perm cols
        rw [hpcolumns]
        exact hfirst
      . exact hpkeyed

include hdf hheaders horderings hcols hnodup hnames in
theorem buildScanExec_parallel_ready {f : IndexFilter V} (limit : Option Nat) (hf : f.NoEmptyNode)
    (hcolumns : f.KeyColumns cols) (hordered : f.OrderedBy names)
    : ∃ plan, buildScanExec df .parallel f limit = .ok plan ∧ plan.Ready cols names := by
  induction f generalizing limit with
  | single index filter =>
    simp only [buildScanExec_single]
    refine ⟨_, rfl, ?_⟩
    apply IndexScanExec.tryNew_ready horderings hnodup (hcolumns (index, filter) (by simp [IndexFilter.leaves]))
      (hordered (index, filter) (by simp [IndexFilter.leaves])) rfl
  | and filters ih =>
    have hchild : ∀ child ∈ filters, ∃ plan, buildScanExec df .parallel child none = .ok plan ∧
        plan.Ready cols names := by
      intro child hchild
      exact ih child hchild none (IndexFilter.noEmptyNodes_iff.mp hf.2 child hchild)
        (hcolumns.and hchild) (IndexFilter.forall_allLeaves.mp hordered child hchild)
    obtain ⟨plans, hplans, hready⟩ := Collect.exists_forall₂_and hchild
    have hne := Collect.forall₂_ne_nil hplans hf.1
    obtain ⟨plan, hplan, hready⟩ := buildAnd_ready hdf horderings hcols hnodup hnames hne hready
    exact ⟨plan, buildScanExec_and_eq_ok.mpr ⟨plans, hplans, hplan⟩, hready⟩
  | or filters ih =>
    have hchild : ∀ child ∈ filters, ∃ plan, buildScanExec df .parallel child limit = .ok plan ∧
        plan.Ready cols names := by
      intro child hchild
      exact ih child hchild limit (IndexFilter.noEmptyNodes_iff.mp hf.2 child hchild)
        (hcolumns.or hchild) (IndexFilter.forall_allLeaves.mp hordered child hchild)
    obtain ⟨plans, hplans, hready⟩ := Collect.exists_forall₂_and hchild
    have hne := Collect.forall₂_ne_nil hplans hf.1
    obtain ⟨plan, hplan, hready⟩ :=
      buildOr_parallel_ready hdf hheaders horderings hnodup hnames hne hready
    exact ⟨plan, buildScanExec_or_eq_ok.mpr ⟨plans, hplans, hplan⟩, hready⟩

end RecordFetchExec

def IndexFilter.Accepted (df : DataFusion) (unionMode : UnionMode) (limit : Option Nat)
    (f : IndexFilter V) : Prop :=
  ∃ plan, RecordFetchExec.buildScanExec df unionMode f limit = .ok plan

variable {merge : Metadata → Metadata → Metadata} (hmerge : df.JoinMetadata merge)

include hdf hheaders hmerge hnodup in
theorem IndexFilter.accepted_sequential_iff {f : IndexFilter V} (limit : Option Nat) (hf : f.NoEmptyNode)
    (hcolumns : f.KeyColumns cols)
    : f.Accepted df .sequential limit ↔ f.Accepted df .parallel limit ∧ f.Uniform merge := by
  constructor
  . intro h
    obtain ⟨plan, hplan⟩ := h
    obtain ⟨huniform, -⟩ :=
      RecordFetchExec.buildScanExec_sequential hdf hmerge hnodup hf hcolumns hplan
    obtain ⟨plan', hplan', -⟩ := RecordFetchExec.buildScanExec_sim hdf hheaders hmerge hnodup
      .parallel hf hcolumns huniform hplan
    exact ⟨⟨plan', hplan'⟩, huniform⟩
  . intro h
    obtain ⟨⟨plan, hplan⟩, huniform⟩ := h
    obtain ⟨plan', hplan', -⟩ := RecordFetchExec.buildScanExec_sim hdf hheaders hmerge hnodup
      .sequential hf hcolumns huniform hplan
    exact ⟨plan', hplan'⟩

end

namespace IndexFilter

variable {f : IndexFilter V} {schema : Schema}

theorem schema_eq_of_leaves {merge : Metadata → Metadata → Metadata}
    (hmerge : ∀ metadata, merge metadata metadata = metadata) (hf : f.NoEmptyNode)
    (h : ∀ leaf ∈ f.leaves, leaf.1.indexSchema = schema)
    : f.schema merge = schema := by
  induction f with
  | single index filter => exact h (index, filter) (by simp [leaves])
  | and filters ih =>
    have hschemas : ∀ s ∈ schemas merge filters, s = schema := by
      rw [schemas_eq_map, List.forall_mem_map]
      intro child hchild
      exact ih child hchild (noEmptyNodes_iff.mp hf.2 child hchild) (forall_allLeaves.mp h child hchild)
    cases filters with
    | nil => exact absurd rfl hf.1
    | cons first rest =>
      rw [schemas, List.forall_mem_cons] at hschemas
      have hmetadata : (schemas merge rest).foldl (fun metadata s => merge metadata s.metadata)
          schema.metadata = schema.metadata := by
        have hrest := hschemas.2
        generalize schemas merge rest = rest at hrest
        induction rest with
        | nil => rfl
        | cons s rest ih =>
          rw [List.foldl_cons, hrest s (by simp), hmerge]
          exact ih fun s hs => hrest s (by simp [hs])
      simp only [IndexFilter.schema, schemas, hschemas.1, hmetadata]
  | or filters ih =>
    cases filters with
    | nil => exact absurd rfl hf.1
    | cons first rest =>
      exact ih first (by simp) hf.2.1 (forall_allLeaves.mp h first (by simp))

theorem uniform_of_leaves {merge : Metadata → Metadata → Metadata}
    (hmerge : ∀ metadata, merge metadata metadata = metadata) (hf : f.NoEmptyNode)
    (h : ∀ leaf ∈ f.leaves, leaf.1.indexSchema = schema)
    : f.Uniform merge := by
  induction f with
  | single index filter => trivial
  | and filters ih =>
    apply allUniform_iff.mpr
    intro child hchild
    exact ih child hchild (noEmptyNodes_iff.mp hf.2 child hchild) (forall_allLeaves.mp h child hchild)
  | or filters ih =>
    have hleaves := forall_allLeaves.mp h
    have hchildren := noEmptyNodes_iff.mp hf.2
    constructor
    . apply allUniform_iff.mpr
      intro child hchild
      exact ih child hchild (hchildren child hchild) (hleaves child hchild)
    . have hschemas : ∀ s ∈ schemas merge filters, s = schema := by
        rw [schemas_eq_map, List.forall_mem_map]
        intro child hchild
        exact schema_eq_of_leaves hmerge (hchildren child hchild) (hleaves child hchild)
      intro s hs s' hs'
      rw [hschemas s hs, hschemas s' hs']
      exact ⟨.refl _, rfl⟩

theorem accepted_of_leaves {df : DataFusion} {merge : Metadata → Metadata → Metadata}
    (hdf : df.Schemas) (hheaders : df.Headers) (horderings : df.KeyOrderings)
    (hmerge : df.JoinMetadata merge) (hfields : schema.fields ≠ []) (hnodup : schema.names.Nodup)
    (hf : f.NoEmptyNode) (h : ∀ leaf ∈ f.leaves, leaf.1.indexSchema = schema)
    (unionMode : UnionMode) (limit : Option Nat)
    : f.Accepted df unionMode limit := by
  rw [Schema.names_eq_columns] at hnodup
  have hcols : schema.columns ≠ [] := by
    intro hnil
    exact hfields (List.map_eq_nil_iff.mp hnil)
  have hcolumns : f.KeyColumns schema.columns := by
    intro leaf hleaf
    rw [h leaf hleaf]
  have hordered : f.OrderedBy schema.names := by
    intro leaf hleaf _
    rw [h leaf hleaf]
  have hnames : schema.names.Perm (schema.columns.map Prod.fst) := by
    rw [Schema.names_eq_columns]
  obtain ⟨plan, hplan, -⟩ := RecordFetchExec.buildScanExec_parallel_ready hdf hheaders horderings
    hcols hnodup hnames limit hf hcolumns hordered
  cases unionMode with
  | parallel => exact ⟨plan, hplan⟩
  | sequential =>
    apply (accepted_sequential_iff hdf hheaders hnodup hmerge limit hf hcolumns).mpr
    exact ⟨⟨plan, hplan⟩, uniform_of_leaves hmerge.self hf h⟩

end IndexFilter

/--
The union modes accept the same limit and tree exactly if the tree is uniform or rejected by Parallel
mode as well, which it is not where the ordered indexes list their columns in one order.
-/
theorem RecordFetchExec.union_modes_accept {df : DataFusion}
    {merge : Metadata → Metadata → Metadata} {cols : List (String × DataType)} {f : IndexFilter V}
    (hdf : df.Schemas) (hheaders : df.Headers) (horderings : df.KeyOrderings)
    (hmerge : df.JoinMetadata merge) (hcols : cols ≠ []) (hnodup : (cols.map Prod.fst).Nodup)
    (hf : f.NoEmptyNode) (hcolumns : f.KeyColumns cols) (limit : Option Nat)
    : ((f.Accepted df .sequential limit ↔ f.Accepted df .parallel limit)
          ↔
        f.Uniform merge ∨ ¬ f.Accepted df .parallel limit) ∧
      ∀ names : List String, names.Perm (cols.map Prod.fst) → f.OrderedBy names →
        f.Accepted df .parallel limit ∧
          ((f.Accepted df .sequential limit ↔ f.Accepted df .parallel limit) ↔ f.Uniform merge) := by
  have hiff := IndexFilter.accepted_sequential_iff hdf hheaders hnodup hmerge limit hf hcolumns
  have hmodes : (f.Accepted df .sequential limit ↔ f.Accepted df .parallel limit)
      ↔ f.Uniform merge ∨ ¬ f.Accepted df .parallel limit := by
    rw [hiff]
    constructor
    . intro h
      by_cases haccepted : f.Accepted df .parallel limit
      . exact .inl (h.mpr haccepted).2
      . exact .inr haccepted
    . intro h
      rcases h with huniform | hrejected
      . exact ⟨fun h => h.1, fun h => ⟨h, huniform⟩⟩
      . exact ⟨fun h => h.1, fun h => absurd h hrejected⟩
  refine ⟨hmodes, ?_⟩
  intro names hnames hordered
  obtain ⟨plan, hplan, -⟩ := buildScanExec_parallel_ready hdf hheaders horderings hcols hnodup
    hnames limit hf hcolumns hordered
  have haccepted : f.Accepted df .parallel limit := ⟨plan, hplan⟩
  refine ⟨haccepted, hmodes.trans ?_⟩
  simp [haccepted]

def nullabilityMismatch : IndexFilter Nat :=
  .or [
    .single (.constant ⟨[⟨"id", .int32, false, []⟩], []⟩ false []) (.literal .null),
    .single (.constant ⟨[⟨"id", .int32, true, []⟩], []⟩ false []) (.literal .null)
  ]

theorem nullabilityMismatch_noEmptyNode : nullabilityMismatch.NoEmptyNode :=
  ⟨by simp, trivial, trivial, trivial⟩

theorem nullabilityMismatch_keyColumns : nullabilityMismatch.KeyColumns [("id", .int32)] := by
  intro leaf hleaf
  have hleaves : nullabilityMismatch.leaves.map (fun leaf => leaf.1.indexSchema.columns)
      = [[("id", .int32)], [("id", .int32)]] := rfl
  have hmem := List.mem_map_of_mem (f := fun leaf => leaf.1.indexSchema.columns) hleaf
  rw [hleaves] at hmem
  simp only [List.mem_cons, List.not_mem_nil, or_false, or_self] at hmem
  rw [hmem]

theorem nullabilityMismatch_rejected_sequentially
    : nullabilityMismatch.NoEmptyNode ∧ nullabilityMismatch.KeyColumns [("id", .int32)] ∧
        nullabilityMismatch.Accepted DataFusion.reference .parallel none ∧
          ¬ nullabilityMismatch.Accepted DataFusion.reference .sequential none := by
  refine ⟨nullabilityMismatch_noEmptyNode, nullabilityMismatch_keyColumns, ⟨_, rfl⟩, ?_⟩
  intro h
  obtain ⟨plan, hplan⟩ := h
  cases hplan

theorem nullabilityMismatch_modes
    : (nullabilityMismatch.Accepted DataFusion.reference .sequential none
          ↔ nullabilityMismatch.Accepted DataFusion.reference .parallel none)
        ↔
      nullabilityMismatch.Uniform Metadata.merge ∨
        ¬ nullabilityMismatch.Accepted DataFusion.reference .parallel none :=
  (RecordFetchExec.union_modes_accept DataFusion.reference_schemas DataFusion.reference_headers
    DataFusion.reference_keyOrderings DataFusion.reference_joinMetadata (by simp) (by simp)
    nullabilityMismatch_noEmptyNode nullabilityMismatch_keyColumns none).1

end IndexProvider
