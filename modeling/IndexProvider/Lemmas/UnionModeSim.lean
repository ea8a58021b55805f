import IndexProvider.Lemmas.UnionMode

/-!
This module contains the simulation between the union modes: on a uniform tree, the plans that the two
modes build go through the same schemas and orderings, node by node.
-/

namespace IndexProvider

variable {V : Type}

theorem PlanProperties.header_eq_iff {p q : PlanProperties}
    : p.header = q.header
        ↔
      p.schema = q.schema ∧ p.eqProperties = q.eqProperties ∧ p.outputOrdering = q.outputOrdering := by
  simp [header]

structure ExecutionPlan.SameHeader (df : DataFusion) (plan plan' : ExecutionPlan V) : Prop where
  header : plan.properties.header = plan'.properties.header
  derived : plan.properties.Derived df

namespace ExecutionPlan.SameHeader

variable {df : DataFusion} {plan plan' : ExecutionPlan V}

theorem schema (h : SameHeader df plan plan') : plan.schema = plan'.schema :=
  (PlanProperties.header_eq_iff.mp h.header).1

theorem eqProperties (h : SameHeader df plan plan')
    : plan.properties.eqProperties = plan'.properties.eqProperties :=
  (PlanProperties.header_eq_iff.mp h.header).2.1

theorem outputOrdering (h : SameHeader df plan plan') : plan.outputOrdering = plan'.outputOrdering :=
  (PlanProperties.header_eq_iff.mp h.header).2.2

theorem derived_right (h : SameHeader df plan plan') : plan'.properties.Derived df := by
  have hordering : plan'.properties.outputOrdering = plan.properties.outputOrdering :=
    h.outputOrdering.symm
  rw [PlanProperties.Derived, hordering, ← h.eqProperties]
  exact h.derived

end ExecutionPlan.SameHeader

open ExecutionPlan

section

variable {df : DataFusion} (hdf : df.Schemas) (hheaders : df.Headers) {limit : Option Nat}
  {plan plan' left left' right right' : ExecutionPlan V}

include hheaders in
theorem tryCreateIndexLookupJoin_sim {joined : ExecutionPlan V} (hleft : SameHeader df left left')
    (hright : SameHeader df right right') (h : tryCreateIndexLookupJoin df left right = .ok joined)
    : ∃ joined', tryCreateIndexLookupJoin df left' right' = .ok joined' ∧
        SameHeader df joined joined' := by
  have hsorted : bothSorted left' right' = bothSorted left right := by
    unfold bothSorted
    rw [hleft.outputOrdering, hright.outputOrdering]
  rw [tryCreateIndexLookupJoin_eq_ok, hleft.schema, hright.schema] at h
  simp only [tryCreateIndexLookupJoin_eq_ok, hsorted]
  obtain ⟨on, hon, h⟩ := h
  split at h
  . next options hoptions =>
    obtain ⟨p, hp, rfl⟩ := h
    obtain ⟨p', hp', hheader⟩ := hheaders.sortMergeJoin _ _ _ _ _ _ _ hleft.header hright.header hp
    exact ⟨_, ⟨on, hon, p', hp', rfl⟩, hheader, hheaders.sortMergeJoin_derived _ _ _ _ _ hp⟩
  . next hoptions =>
    obtain ⟨p, hp, rfl⟩ := h
    obtain ⟨p', hp', hheader⟩ := hheaders.hashJoin _ _ _ _ _ _ hleft.header hright.header hp
    exact ⟨_, ⟨on, hon, p', hp', rfl⟩, hheader, hheaders.hashJoin_derived _ _ _ _ hp⟩

namespace RecordFetchExec

include hheaders in
theorem projectToPkSchema_sim {pkSchema : Schema} {projected : ExecutionPlan V}
    (hplan : SameHeader df plan plan') (h : projectToPkSchema df plan pkSchema = .ok projected)
    : ∃ projected', projectToPkSchema df plan' pkSchema = .ok projected' ∧
        SameHeader df projected projected' := by
  simp only [projectToPkSchema_eq_ok, ← hplan.schema]
  rw [projectToPkSchema_eq_ok] at h
  by_cases hfields : plan.schema.fields = pkSchema.fields
  . simp only [if_pos hfields] at h ⊢
    subst h
    exact ⟨plan', rfl, hplan⟩
  . simp only [if_neg hfields] at h ⊢
    obtain ⟨hnames, p, hp, rfl⟩ := h
    obtain ⟨p', hp', hheader⟩ := hheaders.projection _ _ _ _ hplan.header hp
    exact ⟨_, ⟨hnames, p', hp', rfl⟩, hheader, hheaders.projection_derived _ _ _ hp⟩

include hheaders in
theorem withLimit_sim (hplan : SameHeader df plan plan')
    : SameHeader df (withLimit df plan limit) (withLimit df plan' limit) := by
  cases limit with
  | none => exact hplan
  | some n =>
    exact ⟨hheaders.localLimit _ _ _ hplan.header, hheaders.localLimit_derived _ _ hplan.derived⟩

include hheaders in
theorem joinAll_sim {pkSchema : Schema} {plans plans' : List (ExecutionPlan V)}
    {joined : ExecutionPlan V} (hleft : SameHeader df left left')
    (hplans : List.Forall₂ (SameHeader df) plans plans')
    (h : joinAll df pkSchema left plans = .ok joined)
    : ∃ joined', joinAll df pkSchema left' plans' = .ok joined' ∧ SameHeader df joined joined' := by
  induction hplans generalizing left left' with
  | nil =>
    cases h
    exact ⟨left', rfl, hleft⟩
  | cons hright _ ih =>
    rw [joinAll_cons_eq_ok] at h
    obtain ⟨joinedOnce, hjoin, next, hproject, h⟩ := h
    obtain ⟨joinedOnce', hjoin', hjoined⟩ := tryCreateIndexLookupJoin_sim hheaders hleft hright hjoin
    obtain ⟨next', hproject', hnext⟩ := projectToPkSchema_sim hheaders hjoined hproject
    obtain ⟨joined', hall, hheader⟩ := ih hnext h
    exact ⟨joined', joinAll_cons_eq_ok.mpr ⟨_, hjoin', _, hproject', hall⟩, hheader⟩

include hheaders in
theorem buildAnd_sim {plans plans' : List (ExecutionPlan V)}
    (hplans : List.Forall₂ (SameHeader df) plans plans')
    (h : buildAnd df limit plans = .ok plan)
    : ∃ plan', buildAnd df limit plans' = .ok plan' ∧ SameHeader df plan plan' := by
  cases hplans with
  | nil => cases h
  | @cons left left' _ _ hleft hplans =>
    rw [buildAnd_eq_ok] at h
    obtain ⟨joined, hjoined, rfl⟩ := h
    obtain ⟨joined', hjoined', hheader⟩ := joinAll_sim hheaders hleft hplans hjoined
    rw [hleft.schema] at hjoined'
    exact ⟨_, buildAnd_eq_ok.mpr ⟨joined', hjoined', rfl⟩, withLimit_sim hheaders hheader⟩

include hdf hheaders in
theorem unionExec_header {unionMode : UnionMode} {first union : ExecutionPlan V}
    {rest : List (ExecutionPlan V)} (hsame : ∀ plan ∈ rest, plan.schema = first.schema)
    (hderived : first.properties.Derived df) (h : unionExec df unionMode (first :: rest) = .ok union)
    : union.schema = first.schema ∧
        df.calculateUnion ((first :: rest).map fun p => p.properties.eqProperties) first.schema
            = .ok union.properties.eqProperties ∧
          union.properties.Derived df := by
  cases unionMode with
  | parallel =>
    rw [unionExec, UnionExec.tryNew_eq_ok] at h
    cases rest with
    | nil =>
      cases h
      exact ⟨rfl, hheaders.calculateUnion_single _ _, hderived⟩
    | cons second rest =>
      obtain ⟨p, hp, rfl⟩ := h
      have hschema : p.schema = first.schema := by
        apply hdf.union_same _ _ _ hp
        intro q hq
        obtain ⟨plan, hplan, rfl⟩ := List.mem_map.mp hq
        exact hsame plan hplan
      obtain ⟨hunion, hordering⟩ := hheaders.union _ _ _ _ hp
      rw [hschema, ← List.map_cons, ← List.map_cons, List.map_map] at hunion
      exact ⟨hschema, hunion, hordering⟩
  | sequential =>
    obtain ⟨-, eq, heq, rfl⟩ := SequentialUnionExec.tryNew_eq_ok.mp h
    exact ⟨rfl, heq, rfl⟩

include hdf in
theorem unionExec_exists (unionMode : UnionMode) {first : ExecutionPlan V}
    {rest : List (ExecutionPlan V)} (hsame : ∀ plan ∈ rest, plan.schema = first.schema)
    : ∃ union, unionExec df unionMode (first :: rest) = .ok union := by
  cases unionMode with
  | parallel =>
    have hlength : ∀ p ∈ rest.map ExecutionPlan.properties,
        p.schema.fields.length = first.properties.schema.fields.length := by
      intro p hp
      obtain ⟨plan, hplan, rfl⟩ := List.mem_map.mp hp
      exact congrArg (fun schema => schema.fields.length) (hsame plan hplan)
    obtain ⟨p, hp⟩ := hdf.union_ok _ _ hlength
    simp only [unionExec, UnionExec.tryNew_eq_ok]
    split
    . exact ⟨first, rfl⟩
    . exact ⟨_, p, hp, rfl⟩
  | sequential =>
    obtain ⟨eq, heq⟩ := hdf.calculateUnion_ok first.properties.eqProperties
      (rest.map fun p => p.properties.eqProperties) first.schema
    exact ⟨_, SequentialUnionExec.tryNew_eq_ok.mpr ⟨hsame, eq, heq, rfl⟩⟩

include hdf hheaders in
theorem unionExec_sim {unionMode : UnionMode} (unionMode' : UnionMode)
    {first first' union : ExecutionPlan V} {rest rest' : List (ExecutionPlan V)}
    (hsame : ∀ plan ∈ rest, plan.schema = first.schema)
    (hplans : List.Forall₂ (SameHeader df) (first :: rest) (first' :: rest'))
    (h : unionExec df unionMode (first :: rest) = .ok union)
    : ∃ union', unionExec df unionMode' (first' :: rest') = .ok union' ∧
        SameHeader df union union' := by
  have hfirst : SameHeader df first first' := by cases hplans; assumption
  have hsame' : ∀ plan ∈ rest', plan.schema = first'.schema := by
    intro plan' hplan'
    cases hplans with
    | cons _ hrest =>
      obtain ⟨plan, hplan, hheader⟩ := Collect.forall₂_of_mem_right hrest hplan'
      rw [← hheader.schema, hsame plan hplan, hfirst.schema]
  have heqps : (first' :: rest').map (fun p => p.properties.eqProperties)
      = (first :: rest).map fun p => p.properties.eqProperties := by
    rw [← List.forall₂_eq_eq_eq, List.forall₂_map_left_iff, List.forall₂_map_right_iff]
    have hflip : List.Forall₂ (fun plan' plan => SameHeader df plan plan')
        (first' :: rest') (first :: rest) := hplans.flip
    apply hflip.imp
    intro plan' plan hheader
    exact hheader.eqProperties.symm
  obtain ⟨union', hunion'⟩ := unionExec_exists hdf unionMode' hsame'
  obtain ⟨hschema, heq, hordering⟩ := unionExec_header hdf hheaders hsame hfirst.derived h
  obtain ⟨hschema', heq', hordering'⟩ :=
    unionExec_header hdf hheaders hsame' hfirst.derived_right hunion'
  rw [heqps, ← hfirst.schema, heq, Except.ok.injEq] at heq'
  -- Both unions take their schema from the first input and their orderings from all of them.
  refine ⟨union', hunion', PlanProperties.header_eq_iff.mpr ⟨?_, heq', ?_⟩, hordering⟩
  . exact hschema.trans (hfirst.schema.trans hschema'.symm)
  . rw [hordering, hordering', heq']

variable {merge : Metadata → Metadata → Metadata} (hmerge : df.JoinMetadata merge)
  {cols : List (String × DataType)} (hnodup : (cols.map Prod.fst).Nodup)

include hdf hheaders hnodup in
theorem buildOr_sim {unionMode : UnionMode} (unionMode' : UnionMode)
    {plans plans' : List (ExecutionPlan V)}
    (hcolumns : ∀ plan ∈ plans, plan.schema.columns.Perm cols)
    (hsame : ∀ plan ∈ plans, ∀ plan' ∈ plans, plan.schema.SameUpToOrder plan'.schema)
    (hplans : List.Forall₂ (SameHeader df) plans plans') (hne : plans ≠ [])
    (h : buildOr df unionMode limit plans = .ok plan)
    : ∃ plan', buildOr df unionMode' limit plans' = .ok plan' ∧ SameHeader df plan plan' ∧
        ∀ first ∈ plans.head?, plan.schema = first.schema := by
  cases hplans with
  | nil => exact absurd rfl hne
  | @cons first first' rest rest' hfirst hrest =>
    simp only [buildOr_eq_ok, ← hfirst.schema]
    rw [buildOr_eq_ok] at h
    obtain ⟨normalized, hnormalized, union, hunion, p, hp, rfl⟩ := h
    have hfirstcolumns := hcolumns first (by simp)
    have hfirstnodup : first.schema.names.Nodup :=
      Schema.names_nodup hfirstcolumns hnodup
    have hcanonical : ∀ plan ∈ normalized, plan.schema = first.schema := by
      intro projected hprojected
      obtain ⟨plan, hplan, hproject⟩ := Collect.forall₂_of_mem_right hnormalized hprojected
      rw [projectToPkSchema_schema_eq_iff hdf hnodup (hcolumns plan hplan) hfirstcolumns hproject]
      exact hsame plan hplan first (by simp)
    obtain ⟨normalized', hnormalized', hsim⟩ := Collect.forall₂_sim (.cons hfirst hrest) hnormalized
      (fun _ _ _ hheader hproject => projectToPkSchema_sim hheaders hheader hproject)
    cases hnormalized with
    | @cons _ head _ tail _ _ =>
      cases hnormalized' with
      | @cons _ head' _ tail' hproject' htail' =>
        have htailsame : ∀ plan ∈ tail, plan.schema = head.schema := by
          intro plan hplan
          rw [hcanonical plan (by simp [hplan]), hcanonical head (by simp)]
        have hhead : SameHeader df head head' := by cases hsim; assumption
        obtain ⟨hunionschema, -⟩ := unionExec_header hdf hheaders htailsame hhead.derived hunion
        rw [hcanonical head (by simp)] at hunionschema
        obtain ⟨union', hunion', hunionsim⟩ :=
          unionExec_sim hdf hheaders unionMode' htailsame hsim hunion
        obtain ⟨p', hp', hpsim⟩ := hheaders.aggregate _ _ _ _ _ hunionsim.header hp
        refine ⟨_, ⟨_, .cons hproject' htail', union', hunion', p', hp', rfl⟩, ?_, ?_⟩
        . exact withLimit_sim hheaders ⟨hpsim, hheaders.aggregate_derived _ _ _ _ hp⟩
        . intro plan hplan
          cases hplan
          rw [withLimit_schema hdf]
          exact (aggregate_schema hdf hfirstnodup (congrArg Schema.names hunionschema) hp).trans
            hunionschema

theorem buildScanExecs_sim {unionMode unionMode' : UnionMode} {filters : List (IndexFilter V)}
    {plans : List (ExecutionPlan V)}
    (hplans : List.Forall₂ (fun f plan => buildScanExec df unionMode f limit = .ok plan) filters plans)
    (hchildren : ∀ f ∈ filters, ∀ plan, buildScanExec df unionMode f limit = .ok plan →
      ∃ plan', buildScanExec df unionMode' f limit = .ok plan' ∧ SameHeader df plan plan' ∧
        plan.schema = f.schema merge)
    : (∃ plans', List.Forall₂ (fun f plan => buildScanExec df unionMode' f limit = .ok plan) filters plans' ∧
          List.Forall₂ (SameHeader df) plans plans') ∧
        List.Forall₂ (fun f plan => plan.schema = f.schema merge) filters plans := by
  constructor
  . apply Collect.forall₂_sim_of_mem hplans
    intro f hf plan hplan
    obtain ⟨plan', hplan', hheader, -⟩ := hchildren f hf plan hplan
    exact ⟨plan', hplan', hheader⟩
  . apply Collect.forall₂_imp_of_mem hplans
    intro f hf plan hplan
    obtain ⟨_, -, -, hschema⟩ := hchildren f hf plan hplan
    exact hschema

include hdf hheaders hmerge hnodup in
theorem buildScanExec_sim {unionMode : UnionMode} (unionMode' : UnionMode) {f : IndexFilter V}
    (hf : f.NoEmptyNode) (hcols : f.KeyColumns cols) (huniform : f.Uniform merge)
    (h : buildScanExec df unionMode f limit = .ok plan)
    : ∃ plan', buildScanExec df unionMode' f limit = .ok plan' ∧ SameHeader df plan plan' ∧
        plan.schema = f.schema merge := by
  induction f generalizing limit plan with
  | single index filter =>
    rw [buildScanExec_single] at h
    refine ⟨plan, ?_, ⟨rfl, ?_⟩, ?_⟩
    . rw [buildScanExec_single, h]
    . cases h
      rfl
    . cases h
      rfl
  | and filters ih =>
    rw [buildScanExec_and_eq_ok] at h
    obtain ⟨plans, hplans, h⟩ := h
    obtain ⟨⟨plans', hplans', hsim⟩, hschemas⟩ := buildScanExecs_sim hplans
      fun child hchild plan hplan =>
        ih child hchild (IndexFilter.noEmptyNodes_iff.mp hf.2 child hchild) (hcols.and hchild)
          (IndexFilter.allUniform_iff.mp huniform child hchild) hplan
    obtain ⟨plan', hplan', hheader⟩ := buildAnd_sim hheaders hsim h
    refine ⟨plan', buildScanExec_and_eq_ok.mpr ⟨plans', hplans', hplan'⟩, hheader, ?_⟩
    exact buildAnd_uniform hdf hmerge hnodup hf hcols (schemas_of_forall₂ merge hschemas) h
  | or filters ih =>
    rw [buildScanExec_or_eq_ok] at h
    obtain ⟨plans, hplans, h⟩ := h
    obtain ⟨⟨plans', hplans', hsim⟩, hchildschemas⟩ := buildScanExecs_sim hplans
      fun child hchild plan hplan =>
        ih child hchild (IndexFilter.noEmptyNodes_iff.mp hf.2 child hchild) (hcols.or hchild)
          (IndexFilter.allUniform_iff.mp huniform.1 child hchild) hplan
    have hschemas := schemas_of_forall₂ merge hchildschemas
    have hcolumns := columns_of_forall₂ hf.2 (fun _ hchild => hcols.or hchild) hchildschemas
    have hsame : ∀ plan ∈ plans, ∀ plan' ∈ plans, plan.schema.SameUpToOrder plan'.schema := by
      intro plan hplan plan' hplan'
      apply huniform.2
      . rw [← hschemas]
        exact List.mem_map_of_mem hplan
      . rw [← hschemas]
        exact List.mem_map_of_mem hplan'
    have hne := Collect.forall₂_ne_nil hplans hf.1
    obtain ⟨plan', hplan', hheader, hschema⟩ :=
      buildOr_sim hdf hheaders hnodup unionMode' hcolumns hsame hsim hne h
    refine ⟨plan', buildScanExec_or_eq_ok.mpr ⟨plans', hplans', hplan'⟩, hheader, ?_⟩
    cases plans with
    | nil => exact absurd rfl hne
    | cons left plans =>
      rw [hschema left rfl]
      simp only [IndexFilter.schema, ← hschemas]
      rfl

end RecordFetchExec

end

end IndexProvider
