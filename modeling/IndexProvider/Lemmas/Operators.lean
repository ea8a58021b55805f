import IndexProvider.Lemmas.Schema

/-!
This module contains what the constructors of the plans return when they succeed.
-/

namespace IndexProvider

variable {V : Type} {df : DataFusion}

theorem ProjectionExec.tryNew_eq_ok {exprs : NamedExprs} {input plan : ExecutionPlan V}
    : tryNew df exprs input = .ok plan
        ↔
      ∃ p, df.projection exprs input.properties = .ok p ∧ ExecutionPlan.projection p exprs input = plan := by
  simp only [tryNew, Collect.bind_eq_ok, Collect.pure_eq_ok]

theorem HashJoinExec.tryNew_eq_ok {left right plan : ExecutionPlan V} {on : JoinOn}
    : tryNew df left right on = .ok plan
        ↔
      ∃ p, df.hashJoin left.properties right.properties on = .ok p ∧
        ExecutionPlan.hashJoin p left right on = plan := by
  simp only [tryNew, Collect.bind_eq_ok, Collect.pure_eq_ok]

theorem SortMergeJoinExec.tryNew_eq_ok {left right plan : ExecutionPlan V} {on : JoinOn}
    {options : List SortOptions}
    : tryNew df left right on options = .ok plan
        ↔
      ∃ p, df.sortMergeJoin left.properties right.properties on options = .ok p ∧
        ExecutionPlan.sortMergeJoin p left right on options = plan := by
  simp only [tryNew, Collect.bind_eq_ok, Collect.pure_eq_ok]

theorem UnionExec.tryNew_eq_ok {first plan : ExecutionPlan V} {rest : List (ExecutionPlan V)}
    : tryNew df (first :: rest) = .ok plan
        ↔
      if rest = [] then
        first = plan
      else
        ∃ p, df.union ((first :: rest).map ExecutionPlan.properties) = .ok p ∧
          ExecutionPlan.union p (first :: rest) = plan := by
  cases rest with
  | nil => simp only [tryNew, Except.ok.injEq, if_true]
  | cons second rest =>
    simp only [tryNew, reduceCtorEq, if_false, Collect.bind_eq_ok, Collect.pure_eq_ok]

theorem AggregateExec.tryNew_eq_ok {groupBy : NamedExprs} {input plan : ExecutionPlan V}
    {schema : Schema}
    : tryNew df groupBy input schema = .ok plan
        ↔
      ∃ p, df.aggregate groupBy input.properties schema = .ok p ∧
        ExecutionPlan.aggregate p groupBy input = plan := by
  simp only [tryNew, Collect.bind_eq_ok, Collect.pure_eq_ok]

namespace SequentialUnionExec

theorem checkSchemas_eq_ok {schema : Schema} {i : Nat} {inputs : List (ExecutionPlan V)}
    : checkSchemas schema i inputs = .ok () ↔ ∀ input ∈ inputs, input.schema = schema := by
  induction inputs generalizing i with
  | nil => simp [checkSchemas]
  | cons input inputs ih =>
    unfold checkSchemas
    by_cases h : input.schema = schema
    . simp [h, ih]
    . simp [h]

theorem tryNew_eq_ok {first plan : ExecutionPlan V} {rest : List (ExecutionPlan V)}
    : tryNew df (first :: rest) = .ok plan
        ↔
      (∀ input ∈ rest, input.schema = first.schema) ∧
        ∃ eq, df.calculateUnion ((first :: rest).map fun p => p.properties.eqProperties)
            first.schema = .ok eq ∧
          ExecutionPlan.sequentialUnion (.new df first.schema eq 1) (first :: rest) = plan := by
  simp only [tryNew, Collect.bind_eq_ok, Collect.pure_eq_ok]
  constructor
  . intro h
    obtain ⟨_, hcheck, eq, heq, hplan⟩ := h
    exact ⟨checkSchemas_eq_ok.mp hcheck, eq, heq, hplan⟩
  . intro h
    obtain ⟨hcheck, eq, heq, hplan⟩ := h
    exact ⟨(), checkSchemas_eq_ok.mpr hcheck, eq, heq, hplan⟩

end SequentialUnionExec

theorem bothSorted_eq_some {left right : ExecutionPlan V} {options : List SortOptions}
    : bothSorted left right = some options
        ↔
      ∃ o, left.outputOrdering = some o ∧ right.outputOrdering = some o ∧
        options = o.map PhysicalSortExpr.options := by
  unfold bothSorted
  cases hleft : left.outputOrdering with
  | none => simp
  | some leftOrd =>
    cases hright : right.outputOrdering with
    | none => simp
    | some rightOrd =>
      by_cases h : leftOrd = rightOrd
      . simp [h, eq_comm]
      . have hne : ¬ rightOrd = leftOrd := fun h' => h h'.symm
        simp [h, hne]

theorem tryCreateIndexLookupJoin_eq_ok {left right plan : ExecutionPlan V}
    : tryCreateIndexLookupJoin df left right = .ok plan
        ↔
      ∃ on, joinOn left.schema right.schema = .ok on ∧
        match bothSorted left right with
        | some options =>
          ∃ p, df.sortMergeJoin left.properties right.properties on options = .ok p ∧
            ExecutionPlan.sortMergeJoin p left right on options = plan
        | none =>
          ∃ p, df.hashJoin left.properties right.properties on = .ok p ∧
            ExecutionPlan.hashJoin p left right on = plan := by
  unfold tryCreateIndexLookupJoin
  rw [Collect.bind_eq_ok]
  cases bothSorted left right with
  | some options => simp only [SortMergeJoinExec.tryNew_eq_ok]
  | none => simp only [HashJoinExec.tryNew_eq_ok]

namespace RecordFetchExec

variable {unionMode : UnionMode} {limit : Option Nat}

theorem projectToPkSchema_eq_ok {plan projected : ExecutionPlan V} {pkSchema : Schema}
    : projectToPkSchema df plan pkSchema = .ok projected
        ↔
      if plan.schema.fields = pkSchema.fields then
        plan = projected
      else
        pkSchema.names ⊆ plan.schema.names ∧
          ∃ p, df.projection (selectExprs pkSchema.names plan.schema) plan.properties = .ok p ∧
            ExecutionPlan.projection p (selectExprs pkSchema.names plan.schema) plan = projected := by
  unfold projectToPkSchema
  split
  . rw [Except.ok.injEq]
  . simp only [Collect.bind_eq_ok, pkExprs_eq_ok_iff, ProjectionExec.tryNew_eq_ok]
    constructor
    . intro h
      obtain ⟨_, ⟨hnames, rfl⟩, hplan⟩ := h
      exact ⟨hnames, hplan⟩
    . intro h
      exact ⟨_, ⟨h.1, rfl⟩, h.2⟩

theorem buildAnd_eq_ok {left plan : ExecutionPlan V} {plans : List (ExecutionPlan V)}
    : buildAnd df limit (left :: plans) = .ok plan
        ↔
      ∃ joined, joinAll df left.schema left plans = .ok joined ∧
        withLimit df joined limit = plan := by
  simp only [buildAnd, Collect.bind_eq_ok, Collect.pure_eq_ok]

theorem joinAll_cons_eq_ok {pkSchema : Schema} {left right plan : ExecutionPlan V}
    {plans : List (ExecutionPlan V)}
    : joinAll df pkSchema left (right :: plans) = .ok plan
        ↔
      ∃ joined, tryCreateIndexLookupJoin df left right = .ok joined ∧
        ∃ next, projectToPkSchema df joined pkSchema = .ok next ∧
          joinAll df pkSchema next plans = .ok plan := by
  simp only [joinAll, Collect.bind_eq_ok]

theorem buildOr_eq_ok {first plan : ExecutionPlan V} {rest : List (ExecutionPlan V)}
    : buildOr df unionMode limit (first :: rest) = .ok plan
        ↔
      ∃ plans, List.Forall₂ (fun plan plan' => projectToPkSchema df plan first.schema = .ok plan')
          (first :: rest) plans ∧
        ∃ union, unionExec df unionMode plans = .ok union ∧
          ∃ p, df.aggregate (groupExprs first.schema) union.properties first.schema = .ok p ∧
            withLimit df (.aggregate p (groupExprs first.schema) union) limit = plan := by
  simp only [buildOr, Collect.bind_eq_ok, Collect.mapM_eq_ok, AggregateExec.tryNew_eq_ok,
    Collect.pure_eq_ok]
  constructor
  . intro h
    obtain ⟨plans, hplans, union, hunion, _, ⟨p, hp, rfl⟩, hplan⟩ := h
    exact ⟨plans, hplans, union, hunion, p, hp, hplan⟩
  . intro h
    obtain ⟨plans, hplans, union, hunion, p, hp, hplan⟩ := h
    exact ⟨plans, hplans, union, hunion, _, ⟨p, hp, rfl⟩, hplan⟩

theorem buildScanExecs_eq_ok {filters : List (IndexFilter V)} {plans : List (ExecutionPlan V)}
    : buildScanExecs df unionMode filters limit = .ok plans
        ↔
      List.Forall₂ (fun f plan => buildScanExec df unionMode f limit = .ok plan) filters plans := by
  induction filters generalizing plans with
  | nil => simp [buildScanExecs, eq_comm]
  | cons f filters ih =>
    simp only [buildScanExecs, Collect.bind_eq_ok, Collect.pure_eq_ok, ih,
      List.forall₂_cons_left_iff]
    constructor
    . intro h
      obtain ⟨plan, hplan, plans', hplans, h⟩ := h
      exact ⟨plan, plans', hplan, hplans, h.symm⟩
    . intro h
      obtain ⟨plan, plans', hplan, hplans, h⟩ := h
      exact ⟨plan, hplan, plans', hplans, h.symm⟩

theorem buildScanExec_single (index : Index V) (filter : Expr)
    : buildScanExec df unionMode (.single index filter) limit
        =
      IndexScanExec.tryNew df index [filter] limit index.indexSchema := by
  simp only [buildScanExec]

theorem buildScanExec_and_eq_ok {filters : List (IndexFilter V)} {plan : ExecutionPlan V}
    : buildScanExec df unionMode (.and filters) limit = .ok plan
        ↔
      ∃ plans, List.Forall₂ (fun f plan => buildScanExec df unionMode f none = .ok plan)
          filters plans ∧
        buildAnd df limit plans = .ok plan := by
  simp only [buildScanExec, Collect.bind_eq_ok, buildScanExecs_eq_ok]

theorem buildScanExec_or_eq_ok {filters : List (IndexFilter V)} {plan : ExecutionPlan V}
    : buildScanExec df unionMode (.or filters) limit = .ok plan
        ↔
      ∃ plans, List.Forall₂ (fun f plan => buildScanExec df unionMode f limit = .ok plan)
          filters plans ∧
        buildOr df unionMode limit plans = .ok plan := by
  simp only [buildScanExec, Collect.bind_eq_ok, buildScanExecs_eq_ok]

end RecordFetchExec

end IndexProvider
