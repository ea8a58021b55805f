import IndexProvider.Lemmas.Partitions

/-!
This module contains the index scans of the plan that is built for a tree: one for each leaf.
-/

namespace IndexProvider

variable {V : Type}

abbrev IndexScan (V : Type) := Index V × List Expr × Option Nat

namespace ExecutionPlan

def scan? : ExecutionPlan V → Option (IndexScan V)
  | .indexScan _ index filters limit => some (index, filters, limit)
  | _ => none

/--
The index scans of a plan from left to right, each with its filters and its limit.
-/
def scans (plan : ExecutionPlan V) : List (IndexScan V) := plan.nodes.filterMap scan?

theorem filterMap_allNodes {α : Type} (g : ExecutionPlan V → Option α)
    (inputs : List (ExecutionPlan V))
    : (allNodes inputs).filterMap g = inputs.flatMap fun input => input.nodes.filterMap g := by
  induction inputs with
  | nil => rfl
  | cons input inputs ih => rw [allNodes, List.filterMap_append, ih, List.flatMap_cons]

theorem scans_eq (plan : ExecutionPlan V)
    : plan.scans = plan.scan?.toList ++ plan.children.flatMap scans := by
  unfold scans
  rw [nodes_eq, List.filterMap_cons, filterMap_allNodes]
  cases plan.scan? <;> rfl

section

variable (p : PlanProperties) (left right input : ExecutionPlan V) (inputs : List (ExecutionPlan V))

@[simp]
theorem scans_projection (exprs : NamedExprs) : (projection p exprs input).scans = input.scans := by
  rw [scans_eq]
  simp [scan?, children]

@[simp]
theorem scans_hashJoin (on : JoinOn)
    : (hashJoin p left right on).scans = left.scans ++ right.scans := by
  rw [scans_eq]
  simp [scan?, children]

@[simp]
theorem scans_sortMergeJoin (on : JoinOn) (sortOptions : List SortOptions)
    : (sortMergeJoin p left right on sortOptions).scans = left.scans ++ right.scans := by
  rw [scans_eq]
  simp [scan?, children]

@[simp]
theorem scans_union : (union p inputs).scans = inputs.flatMap scans := scans_eq _

@[simp]
theorem scans_sequentialUnion : (sequentialUnion p inputs).scans = inputs.flatMap scans := scans_eq _

@[simp]
theorem scans_aggregate (groupBy : NamedExprs) : (aggregate p groupBy input).scans = input.scans := by
  rw [scans_eq]
  simp [scan?, children]

@[simp]
theorem scans_localLimit (fetch : Nat) : (localLimit p input fetch).scans = input.scans := by
  rw [scans_eq]
  simp [scan?, children]

end

end ExecutionPlan

namespace IndexFilter

mutual

/--
The scans a tree is answered with. The limit reaches the leaves that no `And` is above.
-/
def scans (limit : Option Nat) : IndexFilter V → List (IndexScan V)
  | .single index filter => [(index, [filter], limit)]
  | .and filters => allScans none filters
  | .or filters => allScans limit filters

def allScans (limit : Option Nat) : List (IndexFilter V) → List (IndexScan V)
  | [] => []
  | f :: fs => scans limit f ++ allScans limit fs

end

theorem map_scans (f : IndexFilter V) (limit : Option Nat)
    : (f.scans limit).map (fun scan => (scan.1, scan.2.1))
        =
      f.leaves.map fun leaf => (leaf.1, [leaf.2]) := by
  induction f generalizing limit with
  | single index filter => rfl
  | and filters ih => exact map_allScans none fun f hf => ih f hf none
  | or filters ih => exact map_allScans limit fun f hf => ih f hf limit
where
  map_allScans {filters : List (IndexFilter V)} (limit : Option Nat)
      (h : ∀ f ∈ filters, (f.scans limit).map (fun scan => (scan.1, scan.2.1))
        = f.leaves.map fun leaf => (leaf.1, [leaf.2]))
      : (allScans limit filters).map (fun scan => (scan.1, scan.2.1))
          =
        (allLeaves filters).map fun leaf => (leaf.1, [leaf.2]) := by
    induction filters with
    | nil => rfl
    | cons f fs ih =>
      rw [List.forall_mem_cons] at h
      rw [allScans, allLeaves, List.map_append, List.map_append, h.1, ih h.2]

end IndexFilter

variable {df : DataFusion} {unionMode : UnionMode} {limit : Option Nat}
  {plan left right : ExecutionPlan V} {plans : List (ExecutionPlan V)}

theorem tryCreateIndexLookupJoin_scans {joined : ExecutionPlan V}
    (h : tryCreateIndexLookupJoin df left right = .ok joined)
    : joined.scans = left.scans ++ right.scans := by
  rw [tryCreateIndexLookupJoin_eq_ok] at h
  obtain ⟨on, -, h⟩ := h
  split at h
  . obtain ⟨p, -, rfl⟩ := h
    simp
  . obtain ⟨p, -, rfl⟩ := h
    simp

namespace RecordFetchExec

theorem projectToPkSchema_scans {pkSchema : Schema} {projected : ExecutionPlan V}
    (h : projectToPkSchema df plan pkSchema = .ok projected)
    : projected.scans = plan.scans := by
  rw [projectToPkSchema_eq_ok] at h
  split at h
  . rw [h]
  . obtain ⟨-, p, -, rfl⟩ := h
    simp

theorem withLimit_scans (plan : ExecutionPlan V) (limit : Option Nat)
    : (withLimit df plan limit).scans = plan.scans := by
  cases limit with
  | none => rfl
  | some n => simp [withLimit, LocalLimitExec.new]

theorem joinAll_scans {pkSchema : Schema} {joined : ExecutionPlan V}
    (h : joinAll df pkSchema left plans = .ok joined)
    : joined.scans = left.scans ++ plans.flatMap ExecutionPlan.scans := by
  induction plans generalizing left with
  | nil =>
    cases h
    simp
  | cons right plans ih =>
    rw [joinAll_cons_eq_ok] at h
    obtain ⟨joinedOnce, hjoin, next, hproject, h⟩ := h
    rw [ih h, projectToPkSchema_scans hproject, tryCreateIndexLookupJoin_scans hjoin,
      List.flatMap_cons, List.append_assoc]

theorem buildAnd_scans (h : buildAnd df limit plans = .ok plan)
    : plan.scans = plans.flatMap ExecutionPlan.scans := by
  cases plans with
  | nil => cases h
  | cons left plans =>
    rw [buildAnd_eq_ok] at h
    obtain ⟨joined, hjoined, rfl⟩ := h
    rw [withLimit_scans, joinAll_scans hjoined, List.flatMap_cons]

theorem unionExec_scans {first union : ExecutionPlan V} {rest : List (ExecutionPlan V)}
    (h : unionExec df unionMode (first :: rest) = .ok union)
    : union.scans = (first :: rest).flatMap ExecutionPlan.scans := by
  cases unionMode with
  | parallel =>
    rw [unionExec, UnionExec.tryNew_eq_ok] at h
    split at h
    . next hrest =>
      subst hrest h
      simp
    . obtain ⟨p, -, rfl⟩ := h
      simp
  | sequential =>
    obtain ⟨-, eq, -, rfl⟩ := SequentialUnionExec.tryNew_eq_ok.mp h
    simp

theorem buildOr_scans (h : buildOr df unionMode limit plans = .ok plan)
    : plan.scans = plans.flatMap ExecutionPlan.scans := by
  cases plans with
  | nil =>
    cases h
    rfl
  | cons first rest =>
    rw [buildOr_eq_ok] at h
    obtain ⟨normalized, hnormalized, union, hunion, p, -, rfl⟩ := h
    have hscans : (first :: rest).map ExecutionPlan.scans
        = normalized.map ExecutionPlan.scans := by
      rw [← List.forall₂_eq_eq_eq, List.forall₂_map_left_iff, List.forall₂_map_right_iff]
      exact hnormalized.imp fun _ _ hproject => (projectToPkSchema_scans hproject).symm
    cases hnormalized with
    | cons _ _ =>
      rw [withLimit_scans, ExecutionPlan.scans_aggregate, unionExec_scans hunion, List.flatMap_def,
        List.flatMap_def, hscans]

theorem flatMap_scans {filters : List (IndexFilter V)}
    (h : List.Forall₂ (fun f plan => ExecutionPlan.scans plan = f.scans limit) filters plans)
    : plans.flatMap ExecutionPlan.scans = IndexFilter.allScans limit filters := by
  induction h with
  | nil => rfl
  | cons hhead _ ih => rw [List.flatMap_cons, IndexFilter.allScans, hhead, ih]

theorem buildScanExec_scans {f : IndexFilter V} (h : buildScanExec df unionMode f limit = .ok plan)
    : plan.scans = f.scans limit := by
  induction f generalizing limit plan with
  | single index filter =>
    rw [buildScanExec_single] at h
    cases h
    rfl
  | and filters ih =>
    rw [buildScanExec_and_eq_ok] at h
    obtain ⟨plans, hplans, h⟩ := h
    rw [buildAnd_scans h, IndexFilter.scans]
    apply flatMap_scans
    exact Collect.forall₂_imp_of_mem hplans fun child hchild _ hplan => ih child hchild hplan
  | or filters ih =>
    rw [buildScanExec_or_eq_ok] at h
    obtain ⟨plans, hplans, h⟩ := h
    rw [buildOr_scans h, IndexFilter.scans]
    apply flatMap_scans
    exact Collect.forall₂_imp_of_mem hplans fun child hchild _ hplan => ih child hchild hplan

/--
In both union modes, the plan of a tree scans the index of each leaf once, for the filter of the leaf
and in the order of the leaves. A limit is passed to exactly the leaves that are below no `And`.
-/
theorem plan_scans_leaves {f : IndexFilter V} (h : buildScanExec df unionMode f limit = .ok plan)
    : plan.scans = f.scans limit ∧
        plan.scans.map (fun scan => (scan.1, scan.2.1)) = f.leaves.map fun leaf => (leaf.1, [leaf.2]) := by
  rw [buildScanExec_scans h]
  exact ⟨rfl, IndexFilter.map_scans f limit⟩

theorem joinInUnion_scans
    : ∃ plan, buildScanExec DataFusion.reference .sequential joinInUnion (some 5) = .ok plan ∧
        plan.scans.map (fun scan => scan.2.2) = [some 5, none, none] := by
  have hplan : ∃ plan,
      buildScanExec DataFusion.reference .sequential joinInUnion (some 5) = .ok plan := ⟨_, rfl⟩
  obtain ⟨plan, hplan⟩ := hplan
  refine ⟨plan, hplan, ?_⟩
  rw [(plan_scans_leaves hplan).1]
  rfl

end RecordFetchExec

end IndexProvider
