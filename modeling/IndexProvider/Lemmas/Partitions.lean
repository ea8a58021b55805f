import IndexProvider.Lemmas.DataFusion
import IndexProvider.Lemmas.Operators
import IndexProvider.Lemmas.Reference
import IndexProvider.Lemmas.Streaming

/-!
This module contains the partitions of the plans that Sequential mode builds: there is one at every
node, so the plan runs without the planner merging anything.
-/

namespace IndexProvider

variable {V : Type}

namespace ExecutionPlan

mutual

def nodes : ExecutionPlan V → List (ExecutionPlan V)
  | .indexScan p index filters limit => [.indexScan p index filters limit]
  | .sequentialUnion p inputs => .sequentialUnion p inputs :: allNodes inputs
  | .projection p exprs input => .projection p exprs input :: nodes input
  | .hashJoin p left right on => .hashJoin p left right on :: (nodes left ++ nodes right)
  | .sortMergeJoin p left right on sortOptions =>
    .sortMergeJoin p left right on sortOptions :: (nodes left ++ nodes right)
  | .union p inputs => .union p inputs :: allNodes inputs
  | .aggregate p groupBy input => .aggregate p groupBy input :: nodes input
  | .localLimit p input fetch => .localLimit p input fetch :: nodes input
  | .empty p => [.empty p]
  | .source p partitions => [.source p partitions]

def allNodes : List (ExecutionPlan V) → List (ExecutionPlan V)
  | [] => []
  | input :: inputs => nodes input ++ allNodes inputs

end

theorem mem_allNodes {inputs : List (ExecutionPlan V)} {node : ExecutionPlan V}
    : node ∈ allNodes inputs ↔ ∃ input ∈ inputs, node ∈ input.nodes := by
  induction inputs with
  | nil => simp [allNodes]
  | cons input inputs ih => simp [allNodes, ih]

theorem self_mem_nodes (plan : ExecutionPlan V) : plan ∈ plan.nodes := by
  cases plan <;> simp [nodes]

def children : ExecutionPlan V → List (ExecutionPlan V)
  | .indexScan _ _ _ _ => []
  | .sequentialUnion _ inputs => inputs
  | .projection _ _ input => [input]
  | .hashJoin _ left right _ => [left, right]
  | .sortMergeJoin _ left right _ _ => [left, right]
  | .union _ inputs => inputs
  | .aggregate _ _ input => [input]
  | .localLimit _ input _ => [input]
  | .empty _ => []
  | .source _ _ => []

theorem nodes_eq (plan : ExecutionPlan V) : plan.nodes = plan :: allNodes plan.children := by
  cases plan <;> simp [nodes, children, allNodes]

/--
The node has one partition, and it is none of those that keep all partitions of several inputs.
-/
def Unsplit (node : ExecutionPlan V) : Prop :=
  node.partitionCount = 1 ∧
    match node with
    | .union _ _ => False
    | .source _ _ => False
    | _ => True

def AllUnsplit (plan : ExecutionPlan V) : Prop := ∀ node ∈ plan.nodes, node.Unsplit

variable {df : DataFusion} (hdf : df.Partitions) {unionMode : UnionMode} {limit : Option Nat}
  {plan left right : ExecutionPlan V}

theorem AllUnsplit.self (h : plan.AllUnsplit) : plan.partitionCount = 1 :=
  (h plan plan.self_mem_nodes).1

theorem forall_nodes {N : ExecutionPlan V → Prop} {rest : List (ExecutionPlan V)}
    (hnodes : plan.nodes = plan :: rest) (hself : N plan) (hrest : ∀ node ∈ rest, N node)
    : ∀ node ∈ plan.nodes, N node := by
  intro node hnode
  rw [hnodes] at hnode
  cases hnode with
  | head => exact hself
  | tail _ hnode => exact hrest node hnode

theorem forall_nodes_child {N : ExecutionPlan V → Prop} {child : ExecutionPlan V}
    (h : ∀ node ∈ plan.nodes, N node) (hchild : child ∈ plan.children)
    : ∀ node ∈ child.nodes, N node := by
  intro node hnode
  apply h
  rw [nodes_eq]
  exact List.mem_cons_of_mem _ (mem_allNodes.mpr ⟨child, hchild, hnode⟩)

include hdf in
theorem AllUnsplit.projectToPkSchema {pkSchema : Schema} {projected : ExecutionPlan V}
    (h : plan.AllUnsplit)
    (hproject : RecordFetchExec.projectToPkSchema df plan pkSchema = .ok projected)
    : projected.AllUnsplit := by
  rw [RecordFetchExec.projectToPkSchema_eq_ok] at hproject
  split at hproject
  . rw [← hproject]
    exact h
  . obtain ⟨-, p, hp, rfl⟩ := hproject
    exact forall_nodes rfl ⟨(hdf.projection _ _ _ hp).trans h.self, trivial⟩ h

include hdf in
theorem AllUnsplit.join {joined : ExecutionPlan V} (hleft : left.AllUnsplit)
    (hright : right.AllUnsplit) (h : tryCreateIndexLookupJoin df left right = .ok joined)
    : joined.AllUnsplit := by
  have hnodes : ∀ node ∈ left.nodes ++ right.nodes, node.Unsplit :=
    List.forall_mem_append.mpr ⟨hleft, hright⟩
  rw [tryCreateIndexLookupJoin_eq_ok] at h
  obtain ⟨on, -, h⟩ := h
  split at h
  . obtain ⟨p, hp, rfl⟩ := h
    have hcount : p.partitionCount = 1 := hdf.sortMergeJoin _ _ _ _ _ hp hleft.self hright.self
    exact forall_nodes rfl ⟨hcount, trivial⟩ hnodes
  . obtain ⟨p, hp, rfl⟩ := h
    have hcount : p.partitionCount = 1 := (hdf.hashJoin _ _ _ _ hp).trans hright.self
    exact forall_nodes rfl ⟨hcount, trivial⟩ hnodes

include hdf in
theorem AllUnsplit.withLimit (h : plan.AllUnsplit)
    : (RecordFetchExec.withLimit df plan limit).AllUnsplit := by
  cases limit with
  | none => exact h
  | some n => exact forall_nodes rfl ⟨(hdf.localLimit _ _).trans h.self, trivial⟩ h

include hdf in
theorem AllUnsplit.joinAll {pkSchema : Schema} {plans : List (ExecutionPlan V)}
    {joined : ExecutionPlan V} (hleft : left.AllUnsplit) (hplans : ∀ plan ∈ plans, plan.AllUnsplit)
    (h : RecordFetchExec.joinAll df pkSchema left plans = .ok joined)
    : joined.AllUnsplit := by
  induction plans generalizing left with
  | nil =>
    cases h
    exact hleft
  | cons right plans ih =>
    rw [RecordFetchExec.joinAll_cons_eq_ok] at h
    obtain ⟨joinedOnce, hjoin, next, hproject, h⟩ := h
    have hjoined := hleft.join hdf (hplans right (by simp)) hjoin
    apply ih (hjoined.projectToPkSchema hdf hproject) _ h
    intro plan hplan
    exact hplans plan (by simp [hplan])

include hdf in
theorem allUnsplit_buildAnd {plans : List (ExecutionPlan V)}
    (hplans : ∀ plan ∈ plans, plan.AllUnsplit)
    (h : RecordFetchExec.buildAnd df limit plans = .ok plan)
    : plan.AllUnsplit := by
  cases plans with
  | nil => cases h
  | cons left plans =>
    rw [RecordFetchExec.buildAnd_eq_ok] at h
    obtain ⟨joined, hjoined, rfl⟩ := h
    apply AllUnsplit.withLimit hdf
    apply AllUnsplit.joinAll hdf (hplans left (by simp)) _ hjoined
    intro plan hplan
    exact hplans plan (by simp [hplan])

include hdf in
theorem allUnsplit_buildOr {plans : List (ExecutionPlan V)}
    (hplans : ∀ plan ∈ plans, plan.AllUnsplit)
    (h : RecordFetchExec.buildOr df .sequential limit plans = .ok plan)
    : plan.AllUnsplit := by
  cases plans with
  | nil =>
    cases h
    exact forall_nodes rfl ⟨hdf.empty _, trivial⟩ (by simp)
  | cons first rest =>
    rw [RecordFetchExec.buildOr_eq_ok] at h
    obtain ⟨normalized, hnormalized, union, hunion, p, hp, rfl⟩ := h
    have hinputs : ∀ plan ∈ normalized, plan.AllUnsplit := by
      intro projected hprojected
      obtain ⟨plan, hplan, hproject⟩ := Collect.forall₂_of_mem_right hnormalized hprojected
      exact (hplans plan hplan).projectToPkSchema hdf hproject
    have hunion : union.AllUnsplit := by
      cases hnormalized with
      | cons _ _ =>
        obtain ⟨-, eq, -, rfl⟩ := SequentialUnionExec.tryNew_eq_ok.mp hunion
        refine forall_nodes rfl ⟨rfl, trivial⟩ ?_
        intro node hnode
        obtain ⟨input, hinput, hnode⟩ := mem_allNodes.mp hnode
        exact hinputs input hinput node hnode
    apply AllUnsplit.withLimit hdf
    exact forall_nodes rfl ⟨(hdf.aggregate _ _ _ _ hp).trans hunion.self, trivial⟩ hunion

include hdf in
theorem allUnsplit_buildScanExec {f : IndexFilter V}
    (h : RecordFetchExec.buildScanExec df .sequential f limit = .ok plan)
    : plan.AllUnsplit := by
  induction f generalizing limit plan with
  | single index filter =>
    rw [RecordFetchExec.buildScanExec_single] at h
    cases h
    exact forall_nodes rfl ⟨rfl, trivial⟩ (by simp)
  | and filters ih =>
    rw [RecordFetchExec.buildScanExec_and_eq_ok] at h
    obtain ⟨plans, hplans, h⟩ := h
    apply allUnsplit_buildAnd hdf _ h
    intro plan hplan
    obtain ⟨child, hchild, hplan⟩ := Collect.forall₂_of_mem_right hplans hplan
    exact ih child hchild hplan
  | or filters ih =>
    rw [RecordFetchExec.buildScanExec_or_eq_ok] at h
    obtain ⟨plans, hplans, h⟩ := h
    apply allUnsplit_buildOr hdf _ h
    intro plan hplan
    obtain ⟨child, hchild, hplan⟩ := Collect.forall₂_of_mem_right hplans hplan
    exact ih child hchild hplan

end ExecutionPlan

section

variable [Ord V]

def Step.AsBuilt : Step V → Prop
  | .merge _ => False
  | _ => True

variable [DecidableEq V]

namespace ExecutionPlan

variable {C : Step V → Prop} {plan : ExecutionPlan V}

omit [DecidableEq V] in
theorem Merges.eq_of_singleton {p : PlanProperties} {stream stream' : RecordStream V}
    (h : Merges C p [stream] stream')
    : stream' = stream := by
  simp only [Merges, List.length_singleton, if_true, List.cons.injEq, and_true] at h
  exact h.symm

omit [DecidableEq V] in
theorem merges_singleton (p : PlanProperties) (stream : RecordStream V)
    : Merges C p [stream] stream := by
  simp [Merges]

theorem AllUnsplit.runs (h : plan.AllUnsplit) {partitions : List (RecordStream V)}
    (hruns : plan.Runs C partitions)
    : plan.Runs (fun step => C step ∧ step.AsBuilt) partitions ∧
        ∃ stream, partitions = [stream] := by
  induction plan generalizing partitions with
  | indexScan p index filters limit =>
    obtain ⟨batches, hbatches, rfl⟩ := hruns
    exact ⟨⟨batches, hbatches, rfl⟩, _, rfl⟩
  | sequentialUnion p inputs ih =>
    obtain ⟨streams, hstreams, rfl⟩ := hruns
    refine ⟨⟨streams, ?_, rfl⟩, _, rfl⟩
    rw [runsSingles_iff] at hstreams ⊢
    apply Collect.forall₂_imp_of_mem hstreams
    intro input hinput stream hrun
    obtain ⟨partitions, hruns, hmerges⟩ := hrun
    obtain ⟨hruns', stream', rfl⟩ := ih input hinput (forall_nodes_child h hinput) hruns
    rw [hmerges.eq_of_singleton]
    exact ⟨_, hruns', merges_singleton _ _⟩
  | projection p exprs input ih =>
    obtain ⟨inputs, hinput, rfl, hholds⟩ := hruns
    obtain ⟨hinput', stream, rfl⟩ := ih (forall_nodes_child h (by simp [children])) hinput
    exact ⟨⟨_, hinput', rfl, hholds⟩, _, rfl⟩
  | hashJoin p left right on ihl ihr =>
    obtain ⟨lefts, rights, ls, hlefts, hrights, hls, hjoin, hholds⟩ := hruns
    obtain ⟨hlefts', left', rfl⟩ := ihl (forall_nodes_child h (by simp [children])) hlefts
    obtain ⟨hrights', right', rfl⟩ := ihr (forall_nodes_child h (by simp [children])) hrights
    have heq := hls.eq_of_singleton
    subst heq
    refine ⟨⟨_, _, _, hlefts', hrights', merges_singleton _ _, hjoin, hholds⟩, ?_⟩
    cases hjoin with
    | cons _ htail =>
      cases htail
      exact ⟨_, rfl⟩
  | sortMergeJoin p left right on sortOptions ihl ihr =>
    obtain ⟨lefts, rights, ls, rs, out, hlefts, hrights, hls, hrs, hstep, rfl, hjoin⟩ := hruns
    obtain ⟨hlefts', left', rfl⟩ := ihl (forall_nodes_child h (by simp [children])) hlefts
    obtain ⟨hrights', right', rfl⟩ := ihr (forall_nodes_child h (by simp [children])) hrights
    have heq := hls.eq_of_singleton
    have heq' := hrs.eq_of_singleton
    subst heq heq'
    exact ⟨⟨_, _, _, _, _, hlefts', hrights', merges_singleton _ _, merges_singleton _ _,
      ⟨hstep, trivial⟩, rfl, hjoin⟩, _, rfl⟩
  | union p inputs ih => exact absurd (h _ (self_mem_nodes _)).2 id
  | aggregate p groupBy input ih =>
    obtain ⟨hgroupBy, inputs, stream, out, hinput, hstream, hstep, rfl, hout, hholds⟩ := hruns
    obtain ⟨hinput', stream', rfl⟩ :=
      ih (forall_nodes_child h (by simp [children])) hinput
    have heq := hstream.eq_of_singleton
    subst heq
    exact ⟨⟨hgroupBy, _, _, _, hinput', merges_singleton _ _, ⟨hstep, trivial⟩, rfl, hout, hholds⟩,
      _, rfl⟩
  | localLimit p input fetch ih =>
    obtain ⟨stream, out, hinput, rfl, hout⟩ := hruns
    obtain ⟨hinput', -⟩ := ih (forall_nodes_child h (by simp [children])) hinput
    exact ⟨⟨_, _, hinput', rfl, hout⟩, _, rfl⟩
  | empty p =>
    rw [show partitions = [[]] from hruns]
    exact ⟨rfl, _, rfl⟩
  | source p sources => exact absurd (h _ (self_mem_nodes _)).2 id

end ExecutionPlan

/--
In a plan that Sequential mode builds, every node has one partition. Its executions need no merge of
partitions, and the fetch reads all keys they produce.
-/
theorem RecordFetchExec.sequential_plan_complete {df : DataFusion} (hdf : df.Partitions)
    {f : IndexFilter V} {limit : Option Nat} {plan : ExecutionPlan V}
    (h : buildScanExec df .sequential f limit = .ok plan)
    : (∀ node ∈ plan.nodes, node.partitionCount = 1) ∧
        ∀ (C : Step V → Prop) (partitions : List (RecordStream V)), plan.Runs C partitions →
          plan.Runs (fun step => C step ∧ step.AsBuilt) partitions ∧
            ∃ stream, inputStream 0 partitions = .ok stream ∧ stream.flatten = allRows partitions := by
  have hunsplit := ExecutionPlan.allUnsplit_buildScanExec hdf h
  constructor
  . intro node hnode
    exact (hunsplit node hnode).1
  . intro C partitions hruns
    obtain ⟨hasBuilt, stream, rfl⟩ := hunsplit.runs hruns
    exact ⟨hasBuilt, stream, rfl, (allRows_singleton stream).symm⟩

end

def joinInUnion : IndexFilter Nat :=
  .or [
    .single (idIndex false [[1, 2]]) (.literal .null),
    .and [
      .single (idIndex true [[1], [3]]) (.literal .null),
      .single (idIndex true [[3]]) (.literal .null)
    ]
  ]

-- The scan yields the keys 1 and 2 and the join the key 3, of which the limit keeps two.
theorem joinInUnion_runs
    : ∃ plan, RecordFetchExec.buildScanExec DataFusion.reference .sequential joinInUnion (some 2)
          = .ok plan ∧
        plan.Runs (fun _ => True) [[[[some 1], [some 2]]]] := by
  refine ⟨_, rfl, [[[some 1], [some 2], [some 3]]], [[[some 1], [some 2]]], ?_, rfl, rfl, ?_⟩
  . refine ⟨by decide, _, _, _, ⟨[[[[some 1], [some 2]]], [[[some 3]]]], ?_, rfl⟩,
      ExecutionPlan.merges_singleton _ _, trivial, rfl, ?_, ?_⟩
    . refine ⟨_, _, _, rfl, ⟨_, rfl, rfl⟩, ExecutionPlan.merges_singleton _ _, _, _, _, rfl, ?_,
        ExecutionPlan.merges_singleton _ _, rfl⟩
      refine ⟨[[[some 3]]], _, ?_, rfl, rfl, fun _ => PlanProperties.holdsAll_of_row _ rfl⟩
      refine ⟨[[[[some 3, some 3]]]], ?_, rfl, fun _ => PlanProperties.holdsAll_of_row _ rfl⟩
      refine ⟨_, _, _, _, _, ⟨_, rfl, rfl⟩, ⟨_, rfl, rfl⟩, ExecutionPlan.merges_singleton _ _,
        ExecutionPlan.merges_singleton _ _, trivial, rfl, ?_⟩
      intro _
      exact ⟨by decide, fun _ _ => PlanProperties.holdsAll_of_row _ rfl⟩
    . decide
    . intro _
      exact PlanProperties.holdsAll_of_unordered rfl rfl _
  . intro _
    exact PlanProperties.holdsAll_of_unordered rfl rfl _

theorem joinInUnion_plan_complete
    : ∃ plan, RecordFetchExec.buildScanExec DataFusion.reference .sequential joinInUnion (some 2)
          = .ok plan ∧
        (∀ node ∈ plan.nodes, node.partitionCount = 1) ∧
          plan.Runs (fun step => True ∧ step.AsBuilt) [[[[some 1], [some 2]]]] ∧
            ∃ stream, RecordFetchExec.inputStream 0 [[[[some 1], [some 2]]]] = .ok stream ∧
              stream.flatten = allRows [[[[some 1], [some 2]]]] := by
  obtain ⟨plan, hplan, hruns⟩ := joinInUnion_runs
  have hcomplete :=
    RecordFetchExec.sequential_plan_complete DataFusion.reference_partitions hplan
  exact ⟨plan, hplan, hcomplete.1, hcomplete.2 _ _ hruns⟩

end IndexProvider
