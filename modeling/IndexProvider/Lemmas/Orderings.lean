import IndexProvider.Lemmas.Partitions

/-!
This module contains executions of plans that have the orderings they advertise: every operator finds
what it relies on.
-/

namespace IndexProvider

open Std NamedTuple Sorting StreamingGroups

variable {V : Type}

def groupOrdering (groupBy : NamedExprs) : LexOrdering → LexOrdering
  | [] => []
  | e :: ordering =>
    match groupBy.findIdx? fun g => g.1.index == e.expr.index with
    | some i => ⟨⟨e.expr.name, i⟩, e.options⟩ :: groupOrdering groupBy ordering
    | none => []

theorem orderedGroups_eq (groupBy : NamedExprs) (ordering : LexOrdering)
    : orderedGroups (some ordering) groupBy
        =
      (groupOrdering groupBy ordering).map fun e => e.expr.index := by
  unfold orderedGroups
  rw [Option.getD_some]
  induction ordering with
  | nil => rfl
  | cons e ordering ih =>
    rw [List.map_cons, groupOrdering]
    cases groupBy.findIdx? fun g => g.1.index == e.expr.index with
    | none => rfl
    | some i =>
      rw [List.takeWhile_cons_of_pos rfl, List.reduceOption_cons_of_some, ih]
      rfl

theorem cell_project {groupBy : NamedExprs} {index i : Nat}
    (h : (groupBy.findIdx? fun g => g.1.index == index) = some i) (row : Row V)
    : cell (project groupBy row) i = cell row index := by
  obtain ⟨hlt, hindex, -⟩ := List.findIdx?_eq_some_iff_getElem.mp h
  rw [beq_iff_eq] at hindex
  simp [project, cell, hlt, hindex]

theorem eq_of_cells {groupBy : NamedExprs} {r r' : Row V}
    (h : ∀ i < groupBy.length, cell (project groupBy r) i = cell (project groupBy r') i)
    : project groupBy r = project groupBy r' := by
  apply List.ext_getElem
  . simp [project]
  . intro i hi hi'
    have hcell := h i (by simpa [project] using hi)
    simpa [cell, hi, hi'] using hcell

section

variable [Ord V]

theorem groupOrdering_isLE {groupBy : NamedExprs} {ordering : LexOrdering} {r r' : Row V}
    (h : (ordering.cmp r r').isLE)
    : ((groupOrdering groupBy ordering).cmp (project groupBy r) (project groupBy r')).isLE := by
  induction ordering with
  | nil => rfl
  | cons e ordering ih =>
    unfold groupOrdering
    split
    . next i hi =>
      simp only [LexOrdering.cmp, compareLex, Ordering.isLE_then_iff_and, PhysicalSortExpr.cmp,
        cell_project hi] at h ⊢
      exact ⟨h.1, h.2.imp_right ih⟩
    . rfl

variable [DecidableEq V]

theorem dedup_clean [TransOrd V] [LawfulEqOrd V] {ordering : Option LexOrdering} {groupBy : NamedExprs}
    {stream : RecordStream V} (h : ∀ o, ordering = some o → Sorted o.cmp stream.flatten)
    : (Step.dedup (inputOrder ordering groupBy)
        (stream.map fun batch => batch.map (project groupBy))).Clean := by
  simp only [inputOrder]
  split
  . exact neverReopens_linear _ _
  . next hne =>
    obtain ⟨o, rfl⟩ : ∃ o, ordering = some o := by
      cases ordering with
      | none => exact absurd rfl hne
      | some o => exact ⟨o, rfl⟩
    rw [orderedGroups_eq]
    have hflatten : (stream.map fun batch => batch.map (project groupBy)).flatten
        = stream.flatten.map (project groupBy) := by rw [List.map_flatten]
    have hsorted : Sorted (groupOrdering groupBy o).cmp
        ([] ++ (stream.map fun batch => batch.map (project groupBy)).flatten) := by
      rw [List.nil_append, hflatten]
      apply List.Pairwise.map _ _ (h o rfl)
      intro r r' hle
      exact groupOrdering_isLE hle
    split
    . next hall =>
      apply neverReopens_sorted ⟨List.nodup_nil, hsorted, ?_⟩
      intro x hx y hy heq
      rw [List.nil_append, hflatten] at hx hy
      obtain ⟨r, -, rfl⟩ := List.mem_map.mp hx
      obtain ⟨r', -, rfl⟩ := List.mem_map.mp hy
      apply eq_of_cells
      intro i hi
      obtain ⟨e, he, rfl⟩ := List.mem_map.mp (hall i hi)
      exact LexOrdering.cmp_eq_iff.mp heq e he
    . apply neverReopens_partiallySorted _ ⟨hsorted, by simp⟩
      intro r r'
      rw [LexOrdering.cmp_eq_iff, List.map_map, List.map_map, List.map_inj_left]
      rfl

namespace ExecutionPlan

/--
The node has the orderings it advertises, as far as it is not for DataFusion to ensure, and it takes no
other orderings of its inputs for granted than they advertise. A sequential union has them only where the
streams of its inputs come in order.
-/
def Honest : ExecutionPlan V → Prop
  | .indexScan p index filters limit =>
    ∀ batches, index.scan filters limit = .ok (.complete batches) → p.Holds batches.flatten
  | .sequentialUnion p inputs => ∀ streams : List (RecordStream V),
    List.Forall₂ (fun input stream =>
        input.RunsSingle Step.Clean stream ∧ input.properties.Holds stream.flatten) inputs streams →
      p.Holds streams.flatten.flatten
  | .sortMergeJoin _ left right on sortOptions => ∀ ls rs : List (Row V),
    left.properties.Holds ls → right.properties.Holds rs → MergeSorted on sortOptions ls rs
  | .union p inputs => ∀ streams : List (List (RecordStream V)),
    List.Forall₂ (fun input partitions => input.properties.HoldsAll partitions) inputs streams →
      p.HoldsAll streams.flatten
  | .source p partitions => p.HoldsAll partitions
  | _ => True

def AllHonest (plan : ExecutionPlan V) : Prop := ∀ node ∈ plan.nodes, node.Honest

variable {C : Step V → Prop} {plan : ExecutionPlan V}

theorem Merges.clean {p : PlanProperties} {partitions : List (RecordStream V)}
    {stream : RecordStream V} (h : Merges C p partitions stream)
    : Merges Step.Clean p partitions stream := by
  unfold Merges at h ⊢
  split at h
  . next hlength => rwa [if_pos hlength]
  . next hlength =>
    rw [if_neg hlength]
    exact ⟨trivial, h.2⟩

theorem AllHonest.runs [TransOrd V] [LawfulEqOrd V] (h : plan.AllHonest)
    {partitions : List (RecordStream V)} (hruns : plan.Runs C partitions)
    : plan.Runs Step.Clean partitions ∧
        plan.properties.HoldsAll partitions := by
  induction plan generalizing partitions with
  | indexScan p index filters limit =>
    obtain ⟨batches, hbatches, rfl⟩ := hruns
    refine ⟨⟨batches, hbatches, rfl⟩, ?_⟩
    intro partition hpartition
    rw [List.mem_singleton.mp hpartition]
    exact h _ (self_mem_nodes _) batches hbatches
  | sequentialUnion p inputs ih =>
    obtain ⟨streams, hstreams, rfl⟩ := hruns
    have hinputs : List.Forall₂ (fun input stream =>
        input.RunsSingle Step.Clean stream ∧ input.properties.Holds stream.flatten) inputs streams := by
      apply Collect.forall₂_imp_of_mem (runsSingles_iff.mp hstreams)
      intro input hinput stream hrun
      obtain ⟨partitions, hruns, hmerges⟩ := hrun
      obtain ⟨hclean, hall⟩ := ih input hinput (forall_nodes_child h hinput) hruns
      exact ⟨⟨partitions, hclean, hmerges.clean⟩, hmerges.holds hall⟩
    refine ⟨⟨streams, runsSingles_iff.mpr (hinputs.imp fun _ _ h => h.1), rfl⟩, ?_⟩
    intro partition hpartition
    rw [List.mem_singleton.mp hpartition]
    exact h _ (self_mem_nodes _) streams hinputs
  | projection p exprs input ih =>
    obtain ⟨inputs, hinput, rfl, hholds⟩ := hruns
    obtain ⟨hinput', hall⟩ := ih (forall_nodes_child h (by simp [children])) hinput
    exact ⟨⟨inputs, hinput', rfl, hholds⟩, hholds hall⟩
  | hashJoin p left right on ihl ihr =>
    obtain ⟨lefts, rights, ls, hlefts, hrights, hls, hjoin, hholds⟩ := hruns
    obtain ⟨hlefts', hleft⟩ := ihl (forall_nodes_child h (by simp [children])) hlefts
    obtain ⟨hrights', hright⟩ := ihr (forall_nodes_child h (by simp [children])) hrights
    exact ⟨⟨lefts, rights, ls, hlefts', hrights', hls.clean, hjoin, hholds⟩,
      hholds (hls.holds hleft) hright⟩
  | sortMergeJoin p left right on sortOptions ihl ihr =>
    obtain ⟨lefts, rights, ls, rs, out, hlefts, hrights, hls, hrs, -, rfl, hjoin⟩ := hruns
    obtain ⟨hlefts', hleft⟩ := ihl (forall_nodes_child h (by simp [children])) hlefts
    obtain ⟨hrights', hright⟩ := ihr (forall_nodes_child h (by simp [children])) hrights
    have hleft := hls.holds hleft
    have hright := hrs.holds hright
    -- The inputs are sorted as they advertise, which is all that the merge relies on.
    have hsorted : MergeSorted on sortOptions ls.flatten rs.flatten :=
      h _ (self_mem_nodes _) _ _ hleft hright
    exact ⟨⟨lefts, rights, ls, rs, out, hlefts', hrights', hls.clean, hrs.clean, hsorted, rfl,
      hjoin⟩, (hjoin hsorted).2 hleft hright⟩
  | union p inputs ih =>
    obtain ⟨streams, hstreams, rfl⟩ := hruns
    have hinputs : List.Forall₂ (fun input partitions =>
        input.Runs Step.Clean partitions ∧
          input.properties.HoldsAll partitions) inputs streams := by
      apply Collect.forall₂_imp_of_mem (runsAll_iff.mp hstreams)
      intro input hinput partitions hruns
      exact ih input hinput (forall_nodes_child h hinput) hruns
    exact ⟨⟨streams, runsAll_iff.mpr (hinputs.imp fun _ _ h => h.1), rfl⟩,
      h _ (self_mem_nodes _) streams (hinputs.imp fun _ _ h => h.2)⟩
  | aggregate p groupBy input ih =>
    obtain ⟨hgroupBy, inputs, stream, out, hinput, hstream, -, rfl, hout, hholds⟩ := hruns
    obtain ⟨hinput', hall⟩ := ih (forall_nodes_child h (by simp [children])) hinput
    have hinputHolds := hstream.holds hall
    exact ⟨⟨hgroupBy, inputs, stream, out, hinput', hstream.clean,
      dedup_clean hinputHolds.outputOrdering, rfl, hout, hholds⟩, hholds hinputHolds⟩
  | localLimit p input fetch ih =>
    obtain ⟨stream, out, hinput, rfl, hout, hholds⟩ := hruns
    obtain ⟨hinput', hall⟩ := ih (forall_nodes_child h (by simp [children])) hinput
    exact ⟨⟨stream, out, hinput', rfl, hout, hholds⟩, hholds (hall stream (by simp))⟩
  | empty p =>
    rw [show partitions = [[]] from hruns]
    refine ⟨rfl, ?_⟩
    intro partition hpartition
    rw [List.mem_singleton.mp hpartition]
    exact ⟨fun _ _ => .nil, fun _ _ => .nil⟩
  | source p sources =>
    rw [show partitions = sources from hruns]
    exact ⟨rfl, h _ (self_mem_nodes _)⟩

theorem AllHonest.runsSingle [TransOrd V] [LawfulEqOrd V] (h : plan.AllHonest)
    {stream : RecordStream V} (hruns : plan.RunsSingle C stream)
    : plan.RunsSingle Step.Clean stream := by
  obtain ⟨partitions, hruns, hmerges⟩ := hruns
  exact ⟨partitions, (h.runs hruns).1, hmerges.clean⟩

end ExecutionPlan

end

end IndexProvider
