import IndexProvider.Lemmas.Operators
import IndexProvider.Lemmas.Reference
import IndexProvider.Semantics.Streaming

/-!
This module relates the orderings that a `SequentialUnionExec` advertises to the stream it produces.
-/

namespace IndexProvider

open Std Sorting

variable {V : Type} [Ord V]

theorem LexOrdering.sorted_nil (rows : List (Row V)) : Sorted (LexOrdering.cmp []) rows :=
  List.pairwise_of_forall fun _ _ => rfl

def ExecutionPlan.Truthful (input : ExecutionPlan V) (partitions : List (RecordStream V)) : Prop :=
  ∀ partition ∈ partitions, ∀ o ∈ input.properties.eqProperties.orderings,
    Sorted o.cmp partition.flatten

theorem ExecutionPlan.Truthful.satisfies {input : ExecutionPlan V}
    {partitions : List (RecordStream V)} (h : input.Truthful partitions) {ordering : LexOrdering}
    (hordering : input.properties.eqProperties.Satisfies ordering)
    : ∀ partition ∈ partitions, Sorted ordering.cmp partition.flatten := by
  intro partition hpartition
  obtain ⟨o, ho, hstart⟩ := hordering
  exact LexOrdering.sorted_of_prefix hstart (h partition hpartition o ho)

/--
The stream of a sequential union has the advertised orderings exactly if, under every ordering that all
inputs satisfy, no partition ends above the start of a later one.
-/
theorem SequentialUnionExec.stream_ordered_iff [TransOrd V] {df : DataFusion}
    (hdf : df.UnionOrderings) {inputs : List (ExecutionPlan V)} {union : ExecutionPlan V}
    (h : tryNew df inputs = .ok union) {streams : List (List (RecordStream V))}
    (htruthful : List.Forall₂ ExecutionPlan.Truthful inputs streams) {stream : RecordStream V}
    (hstream : execute 0 streams = .ok stream)
    : (∀ o ∈ union.properties.eqProperties.orderings, Sorted o.cmp stream.flatten)
        ↔
      ∀ o : LexOrdering, o ≠ [] →
        (∀ input ∈ inputs, input.properties.eqProperties.Satisfies o) →
          InSequence o.cmp (streams.flatten.map List.flatten) := by
  match inputs with
  | [] => cases h
  | first :: rest =>
    obtain ⟨-, eq, heq, rfl⟩ := tryNew_eq_ok.mp h
    cases hstream
    have hsatisfies := hdf.calculateUnion _ _ _ heq
    have hparts : ∀ o : LexOrdering,
        (∀ input ∈ first :: rest, input.properties.eqProperties.Satisfies o) →
          (Sorted o.cmp streams.flatten.flatten.flatten ↔
            InSequence o.cmp (streams.flatten.map List.flatten)) := by
      intro o ho
      rw [List.flatten_flatten]
      apply sorted_flatten_iff
      intro rows hrows
      obtain ⟨partition, hpartition, rfl⟩ := List.mem_map.mp hrows
      obtain ⟨partitions, hpartitions, hpartition⟩ := List.mem_flatten.mp hpartition
      obtain ⟨input, hinput, htruth⟩ := Collect.forall₂_of_mem_right htruthful hpartitions
      exact htruth.satisfies (ho input hinput) partition hpartition
    have hinputs : ∀ o : LexOrdering, o ≠ [] →
        ((∀ input ∈ first :: rest, input.properties.eqProperties.Satisfies o) ↔
          eq.Satisfies o) := by
      intro o hne
      rw [hsatisfies o hne]
      simp only [List.mem_map, forall_exists_index, and_imp, forall_apply_eq_imp_iff₂]
    constructor
    . intro hadvertised o hne ho
      obtain ⟨o', ho', hstart⟩ := (hinputs o hne).mp ho
      exact (hparts o ho).mp (LexOrdering.sorted_of_prefix hstart (hadvertised o' ho'))
    . intro hsequence o ho
      by_cases hne : o = []
      . rw [hne]
        exact LexOrdering.sorted_nil _
      . have hall := (hinputs o hne).mpr ⟨o, ho, List.prefix_refl o⟩
        exact (hparts o hall).mpr (hsequence o hne hall)

def sortedSource (ids : List Nat) : ExecutionPlan Nat :=
  .source (DataFusion.properties idSchema [idSchema.ordering ["id"]] 1)
    [[ids.map fun id => [some id]]]

def sortedStreams (ids : List Nat) : List (RecordStream Nat) := [[ids.map fun id => [some id]]]

theorem sortedSource_truthful {ids : List Nat}
    (h : Sorted (idSchema.ordering ["id"]).cmp (ids.map fun id => [some id]))
    : (sortedSource ids).Truthful (sortedStreams ids) := by
  intro partition hpartition o ho
  simp only [sortedStreams, List.mem_singleton] at hpartition
  have hordering : o = idSchema.ordering ["id"] := List.mem_singleton.mp ho
  rw [hpartition, hordering]
  simpa using h

theorem interleaved_inputs_break_ordering
    : DataFusion.reference.UnionOrderings ∧
        ∃ union stream,
          SequentialUnionExec.tryNew DataFusion.reference [sortedSource [1, 3], sortedSource [2, 4]]
              = .ok union ∧
            List.Forall₂ ExecutionPlan.Truthful [sortedSource [1, 3], sortedSource [2, 4]]
                [sortedStreams [1, 3], sortedStreams [2, 4]] ∧
              SequentialUnionExec.execute 0 [sortedStreams [1, 3], sortedStreams [2, 4]]
                  = .ok stream ∧
                ∃ o ∈ union.properties.eqProperties.orderings, ¬ Sorted o.cmp stream.flatten := by
  refine ⟨DataFusion.reference_unionOrderings, _, _, rfl, ?_, rfl, idSchema.ordering ["id"], ?_, ?_⟩
  . exact .cons (sortedSource_truthful (by unfold Sorted; decide))
      (.cons (sortedSource_truthful (by unfold Sorted; decide)) .nil)
  . exact List.mem_cons_self
  . unfold Sorted
    decide

theorem sequenced_inputs_ordered
    : ∃ union stream,
        SequentialUnionExec.tryNew DataFusion.reference [sortedSource [1, 2], sortedSource [2, 4]]
            = .ok union ∧
          SequentialUnionExec.execute 0 [sortedStreams [1, 2], sortedStreams [2, 4]] = .ok stream ∧
            ((∀ o ∈ union.properties.eqProperties.orderings, Sorted o.cmp stream.flatten)
                ↔
              ∀ o : LexOrdering, o ≠ [] →
                (∀ input ∈ [sortedSource [1, 2], sortedSource [2, 4]],
                    input.properties.eqProperties.Satisfies o) →
                  InSequence o.cmp
                    (([sortedStreams [1, 2], sortedStreams [2, 4]].flatten).map List.flatten)) := by
  obtain ⟨union, hunion⟩ : ∃ union, SequentialUnionExec.tryNew DataFusion.reference
      [sortedSource [1, 2], sortedSource [2, 4]] = .ok union := ⟨_, rfl⟩
  obtain ⟨stream, hstream⟩ : ∃ stream, SequentialUnionExec.execute 0
      [sortedStreams [1, 2], sortedStreams [2, 4]] = .ok stream := ⟨_, rfl⟩
  refine ⟨union, stream, hunion, hstream, ?_⟩
  apply SequentialUnionExec.stream_ordered_iff DataFusion.reference_unionOrderings hunion _ hstream
  exact .cons (sortedSource_truthful (by unfold Sorted; decide))
    (.cons (sortedSource_truthful (by unfold Sorted; decide)) .nil)

end IndexProvider
