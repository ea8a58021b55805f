import IndexProvider.Library.Collect
import IndexProvider.Semantics.Streaming

/-!
This module relates the streams of an execution to the relational meaning of its plan: they agree,
where every operator finds what it relies on.
-/

namespace IndexProvider

open NamedTuple Bags Sorting StreamingGroups

variable {V : Type} [Ord V]

omit [Ord V] in
theorem allRows_singleton (stream : RecordStream V) : allRows [stream] = stream.flatten := by
  simp [allRows]

omit [Ord V] in
theorem allRows_flatten (streams : List (List (RecordStream V)))
    : allRows streams.flatten = (streams.map allRows).flatten := by
  induction streams with
  | nil => rfl
  | cons partitions streams ih =>
    rw [List.flatten_cons, List.map_cons, List.flatten_cons, ← ih]
    simp [allRows]

theorem ExecutionPlan.Merges.perm {C : Step V → Prop} {p : PlanProperties}
    {partitions : List (RecordStream V)} {stream : RecordStream V}
    (h : Merges C p partitions stream)
    : stream.flatten.Perm (allRows partitions) := by
  unfold Merges at h
  split at h
  . rw [h, allRows_singleton]
  . exact h.2.1

theorem ExecutionPlan.Merges.holds {C : Step V → Prop} {p : PlanProperties}
    {partitions : List (RecordStream V)} {stream : RecordStream V}
    (h : Merges C p partitions stream) (hp : p.HoldsAll partitions)
    : p.Holds stream.flatten := by
  unfold Merges at h
  split at h
  . apply hp
    simp [h]
  . exact h.2.2 hp

theorem PlanProperties.holdsAll_of_unordered {p : PlanProperties}
    (horderings : p.eqProperties.orderings = []) (houtput : p.outputOrdering = none)
    (partitions : List (RecordStream V))
    : p.HoldsAll partitions := by
  intro partition _
  constructor
  . simp [horderings]
  . simp [houtput]

theorem PlanProperties.holdsAll_of_row (p : PlanProperties) {stream : RecordStream V} {row : Row V}
    (h : stream.flatten = [row])
    : p.HoldsAll [stream] := by
  intro partition hpartition
  rw [List.mem_singleton.mp hpartition, h]
  exact ⟨fun _ _ => List.pairwise_singleton _ _, fun _ _ => List.pairwise_singleton _ _⟩

variable [DecidableEq V]

namespace Step

def Clean : Step V → Prop
  | .merge _ => True
  | .mergeJoin on sortOptions ls rs => MergeSorted on sortOptions ls rs
  | .dedup order groups => NeverReopens order [] groups

end Step

namespace ExecutionPlan

variable {C : Step V → Prop}

theorem runsAll_iff {inputs : List (ExecutionPlan V)} {streams : List (List (RecordStream V))}
    : RunsAll C inputs streams ↔ List.Forall₂ (Runs C) inputs streams := by
  induction inputs generalizing streams with
  | nil => simp [RunsAll]
  | cons input inputs ih =>
    simp only [RunsAll, List.forall₂_cons_left_iff, ih]
    constructor
    . rintro ⟨partitions, streams', rfl, hruns, hall⟩
      exact ⟨partitions, streams', hruns, hall, rfl⟩
    . rintro ⟨partitions, streams', hruns, hall, rfl⟩
      exact ⟨partitions, streams', rfl, hruns, hall⟩

def RunsSingle (C : Step V → Prop) (input : ExecutionPlan V) (stream : RecordStream V) : Prop :=
  ∃ partitions, input.Runs C partitions ∧ Merges C input.properties partitions stream

theorem runsSingles_iff {inputs : List (ExecutionPlan V)} {streams : List (RecordStream V)}
    : RunsSingles C inputs streams ↔ List.Forall₂ (RunsSingle C) inputs streams := by
  induction inputs generalizing streams with
  | nil => simp [RunsSingles]
  | cons input inputs ih =>
    simp only [RunsSingles, RunsSingle, List.forall₂_cons_left_iff, ih]
    constructor
    . rintro ⟨partitions, stream, streams', rfl, hruns, hmerges, hall⟩
      exact ⟨stream, streams', ⟨partitions, hruns, hmerges⟩, hall, rfl⟩
    . rintro ⟨stream, streams', ⟨partitions, hruns, hmerges⟩, hall, rfl⟩
      exact ⟨partitions, stream, streams', rfl, hruns, hmerges, hall⟩

omit [Ord V] in
theorem streamGroups_perm_dedup {κ : Type} [DecidableEq κ] {order : InputOrder (Row V) κ}
    {batches : List (List (Row V))} (h : NeverReopens order [] batches)
    : (streamGroups order [] batches).Perm batches.flatten.dedup := by
  have hnodup := (nodup_streamGroups_iff List.nodup_nil).mpr h
  apply (List.perm_ext_iff_of_nodup hnodup (List.nodup_dedup _)).mpr
  intro row
  simp [mem_streamGroups]

theorem Runs.emits (hC : ∀ step, C step → step.Clean) {plan : ExecutionPlan V}
    {partitions : List (RecordStream V)} (h : plan.Runs C partitions)
    : plan.Emits (allRows partitions) := by
  induction plan generalizing partitions with
  | indexScan p index filters limit =>
    obtain ⟨batches, hbatches, rfl⟩ := h
    exact ⟨batches, hbatches, allRows_singleton _⟩
  | sequentialUnion p inputs ih =>
    obtain ⟨streams, hstreams, rfl⟩ := h
    obtain ⟨outs, houts, hperm⟩ := Collect.forall₂_sim_of_mem (Q := Emits)
      (T := fun stream out => List.Perm (List.flatten stream) out) (runsSingles_iff.mp hstreams) (by
        intro input hinput stream hrun
        obtain ⟨partitions, hruns, hmerges⟩ := hrun
        exact ⟨_, ih input hinput hruns, hmerges.perm⟩)
    refine ⟨outs, emitsAll_iff.mpr houts, ?_⟩
    rw [allRows_singleton, List.flatten_flatten]
    apply List.Perm.flatten_congr
    rw [List.forall₂_map_left_iff]
    exact hperm
  | projection p exprs input ih =>
    obtain ⟨inputs, hinputs, rfl, -⟩ := h
    refine ⟨_, ih hinputs, ?_⟩
    simp [allRows, List.map_flatten, Function.comp_def]
  | hashJoin p left right on ihl ihr =>
    obtain ⟨lefts, rights, ls, hlefts, hrights, hls, hjoin, -⟩ := h
    refine ⟨_, _, ihl hlefts, ihr hrights, ?_⟩
    have hflatten : (allRows partitions).Perm
        ((rights.map List.flatten).map (joinRows on ls.flatten)).flatten := by
      apply List.Perm.flatten_congr
      rw [List.map_map, List.forall₂_map_left_iff, List.forall₂_map_right_iff]
      exact hjoin.flip
    apply hflatten.trans
    apply (innerJoin_flatten_right _ _).symm.trans
    exact innerJoin_perm hls.perm (.refl _)
  | sortMergeJoin p left right on sortOptions ihl ihr =>
    obtain ⟨lefts, rights, ls, rs, out, hlefts, hrights, hls, hrs, hstep, rfl, hjoin⟩ := h
    refine ⟨_, _, ihl hlefts, ihr hrights, ?_⟩
    rw [allRows_singleton]
    apply (hjoin (hC _ hstep)).1.trans
    exact innerJoin_perm hls.perm hrs.perm
  | union p inputs ih =>
    obtain ⟨streams, hstreams, rfl⟩ := h
    refine ⟨streams.map allRows, ?_, ?_⟩
    . rw [emitsAll_iff, List.forall₂_map_right_iff]
      apply Collect.forall₂_imp_of_mem (runsAll_iff.mp hstreams)
      intro input hinput partitions hruns
      exact ih input hinput hruns
    . rw [allRows_flatten]
  | aggregate p groupBy input ih =>
    obtain ⟨hgroupBy, inputs, stream, out, hinputs, hstream, hstep, rfl, hout, -⟩ := h
    refine ⟨hgroupBy, _, ih hinputs, ?_⟩
    rw [allRows_singleton]
    apply hout.trans
    -- No group reopens in a clean step, so grouping the stream is deduplication.
    apply (streamGroups_perm_dedup (hC _ hstep)).trans
    apply List.Perm.dedup
    rw [← List.map_flatten]
    exact hstream.perm.map _
  | localLimit p input fetch ih =>
    obtain ⟨stream, out, hinput, rfl, hout, -⟩ := h
    refine ⟨_, ih hinput, ?_⟩
    rw [allRows_singleton, allRows_singleton, hout]
  | empty p =>
    rw [show partitions = [[]] from h]
    rfl
  | source p sources =>
    rw [show partitions = sources from h]
    exact .refl _

end ExecutionPlan

end IndexProvider
