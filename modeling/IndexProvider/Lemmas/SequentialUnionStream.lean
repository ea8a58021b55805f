import IndexProvider.Library.Collect
import IndexProvider.Impl.SequentialUnionStream
import IndexProvider.Semantics.Streaming

/-!
This module contains what a client of `SequentialUnionStream` sees: the items of all partition
streams one stream after another, whatever the timing of these.
-/

namespace IndexProvider

open Polling

variable {V σ : Type}

namespace SequentialUnionStream

/--
A stream is polled only after all earlier ones have ended, and never after its own end.
-/
def InSequence (polled : List (Nat × StreamPoll V)) : Prop :=
  ∀ before idx r after, polled = before ++ (idx, r) :: after →
    (∀ j < idx, (j, .ready none) ∈ before) ∧ (idx, .ready none) ∉ before

theorem InSequence.concat {polled : List (Nat × StreamPoll V)} {idx : Nat} {r : StreamPoll V}
    (h : InSequence polled) (hearlier : ∀ j < idx, (j, .ready none) ∈ polled)
    (hidx : (idx, .ready none) ∉ polled)
    : InSequence (polled ++ [(idx, r)]) := by
  intro before idx' r' after heq
  cases List.eq_nil_or_concat after with
  | inl hnil =>
    subst hnil
    obtain ⟨rfl, hlast⟩ := List.append_inj' heq rfl
    cases hlast
    exact ⟨hearlier, hidx⟩
  | inr hconcat =>
    obtain ⟨after', last, rfl⟩ := hconcat
    rw [List.concat_eq_append, ← List.cons_append, ← List.append_assoc] at heq
    obtain ⟨rfl, -⟩ := List.append_inj' heq rfl
    exact h before idx' r' after' rfl

section AnyStreams

variable {poll : σ → StreamPoll V × σ}

/--
After the polls so far, the streams before the current one are those that have ended.
-/
structure EndedBefore (polled : List (Nat × StreamPoll V)) (s : SequentialUnionStream σ) : Prop where
  in_sequence : InSequence polled
  ended_iff : ∀ j, (j, .ready none) ∈ polled ↔ j < s.currentIndex

theorem EndedBefore.concat {polled : List (Nat × StreamPoll V)} {s t : SequentialUnionStream σ}
    {r : StreamPoll V} (h : EndedBefore polled s)
    (ht : ∀ j, j < t.currentIndex ↔ j < s.currentIndex ∨ j = s.currentIndex ∧ r = .ready none)
    : EndedBefore (polled ++ [(s.currentIndex, r)]) t := by
  constructor
  . apply h.in_sequence.concat
    . intro j hj
      exact (h.ended_iff j).mpr hj
    . rw [h.ended_iff]
      omega
  . intro j
    rw [List.mem_append, h.ended_iff, List.mem_singleton, Prod.mk.injEq, ht,
      eq_comm (a := Poll.ready none)]

theorem turn_endedBefore {polled : List (Nat × StreamPoll V)} {s t : SequentialUnionStream σ}
    {es : List (Nat × StreamPoll V)} {next : Turn (SequentialUnionStream σ) (StreamPoll V)}
    (hturn : pollNextTurn poll s = (es, next)) (hnext : next = .again t ∨ ∃ r, next = .done r t)
    (h : EndedBefore polled s)
    : EndedBefore (polled ++ es) t := by
  unfold pollNextTurn at hturn
  split at hturn
  . cases hturn
    rcases hnext with hnext | ⟨_, hnext⟩ <;> cases hnext
    rw [List.append_nil]
    exact h
  . split at hturn
    all_goals
      cases hturn
      rcases hnext with hnext | ⟨_, hnext⟩ <;> cases hnext
      apply h.concat
      intro j
      simp [put]
    omega

theorem pollNext_endedBefore {polled : List (Nat × StreamPoll V)} {s t : SequentialUnionStream σ}
    {es : List (Nat × StreamPoll V)} {r : StreamPoll V} (hpoll : PollNext poll s es r t)
    (h : EndedBefore polled s)
    : EndedBefore (polled ++ es) t := by
  induction hpoll generalizing polled with
  | done hturn => exact turn_endedBefore hturn (.inr ⟨_, rfl⟩) h
  | again hturn _ ih =>
    rw [← List.append_assoc]
    exact ih (turn_endedBefore hturn (.inl rfl) h)

theorem pollAll_endedBefore {polled : List (Nat × StreamPoll V)} {s t : SequentialUnionStream σ}
    {ps : List (List (Nat × StreamPoll V) × StreamPoll V)} (hpolls : PollAll poll s ps t)
    (h : EndedBefore polled s)
    : EndedBefore (polled ++ actions ps) t := by
  induction hpolls generalizing polled with
  | nil =>
    rw [actions_nil, List.append_nil]
    exact h
  | cons hpoll _ ih =>
    rw [actions_cons, ← List.append_assoc]
    exact ih (pollNext_endedBefore hpoll h)

theorem pollAll_inSequence {streams : List σ} {t : SequentialUnionStream σ}
    {ps : List (List (Nat × StreamPoll V) × StreamPoll V)} (h : PollAll poll ⟨streams, 0⟩ ps t)
    : InSequence (actions ps) := by
  have hstart : EndedBefore (σ := σ) ([] : List (Nat × StreamPoll V)) ⟨streams, 0⟩ := by
    constructor
    . intro before idx r after heq
      simp at heq
    . simp
  exact (pollAll_endedBefore h hstart).in_sequence

theorem pollNext_ended {s t : SequentialUnionStream σ} {es : List (Nat × StreamPoll V)}
    (h : PollNext poll s es (.ready none) t)
    : pollNextTurn poll t = ([], .done (.ready none) t) := by
  obtain ⟨_, u, es', -, hturn, -⟩ := h.last_turn
  have hsame := hturn
  unfold pollNextTurn at hturn
  split at hturn
  . cases hturn
    exact hsame
  . split at hturn <;> cases hturn

end AnyStreams

section Scripts

abbrev ScriptStreams (V : Type) := SequentialUnionStream (InputScript V)

def out (s : ScriptStreams V) : List (Result (Batch V)) :=
  (s.streams.drop s.currentIndex).flatMap InputScript.items

def work (s : ScriptStreams V) : Nat :=
  (s.streams.drop s.currentIndex).flatten.length

def streamsLeft (s : ScriptStreams V) : Nat := s.streams.length - s.currentIndex

variable {s t : ScriptStreams V} {script script' : InputScript V}

theorem drop_eq_cons (h : s.streams[s.currentIndex]? = some script)
    : s.streams.drop s.currentIndex = script :: s.streams.drop (s.currentIndex + 1) := by
  obtain ⟨hlt, rfl⟩ := List.getElem?_eq_some_iff.mp h
  exact List.drop_eq_getElem_cons hlt

theorem drop_put (h : s.streams[s.currentIndex]? = some script)
    : (s.put script').streams.drop s.currentIndex
        =
      script' :: s.streams.drop (s.currentIndex + 1) := by
  obtain ⟨hlt, -⟩ := List.getElem?_eq_some_iff.mp h
  unfold put
  rw [List.drop_set, if_neg (Nat.lt_irrefl _), Nat.sub_self, List.drop_eq_getElem_cons hlt,
    List.set_cons_zero]

theorem out_eq (h : s.streams[s.currentIndex]? = some script)
    : out s = script.items ++ (s.streams.drop (s.currentIndex + 1)).flatMap InputScript.items := by
  rw [out, drop_eq_cons h, List.flatMap_cons]

theorem out_put (h : s.streams[s.currentIndex]? = some script)
    : out (s.put script')
        =
      script'.items ++ (s.streams.drop (s.currentIndex + 1)).flatMap InputScript.items := by
  change ((s.put script').streams.drop s.currentIndex).flatMap InputScript.items = _
  rw [drop_put h, List.flatMap_cons]

theorem work_put (h : s.streams[s.currentIndex]? = some script)
    (hlt : script'.length < script.length)
    : work (s.put script') < work s := by
  change ((s.put script').streams.drop s.currentIndex).flatten.length < _
  rw [work, drop_put h, drop_eq_cons h, List.flatten_cons, List.flatten_cons, List.length_append,
    List.length_append]
  omega

theorem drop_next : ({ s.put script' with currentIndex := s.currentIndex + 1 } : ScriptStreams V).streams.drop
    (s.currentIndex + 1) = s.streams.drop (s.currentIndex + 1) := by
  simp [put, List.drop_set]

def TurnKeeps (s : ScriptStreams V) : Turn (ScriptStreams V) (StreamPoll V) → Prop
  | .again t => out s = out t ∧ work t = work s ∧ streamsLeft t < streamsLeft s
  | .done r t => Yields out s r t ∧ (r = .ready none ∨ work t < work s)

theorem turnKeeps (s : ScriptStreams V) : TurnKeeps s (pollNextTurn InputScript.pollNext s).2 := by
  cases hstream : s.streams[s.currentIndex]? with
  | none =>
    have hdrop : s.streams.drop s.currentIndex = [] := by
      rw [List.drop_eq_nil_iff]
      exact List.getElem?_eq_none_iff.mp hstream
    simp [pollNextTurn, hstream, TurnKeeps, Yields, out, hdrop]
  | some script =>
    match script with
    | [] =>
      obtain ⟨hlt, -⟩ := List.getElem?_eq_some_iff.mp hstream
      simp only [pollNextTurn, hstream, InputScript.pollNext, TurnKeeps]
      refine ⟨?_, ?_, ?_⟩
      . rw [out_eq hstream, out, drop_next]
        rfl
      . rw [work, work, drop_next, drop_eq_cons hstream, List.flatten_cons, List.nil_append]
      . simp only [streamsLeft, put, List.length_set]
        omega
    | .ready item :: script =>
      simp only [pollNextTurn, hstream, InputScript.pollNext, TurnKeeps, Yields]
      refine ⟨?_, .inr (work_put hstream (by simp))⟩
      rw [out_eq hstream, out_put hstream]
      rfl
    | .pending :: script =>
      simp only [pollNextTurn, hstream, InputScript.pollNext, TurnKeeps, Yields]
      refine ⟨?_, .inr (work_put hstream (by simp))⟩
      rw [out_eq hstream, out_put hstream]
      rfl

theorem pollNext_returns (s : ScriptStreams V)
    : ∃ es r t, PollNext InputScript.pollNext s es r t := by
  refine returns_of_wellFounded (InvImage.wf streamsLeft Nat.lt_wfRel.wf) ?_ s
  intro s es t hturn
  have hkeeps := turnKeeps s
  rw [hturn] at hkeeps
  exact hkeeps.2.2

theorem pollNext_keeps {es : List (Nat × StreamPoll V)} {r : StreamPoll V}
    (h : PollNext InputScript.pollNext s es r t)
    : Yields out s r t ∧ (r = .ready none ∨ work t < work s) := by
  induction h with
  | @done s _ _ _ hturn =>
    have hkeeps := turnKeeps s
    rw [hturn] at hkeeps
    exact hkeeps
  | @again s _ _ _ _ _ hturn _ ih =>
    have hkeeps := turnKeeps s
    rw [hturn] at hkeeps
    obtain ⟨hout, hwork, -⟩ := hkeeps
    obtain ⟨hyields, hwork'⟩ := ih
    rw [hwork] at hwork'
    exact ⟨hyields.of_eq hout, hwork'⟩

theorem pollAll_ends (s : ScriptStreams V)
    : ∃ bound, ∀ ps t, PollAll InputScript.pollNext s ps t → bound ≤ ps.length →
        none ∈ readyItems ps := by
  apply polls_end (InvImage.wf work Nat.lt_wfRel.wf) pollNext_returns
  intro s es r t hpoll
  exact (pollNext_keeps hpoll).2

end Scripts

theorem mapM_ofStreams (streams : List σ)
    : (List.range (PartitionedInput.ofStreams streams).partitionCount).mapM
        (PartitionedInput.ofStreams streams).execute = .ok streams := by
  rw [Collect.mapM_eq_ok, List.forall₂_iff_get]
  refine ⟨List.length_range, ?_⟩
  intro i hi hi'
  simp [PartitionedInput.ofStreams, hi']

theorem executeStreams_ofStreams (partitions : List (List σ))
    : SequentialUnionExec.executeStreams (partitions.map .ofStreams) 0
        =
      .ok ⟨partitions.flatten, 0⟩ := by
  have hstreams : (partitions.map PartitionedInput.ofStreams).mapM
        (fun input => (List.range input.partitionCount).mapM input.execute) = .ok partitions := by
    rw [Collect.mapM_eq_ok, List.forall₂_map_left_iff, List.forall₂_same]
    intro streams _
    exact mapM_ofStreams streams
  simp only [SequentialUnionExec.executeStreams, hstreams]
  rfl

-- What the execution of plans takes `SequentialUnionExec::execute` to yield are these items.
theorem items_eq_execute {scripts : List (List (InputScript V))}
    {inputs : List (List (RecordStream V))}
    (h : List.Forall₂ (List.Forall₂ fun script batches => script.items = batches.map .ok)
      scripts inputs)
    : ∃ stream, SequentialUnionExec.execute 0 inputs = .ok stream ∧
        scripts.flatten.flatMap InputScript.items = stream.map .ok := by
  refine ⟨inputs.flatten.flatten, rfl, ?_⟩
  have hflatten := List.rel_flatten h
  generalize scripts.flatten = scripts at hflatten
  generalize inputs.flatten = inputs at hflatten
  induction hflatten with
  | nil => rfl
  | cons hitems _ ih => rw [List.flatMap_cons, List.flatten_cons, List.map_append, hitems, ih]

/--
Polling the stream of `SequentialUnionExec` yields the items of all partition streams one after
another, in the order of the inputs and of their partitions, whatever the timing.
-/
theorem concatenates_streams (partitions : List (List (InputScript V)))
    : ∃ stream, SequentialUnionExec.executeStreams (partitions.map .ofStreams) 0 = .ok stream ∧
        (∀ n, ∃ ps t, PollAll InputScript.pollNext stream ps t ∧ ps.length = n)
          ∧
        (∃ bound, ∀ ps t, PollAll InputScript.pollNext stream ps t → bound ≤ ps.length →
          ∃ n, readyItems ps
            = (partitions.flatten.flatMap InputScript.items).map some
                ++ List.replicate (n + 1) none)
          ∧
        (∀ ps t, PollAll InputScript.pollNext stream ps t →
          (∃ n, readyItems ps
              <+: (partitions.flatten.flatMap InputScript.items).map some ++ List.replicate n none) ∧
            InSequence (actions ps) ∧
              ∀ before es later, ps = before ++ (es, .ready none) :: later →
                ∀ p ∈ later, p = ([], .ready none)) := by
  refine ⟨_, executeStreams_ofStreams partitions, ?_, ?_, ?_⟩
  . intro n
    exact polls_of_returns pollNext_returns n _
  . obtain ⟨bound, hbound⟩ := pollAll_ends (V := V) ⟨partitions.flatten, 0⟩
    refine ⟨bound, ?_⟩
    intro ps t hpolls hlength
    exact (polls_complete (fun _ _ _ _ hpoll => (pollNext_keeps hpoll).1) hpolls
      (hbound ps t hpolls hlength)).1
  . intro ps t hpolls
    obtain ⟨n, hn⟩ := polls_prefix (fun _ _ _ _ hpoll => (pollNext_keeps hpoll).1) hpolls
    refine ⟨⟨n, hn n (Nat.le_refl n)⟩, pollAll_inSequence hpolls, ?_⟩
    exact polls_after (fun _ _ _ hpoll => pollNext_ended hpoll) hpolls

end SequentialUnionStream

end IndexProvider
