import IndexProvider.Impl.FetchStream
import Mathlib.Data.List.Infix
import Mathlib.Order.RelClasses
import Mathlib.Data.Prod.Lex

/-!
This module contains what a client of `RecordFetchStream` sees: the batchwise fetch of the input,
whatever the timing of the input and of the fetches.
-/

namespace IndexProvider

open Polling

variable {V R σ φ F : Type}

namespace RecordFetchStream

/--
The batches fetched for a list of input items, up to and including the first error of the input or
of a fetch. `k` counts the fetches made before.
-/
def fetchAll (fetches : Nat → Batch V → FetchScript R) :
    Nat → List (Result (Batch V)) → List (Result (List R))
  | _, [] => []
  | _, .error e :: _ => [.error e]
  | k, .ok batch :: items =>
    if batch.length > 0 then
      match (fetches k batch).result with
      | .error e => [.error e]
      | .ok fetched =>
        if fetched.length > 0 then
          .ok fetched :: fetchAll fetches (k + 1) items
        else
          fetchAll fetches (k + 1) items
    else
      fetchAll fetches k items

def fetchedBatches (fetches : Nat → Batch V → FetchScript R) :
    Nat → List (Result (Batch V)) → List (Batch V)
  | _, [] => []
  | _, .error _ :: _ => []
  | k, .ok batch :: items =>
    if batch.length > 0 then
      match (fetches k batch).result with
      | .error _ => [batch]
      | .ok _ => batch :: fetchedBatches fetches (k + 1) items
    else
      fetchedBatches fetches k items

def fetchCalls (actions : List (FetchAction V)) : List (Batch V) :=
  actions.filterMap fun
    | .fetch batch => some batch
    | _ => none

/--
The actions alternate between polls of the input, while no fetch is in flight, and polls of the one
fetch in flight.
-/
def Alternates (inFlight : Bool) : List (FetchAction V) → Prop
  | [] => True
  | .pollInput _ :: actions => inFlight = false ∧ Alternates false actions
  | .fetch batch :: actions => inFlight = false ∧ batch ≠ [] ∧ Alternates true actions
  | .pollFetch pending :: actions => inFlight = true ∧ Alternates pending actions

def Ends (r : Poll (Option (Result (List R)))) : Prop :=
  r = .ready none ∨ ∃ e, r = .ready (some (.error e))

theorem turn_ends {env : FetchEnv V R σ φ F} {s t : FetchState σ φ F} {es : List (FetchAction V)}
    {r : Poll (Option (Result (List R)))} (h : pollNextTurn env s = (es, .done r t)) (hr : Ends r)
    : t = .error := by
  unfold pollNextTurn at h
  split at h
  . split at h
    . split at h <;> cases h
    . cases h
      rfl
    . cases h
      rfl
    . cases h
      simp [Ends] at hr
  . split at h
    . split at h
      . cases h
        simp [Ends] at hr
      . cases h
    . cases h
      rfl
    . cases h
      simp [Ends] at hr
  . cases h
    rfl

theorem pollNext_ends {env : FetchEnv V R σ φ F} {s t : FetchState σ φ F} {es : List (FetchAction V)}
    {r : Poll (Option (Result (List R)))} (h : PollNext env s es r t) (hr : Ends r)
    : t = .error := by
  obtain ⟨_, _, _, -, hturn, -⟩ := h.last_turn
  exact turn_ends hturn hr

section Scripts

variable (fetches : Nat → Batch V → FetchScript R)

abbrev ScriptState (V R : Type) := FetchState (InputScript V) (FetchScript R) Nat

def out : ScriptState V R → List (Result (List R))
  | .readingInput input k => fetchAll fetches k input.items
  | .fetching ⟨fut, input, k⟩ =>
    match fut.result with
    | .error e => [.error e]
    | .ok fetched =>
      if fetched.length > 0 then
        .ok fetched :: fetchAll fetches k input.items
      else
        fetchAll fetches k input.items
  | .error => []

def toFetch : ScriptState V R → List (Batch V)
  | .readingInput input k => fetchedBatches fetches k input.items
  | .fetching ⟨fut, input, k⟩ =>
    match fut.result with
    | .error _ => []
    | .ok _ => fetchedBatches fetches k input.items
  | .error => []

@[simp]
theorem items_nil : InputScript.items ([] : InputScript V) = [] := rfl

@[simp]
theorem items_pending (input : InputScript V)
    : InputScript.items (.pending :: input) = input.items := rfl

@[simp]
theorem items_ready (item : Result (Batch V)) (input : InputScript V)
    : InputScript.items (.ready item :: input) = item :: input.items := rfl

-- What the input still holds, then how often the fetch in flight is pending.
def work : ScriptState V R → Nat ×ₗ Nat
  | .readingInput input _ => toLex (2 * input.length + 1, 0)
  | .fetching ⟨fut, input, _⟩ => toLex (2 * input.length + 2, fut.pends)
  | .error => toLex (0, 0)

def TurnKeeps (s : ScriptState V R) (actions : List (FetchAction V)) :
    Turn (ScriptState V R) (Poll (Option (Result (List R)))) → Prop
  | .again t =>
    out fetches s = out fetches t ∧ toFetch fetches s = fetchCalls actions ++ toFetch fetches t ∧
      work t < work s
  | .done r t =>
    Yields (out fetches) s r t ∧ toFetch fetches s = fetchCalls actions ++ toFetch fetches t ∧
      (r = .ready none ∨ work t < work s)

theorem turnKeeps (s : ScriptState V R)
    : TurnKeeps fetches s (pollNextTurn (scriptEnv fetches) s).1
        (pollNextTurn (scriptEnv fetches) s).2 := by
  match s with
  | .error => simp [pollNextTurn, TurnKeeps, Yields, out, toFetch, fetchCalls]
  | .readingInput [] k =>
    simp [pollNextTurn, scriptEnv, TurnKeeps, Yields, out, toFetch, fetchCalls, fetchAll,
      fetchedBatches]
  | .readingInput (.pending :: input) k =>
    simp [pollNextTurn, scriptEnv, TurnKeeps, Yields, out, toFetch, fetchCalls, work,
      Prod.Lex.toLex_lt_toLex]
  | .readingInput (.ready (.error e) :: input) k =>
    simp [pollNextTurn, scriptEnv, TurnKeeps, Yields, out, toFetch, fetchCalls, fetchAll,
      fetchedBatches, work, Prod.Lex.toLex_lt_toLex]
  | .readingInput (.ready (.ok batch) :: input) k =>
    by_cases hbatch : batch.length > 0
    . cases hresult : (fetches k batch).result with
      | error e =>
        simp [pollNextTurn, scriptEnv, TurnKeeps, out, toFetch, fetchCalls, fetchAll,
          fetchedBatches, hbatch, hresult, work, Prod.Lex.toLex_lt_toLex]
        omega
      | ok fetched =>
        simp [pollNextTurn, scriptEnv, TurnKeeps, out, toFetch, fetchCalls, fetchAll,
          fetchedBatches, hbatch, hresult, work, Prod.Lex.toLex_lt_toLex]
        omega
    . simp [pollNextTurn, scriptEnv, TurnKeeps, out, toFetch, fetchCalls, fetchAll,
        fetchedBatches, hbatch, work, Prod.Lex.toLex_lt_toLex]
  | .fetching ⟨⟨0, .error e⟩, input, k⟩ =>
    simp [pollNextTurn, FetchFuture.poll, scriptEnv, TurnKeeps, Yields, out, toFetch, fetchCalls,
      work, Prod.Lex.toLex_lt_toLex]
  | .fetching ⟨⟨0, .ok fetched⟩, input, k⟩ =>
    by_cases hfetched : fetched.length > 0
    . simp [pollNextTurn, FetchFuture.poll, scriptEnv, TurnKeeps, Yields, out, toFetch, fetchCalls,
        hfetched, work, Prod.Lex.toLex_lt_toLex]
    . simp [pollNextTurn, FetchFuture.poll, scriptEnv, TurnKeeps, out, toFetch, fetchCalls,
        hfetched, work, Prod.Lex.toLex_lt_toLex]
  | .fetching ⟨⟨pends + 1, result⟩, input, k⟩ =>
    simp [pollNextTurn, FetchFuture.poll, scriptEnv, TurnKeeps, Yields, out, toFetch, fetchCalls,
      work, Prod.Lex.toLex_lt_toLex]

theorem fetchCalls_append (xs ys : List (FetchAction V))
    : fetchCalls (xs ++ ys) = fetchCalls xs ++ fetchCalls ys := by
  simp [fetchCalls]

variable {fetches}

theorem pollNext_keeps {s t : ScriptState V R} {actions : List (FetchAction V)}
    {r : Poll (Option (Result (List R)))}
    (h : PollNext (scriptEnv fetches) s actions r t)
    : Yields (out fetches) s r t ∧ toFetch fetches s = fetchCalls actions ++ toFetch fetches t ∧
        (r = .ready none ∨ work t < work s) := by
  induction h with
  | @done s _ _ _ hturn =>
    have hkeeps := turnKeeps fetches s
    rw [hturn] at hkeeps
    exact hkeeps
  | @again s _ t actions r _ hturn _ ih =>
    have hkeeps := turnKeeps fetches s
    rw [hturn] at hkeeps
    obtain ⟨hout, htoFetch, hwork⟩ := hkeeps
    obtain ⟨hyields, htoFetch', hwork'⟩ := ih
    refine ⟨hyields.of_eq hout, ?_, ?_⟩
    . rw [htoFetch, htoFetch', fetchCalls_append, List.append_assoc]
    . exact hwork'.imp_right (fun hwork' => lt_trans hwork' hwork)

theorem pollNext_error {env : FetchEnv V R σ φ F} {t : FetchState σ φ F}
    {actions : List (FetchAction V)} {r : Poll (Option (Result (List R)))}
    (h : PollNext env .error actions r t)
    : actions = [] ∧ r = .ready none ∧ t = .error :=
  h.unique (.done rfl)

variable (fetches) in
theorem pollNext_returns (s : ScriptState V R)
    : ∃ actions r t, PollNext (scriptEnv fetches) s actions r t := by
  refine returns_of_wellFounded (InvImage.wf work wellFounded_lt) ?_ s
  intro s actions t hturn
  have hkeeps := turnKeeps fetches s
  rw [hturn] at hkeeps
  exact hkeeps.2.2

-- One poll skips an empty batch, fetches the next one and waits for the fetch.
example
    : PollNext (scriptEnv fun _ batch => ⟨1, .ok batch⟩)
        (new [.ready (.ok []), .ready (.ok [[some 1]])] 0)
        [.pollInput false, .pollInput false, .fetch [[some 1]], .pollFetch true]
        .pending
        (.fetching ⟨⟨0, .ok [[some 1]]⟩, [], 1⟩) :=
  returns_iff_loop.mpr ⟨3, rfl⟩

theorem pollAll_calls {s t : ScriptState V R}
    {ps : List (List (FetchAction V) × Poll (Option (Result (List R))))}
    (h : PollAll (scriptEnv fetches) s ps t)
    : toFetch fetches s = fetchCalls (actions ps) ++ toFetch fetches t := by
  induction h with
  | nil => rfl
  | cons hpoll _ ih =>
    rw [(pollNext_keeps hpoll).2.1, ih, actions_cons, fetchCalls_append, List.append_assoc]

theorem pollAll_ended {s t : ScriptState V R}
    {ps : List (List (FetchAction V) × Poll (Option (Result (List R))))}
    (h : PollAll (scriptEnv fetches) s ps t) (hend : none ∈ readyItems ps)
    : t = .error := by
  induction h with
  | nil => simp at hend
  | @cons _ _ r _ _ _ hpoll hpolls ih =>
    match r with
    | .pending => exact ih hend
    | .ready (some item) =>
      apply ih
      simpa using hend
    | .ready none =>
      cases pollNext_ends hpoll (.inl rfl)
      exact (polls_of_fixed rfl hpolls).1

theorem pollAll_ends (s : ScriptState V R)
    : ∃ bound, ∀ ps t,
        PollAll (scriptEnv fetches) s ps t → bound ≤ ps.length → none ∈ readyItems ps := by
  apply polls_end (InvImage.wf work wellFounded_lt) (pollNext_returns fetches)
  intro s es r t hpoll
  exact (pollNext_keeps hpoll).2.2

theorem pollAll_complete (s : ScriptState V R)
    : ∃ bound, ∀ ps t,
        PollAll (scriptEnv fetches) s ps t
          →
        bound ≤ ps.length
          →
        (∃ n, readyItems ps = (out fetches s).map some ++ List.replicate (n + 1) none) ∧
          fetchCalls (actions ps) = toFetch fetches s := by
  obtain ⟨bound, hbound⟩ := @pollAll_ends V R fetches s
  refine ⟨bound, ?_⟩
  intro ps t hpolls hlength
  have hend := hbound ps t hpolls hlength
  refine ⟨(polls_complete (fun _ _ _ _ hpoll => (pollNext_keeps hpoll).1) hpolls hend).1, ?_⟩
  rw [pollAll_calls hpolls, pollAll_ended hpolls hend, toFetch, List.append_nil]

theorem fetchAll_congr {fetches' : Nat → Batch V → FetchScript R}
    (h : ∀ k batch, (fetches' k batch).result = (fetches k batch).result) (k : Nat)
    (items : List (Result (Batch V)))
    : fetchAll fetches' k items = fetchAll fetches k items := by
  induction items generalizing k with
  | nil => rfl
  | cons item items ih =>
    cases item with
    | error e => rfl
    | ok batch => simp only [fetchAll, h, ih]

theorem pollAll_prefix {s t : ScriptState V R}
    {ps : List (List (FetchAction V) × Poll (Option (Result (List R))))}
    (h : PollAll (scriptEnv fetches) s ps t)
    : ∃ n, ∀ m, n ≤ m → readyItems ps <+: (out fetches s).map some ++ List.replicate m none :=
  polls_prefix (fun _ _ _ _ hpoll => (pollNext_keeps hpoll).1) h

end Scripts

section AnyEnvironment

variable {env : FetchEnv V R σ φ F}

def inFlight : FetchState σ φ F → Bool
  | .fetching _ => true
  | _ => false

theorem turn_alternates {s t : FetchState σ φ F} {es : List (FetchAction V)}
    {next : Turn (FetchState σ φ F) (Poll (Option (Result (List R))))}
    (h : pollNextTurn env s = (es, next)) (hnext : next = .again t ∨ ∃ r, next = .done r t)
    : ∀ rest, Alternates (inFlight t) rest → Alternates (inFlight s) (es ++ rest) := by
  intro rest hrest
  unfold pollNextTurn at h
  split at h
  . split at h
    . split at h
      . next hbatch =>
        cases h
        have hne := List.ne_nil_of_length_pos hbatch
        rcases hnext with hnext | ⟨_, hnext⟩
        . cases hnext
          simpa [Alternates, inFlight, hne] using hrest
        . cases hnext
      . cases h
        rcases hnext with hnext | ⟨_, hnext⟩ <;> cases hnext
        simpa [Alternates, inFlight] using hrest
    all_goals
      cases h
      rcases hnext with hnext | ⟨_, hnext⟩ <;> cases hnext
      simpa [Alternates, inFlight] using hrest
  . split at h
    . split at h
      all_goals
        cases h
        rcases hnext with hnext | ⟨_, hnext⟩ <;> cases hnext
        simpa [Alternates, inFlight] using hrest
    all_goals
      cases h
      rcases hnext with hnext | ⟨_, hnext⟩ <;> cases hnext
      simpa [Alternates, inFlight] using hrest
  . cases h
    rcases hnext with hnext | ⟨_, hnext⟩ <;> cases hnext
    simpa [Alternates, inFlight] using hrest

theorem pollNext_alternates {s t : FetchState σ φ F} {es : List (FetchAction V)}
    {r : Poll (Option (Result (List R)))}
    (h : PollNext env s es r t)
    : ∀ rest, Alternates (inFlight t) rest → Alternates (inFlight s) (es ++ rest) := by
  induction h with
  | done hturn => exact turn_alternates hturn (.inr ⟨_, rfl⟩)
  | again hturn _ ih =>
    intro rest hrest
    rw [List.append_assoc]
    exact turn_alternates hturn (.inl rfl) _ (ih rest hrest)

theorem pollAll_alternates {s t : FetchState σ φ F}
    {ps : List (List (FetchAction V) × Poll (Option (Result (List R))))}
    (h : PollAll env s ps t)
    : Alternates (inFlight s) (actions ps) := by
  induction h with
  | nil => simp [Alternates]
  | cons hpoll _ ih => exact pollNext_alternates hpoll _ ih

theorem turn_done_ne_nil {s t : FetchState σ φ F} {es : List (FetchAction V)} {batch : List R}
    (h : pollNextTurn env s = (es, .done (.ready (some (.ok batch))) t))
    : batch ≠ [] := by
  unfold pollNextTurn at h
  split at h
  . split at h
    . split at h <;> cases h
    all_goals cases h
  . split at h
    . split at h
      . next hbatch =>
        cases h
        exact List.ne_nil_of_length_pos hbatch
      . cases h
    all_goals cases h
  . cases h

theorem pollNext_ne_nil {s t : FetchState σ φ F} {es : List (FetchAction V)}
    {r : Poll (Option (Result (List R)))} {batch : List R}
    (h : PollNext env s es r t) (hr : r = .ready (some (.ok batch)))
    : batch ≠ [] := by
  induction h with
  | done hturn =>
    subst hr
    exact turn_done_ne_nil hturn
  | again _ _ ih => exact ih hr

theorem pollAll_ne_nil {s t : FetchState σ φ F}
    {ps : List (List (FetchAction V) × Poll (Option (Result (List R))))}
    (h : PollAll env s ps t)
    : ∀ batch, some (.ok batch) ∈ readyItems ps → batch ≠ [] := by
  induction h with
  | nil => simp
  | @cons _ _ r _ _ _ hpoll _ ih =>
    intro batch hbatch
    cases r with
    | pending => exact ih batch hbatch
    | ready item =>
      rw [readyItems_ready] at hbatch
      cases List.mem_cons.mp hbatch with
      | inl hitem =>
        subst hitem
        exact pollNext_ne_nil hpoll rfl
      | inr hbatch => exact ih batch hbatch

end AnyEnvironment

/--
Polling `RecordFetchStream` computes the batchwise fetch of its input, whatever the timing.
-/
theorem batchwise_fetch (input : InputScript V) (fetches : Nat → Batch V → FetchScript R)
    : (∀ n, ∃ ps t, PollAll (scriptEnv fetches) (new input 0) ps t ∧ ps.length = n)
        ∧
      (∃ bound, ∀ ps t, PollAll (scriptEnv fetches) (new input 0) ps t → bound ≤ ps.length →
        (∃ n, readyItems ps
            = (fetchAll fetches 0 input.items).map some ++ List.replicate (n + 1) none) ∧
          fetchCalls (actions ps) = fetchedBatches fetches 0 input.items)
        ∧
      (∀ ps t, PollAll (scriptEnv fetches) (new input 0) ps t →
        fetchCalls (actions ps) <+: fetchedBatches fetches 0 input.items ∧
          Alternates false (actions ps) ∧
            ∀ batch, some (.ok batch) ∈ readyItems ps → batch ≠ [])
        ∧
      (∀ input' fetches', input'.items = input.items →
        (∀ k batch, (fetches' k batch).result = (fetches k batch).result) →
          ∀ ps t ps' t', PollAll (scriptEnv fetches) (new input 0) ps t →
            PollAll (scriptEnv fetches') (new input' 0) ps' t' →
              readyItems ps <+: readyItems ps' ∨ readyItems ps' <+: readyItems ps) := by
  refine ⟨?_, pollAll_complete _, ?_, ?_⟩
  . intro n
    exact polls_of_returns (pollNext_returns fetches) n _
  . intro ps t hpolls
    refine ⟨⟨_, (pollAll_calls hpolls).symm⟩, pollAll_alternates hpolls, pollAll_ne_nil hpolls⟩
  . intro input' fetches' hitems hresult ps t ps' t' hpolls hpolls'
    have hout : out fetches' (new input' 0) = out fetches (new input 0) := by
      simp only [out, new, hitems, fetchAll_congr hresult]
    obtain ⟨n, hn⟩ := pollAll_prefix hpolls
    obtain ⟨n', hn'⟩ := pollAll_prefix hpolls'
    have hps := hn (max n n') (le_max_left _ _)
    have hps' := hn' (max n n') (le_max_right _ _)
    rw [hout] at hps'
    exact List.prefix_or_prefix_of_prefix hps hps'

end RecordFetchStream

end IndexProvider
