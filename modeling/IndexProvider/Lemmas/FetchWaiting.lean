import IndexProvider.Lemmas.FetchStream

/-!
This module contains the liveness of `RecordFetchStream`, over any behaviour of the code it polls and
any context it is polled with: it is pending only on something it keeps, and once ended it stays so.
-/

namespace IndexProvider

open Polling

variable {V R σ φ F : Type}

namespace RecordFetchStream

abbrev PollsIn {C : Type} (env : C → FetchEnv V R σ φ F) :=
  PollsWith (fun context => pollNextTurn (env context))

/--
From the state before a turn: the turn polls the input or the fetch in flight, which is pending, and
the state after the turn keeps it.
-/
inductive WaitsOn (env : FetchEnv V R σ φ F) :
    FetchState σ φ F → FetchAction V → FetchState σ φ F → Prop where
  | input {input input' fetcher} : env.pollInput input = (.pending, input') →
    WaitsOn env (.readingInput input fetcher) (.pollInput true) (.readingInput input' fetcher)
  | fetch {fut fut' input fetcher} : env.pollFetch fut = (.pending, fut') →
    WaitsOn env (.fetching ⟨fut, input, fetcher⟩) (.pollFetch true) (.fetching ⟨fut', input, fetcher⟩)

section

variable {env : FetchEnv V R σ φ F} {s t : FetchState σ φ F} {es : List (FetchAction V)}

theorem FetchFuture.poll_eq_pending {future future' : FetchFuture σ φ F}
    (h : future.poll env = (.pending, future'))
    : ∃ fut', env.pollFetch future.fut = (.pending, fut') ∧ future' = { future with fut := fut' } := by
  unfold FetchFuture.poll at h
  split at h
  all_goals cases h
  next fut hpoll => exact ⟨fut, hpoll, rfl⟩

theorem turn_waitsOn (h : pollNextTurn env s = (es, .done .pending t))
    : ∃ action, es = [action] ∧ WaitsOn env s action t := by
  unfold pollNextTurn at h
  split at h
  . split at h
    . split at h <;> cases h
    . cases h
    . cases h
    . next hpoll =>
      cases h
      exact ⟨_, rfl, .input hpoll⟩
  . split at h
    . split at h <;> cases h
    . cases h
    . next hpoll =>
      cases h
      obtain ⟨fut', hfetch, rfl⟩ := FetchFuture.poll_eq_pending hpoll
      exact ⟨_, rfl, .fetch hfetch⟩
  . cases h

theorem pollNext_waitsOn (h : PollNext env s es .pending t)
    : ∃ es' u action, GoesRound (pollNextTurn env) s es' u ∧ WaitsOn env u action t ∧
        es = es' ++ [action] := by
  obtain ⟨es', u, _, hround, hturn, rfl⟩ := h.last_turn
  obtain ⟨action, rfl, hwaits⟩ := turn_waitsOn hturn
  exact ⟨es', u, action, hround, hwaits, rfl⟩

end

theorem pollsIn_error {C : Type} {env : C → FetchEnv V R σ φ F} {u : FetchState σ φ F}
    {ps : List (C × List (FetchAction V) × Poll (Option (Result (List R))))}
    (h : PollsIn env .error ps u)
    : u = .error ∧ ∀ p ∈ ps, p.2 = ([], .ready none) := by
  generalize hs : FetchState.error = s at h
  induction h with
  | nil => simp [← hs]
  | cons hpoll _ ih =>
    subst hs
    obtain ⟨rfl, rfl, rfl⟩ := pollNext_error hpoll
    obtain ⟨hu, hps⟩ := ih rfl
    exact ⟨hu, List.forall_mem_cons.mpr ⟨rfl, hps⟩⟩

/--
Whatever the polled code does, a poll is pending only where the last thing it did was to poll, in its
own context, what the stream keeps for the next poll, and all polls after an error or the end touch
nothing and return the end.
-/
theorem waits_or_ends {C : Type} {env : C → FetchEnv V R σ φ F} {input : σ} {fetcher : F}
    {before later : List (C × List (FetchAction V) × Poll (Option (Result (List R))))} {context : C}
    {es : List (FetchAction V)} {r : Poll (Option (Result (List R)))} {u : FetchState σ φ F}
    (h : PollsIn env (new input fetcher) (before ++ (context, es, r) :: later) u)
    : (∃ s t, PollsIn env (new input fetcher) before s ∧ PollNext (env context) s es r t ∧
          PollsIn env t later u ∧
            (r = .pending → ∃ es' v action, GoesRound (pollNextTurn (env context)) s es' v ∧
              WaitsOn (env context) v action t ∧ es = es' ++ [action])) ∧
        (Ends r → (∀ p ∈ later, p.2 = ([], .ready none)) ∧
          ∀ context', PollNext (env context') u [] (.ready none) u) := by
  obtain ⟨s, hbefore, hrest⟩ := h.split
  cases hrest with
  | @cons _ _ _ _ t _ _ hpoll hlater =>
    refine ⟨⟨s, t, hbefore, hpoll, hlater, ?_⟩, ?_⟩
    . intro hr
      subst hr
      exact pollNext_waitsOn hpoll
    . intro hr
      cases pollNext_ends hpoll hr
      obtain ⟨rfl, hends⟩ := pollsIn_error hlater
      exact ⟨hends, fun _ => .done rfl⟩

section Witness

-- The input is pending, then fails, and would yield another batch after that.
abbrev failingInput : InputScript Nat :=
  [.pending, .ready (.error (.other "lost")), .ready (.ok [[some 1]])]

abbrev emptyFetches (_ : Unit) : FetchEnv Nat Nat (InputScript Nat) (FetchScript Nat) Nat :=
  scriptEnv fun _ _ => ⟨0, .ok []⟩

abbrev pendingPoll : Unit × List (FetchAction Nat) × Poll (Option (Result (List Nat))) :=
  ((), [.pollInput true], .pending)

abbrev failedPoll : Unit × List (FetchAction Nat) × Poll (Option (Result (List Nat))) :=
  ((), [.pollInput false], .ready (some (.error (.other "lost"))))

abbrev endedPoll : Unit × List (FetchAction Nat) × Poll (Option (Result (List Nat))) :=
  ((), [], .ready none)

theorem failingInput_polls
    : PollsIn emptyFetches (new failingInput 0) [pendingPoll, failedPoll, endedPoll] .error :=
  .cons (.done rfl) (.cons (.done rfl) (.cons (.done rfl) .nil))

theorem failingInput_waits_or_ends
    : (∃ es v action t, GoesRound (pollNextTurn (emptyFetches ())) (new failingInput 0) es v ∧
          WaitsOn (emptyFetches ()) v action t ∧ [.pollInput true] = es ++ [action]) ∧
        ∀ p ∈ [endedPoll], p.2 = ([], .ready none) := by
  have hpending := waits_or_ends
    (show PollsIn emptyFetches (new failingInput 0) ([] ++ pendingPoll :: [failedPoll, endedPoll]) _
      from failingInput_polls)
  have hfailed := waits_or_ends
    (show PollsIn emptyFetches (new failingInput 0) ([pendingPoll] ++ failedPoll :: [endedPoll]) _
      from failingInput_polls)
  constructor
  . obtain ⟨⟨s, t, hbefore, -, -, hwaits⟩, -⟩ := hpending
    cases hbefore
    obtain ⟨es, v, action, hround, hwaits, hactions⟩ := hwaits rfl
    exact ⟨es, v, action, t, hround, hwaits, hactions⟩
  . exact (hfailed.2 (.inr ⟨_, rfl⟩)).1

end Witness

end RecordFetchStream

end IndexProvider
