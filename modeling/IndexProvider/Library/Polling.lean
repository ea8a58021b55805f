import Mathlib.Data.List.Basic
import Mathlib.Data.List.Infix
import Mathlib.Order.WellFounded

/-!
This module contains the semantics of polled machines: a poll is a loop whose turns either go round
again or return, and a client polls the machine any number of times.
-/

namespace Polling

inductive Poll (α : Type*) where
  | ready (a : α)
  | pending
  deriving DecidableEq, Repr

/--
What one turn of the loop decides: another turn from the next state, or the result of the poll and
the state that is kept for the next poll.
-/
inductive Turn (S R : Type*) where
  | again (s : S)
  | done (r : R) (s : S)

variable {S E R : Type*}

/--
One poll from `s`: the loop performs the actions `es`, returns `r` and leaves `s'`.
-/
inductive Returns (turn : S → List E × Turn S R) : S → List E → R → S → Prop where
  | done {s es r s'} : turn s = (es, .done r s') → Returns turn s es r s'
  | again {s es t es' r s'} :
    turn s = (es, .again t) → Returns turn t es' r s' → Returns turn s (es ++ es') r s'

inductive Polls (turn : S → List E × Turn S R) : S → List (List E × R) → S → Prop where
  | nil {s} : Polls turn s [] s
  | cons {s es r t ps s'} :
    Returns turn s es r t → Polls turn t ps s' → Polls turn s ((es, r) :: ps) s'

/--
The loop goes round from `s` to `s'` and performs the actions `es` on the way.
-/
inductive GoesRound (turn : S → List E × Turn S R) : S → List E → S → Prop where
  | refl {s} : GoesRound turn s [] s
  | again {s es t es' s'} :
    turn s = (es, .again t) → GoesRound turn t es' s' → GoesRound turn s (es ++ es') s'

/--
Polls of a machine whose turns depend on the context it is polled with.
-/
inductive PollsWith {C : Type*} (turn : C → S → List E × Turn S R) :
    S → List (C × List E × R) → S → Prop where
  | nil {s} : PollsWith turn s [] s
  | cons {s c es r t ps s'} :
    Returns (turn c) s es r t → PollsWith turn t ps s' → PollsWith turn s ((c, es, r) :: ps) s'

def loop (turn : S → List E × Turn S R) : Nat → S → Option (List E × R × S)
  | 0, _ => none
  | fuel + 1, s =>
    match turn s with
    | (es, .done r s') => some (es, r, s')
    | (es, .again t) => (loop turn fuel t).map fun (es', r, s') => (es ++ es', r, s')

variable {turn : S → List E × Turn S R}

theorem returns_iff_loop {s : S} {es : List E} {r : R} {s' : S}
    : Returns turn s es r s' ↔ ∃ fuel, loop turn fuel s = some (es, r, s') := by
  constructor
  . intro h
    induction h with
    | done hturn => exact ⟨1, by simp [loop, hturn]⟩
    | again hturn _ ih =>
      obtain ⟨fuel, hfuel⟩ := ih
      exact ⟨fuel + 1, by simp [loop, hturn, hfuel]⟩
  . rintro ⟨fuel, h⟩
    induction fuel generalizing s es with
    | zero => simp [loop] at h
    | succ fuel ih =>
      unfold loop at h
      split at h
      . next es₀ r₀ s₀ hturn =>
        simp only [Option.some.injEq, Prod.mk.injEq] at h
        obtain ⟨rfl, rfl, rfl⟩ := h
        exact .done hturn
      . next es₀ t hturn =>
        simp only [Option.map_eq_some_iff, Prod.mk.injEq] at h
        obtain ⟨⟨es', r', s₁⟩, hloop, rfl, rfl, rfl⟩ := h
        exact .again hturn (ih hloop)

theorem Returns.unique {s : S} {es es' : List E} {r r' : R} {t t' : S}
    (h : Returns turn s es r t) (h' : Returns turn s es' r' t')
    : es = es' ∧ r = r' ∧ t = t' := by
  induction h generalizing es' with
  | done hturn =>
    cases h' with
    | done hturn' =>
      rw [hturn] at hturn'
      cases hturn'
      exact ⟨rfl, rfl, rfl⟩
    | again hturn' _ =>
      rw [hturn] at hturn'
      cases hturn'
  | again hturn _ ih =>
    cases h' with
    | done hturn' =>
      rw [hturn] at hturn'
      cases hturn'
    | again hturn' hreturns' =>
      rw [hturn] at hturn'
      cases hturn'
      obtain ⟨rfl, rfl, rfl⟩ := ih hreturns'
      exact ⟨rfl, rfl, rfl⟩

theorem Returns.last_turn {s : S} {es : List E} {r : R} {s' : S} (h : Returns turn s es r s')
    : ∃ es₁ t es₂, GoesRound turn s es₁ t ∧ turn t = (es₂, .done r s') ∧ es = es₁ ++ es₂ := by
  induction h with
  | done hturn => exact ⟨[], _, _, .refl, hturn, rfl⟩
  | again hturn _ ih =>
    obtain ⟨es₁, t, es₂, hround, hdone, rfl⟩ := ih
    refine ⟨_, t, es₂, .again hturn hround, hdone, ?_⟩
    rw [List.append_assoc]

theorem PollsWith.split {C : Type*} {turn : C → S → List E × Turn S R} {s u : S}
    {ps qs : List (C × List E × R)} (h : PollsWith turn s (ps ++ qs) u)
    : ∃ t, PollsWith turn s ps t ∧ PollsWith turn t qs u := by
  induction ps generalizing s with
  | nil => exact ⟨s, .nil, h⟩
  | cons p ps ih =>
    cases h with
    | cons hpoll hpolls =>
      obtain ⟨t, hps, hqs⟩ := ih hpolls
      exact ⟨t, .cons hpoll hps, hqs⟩

theorem returns_of_wellFounded {lt : S → S → Prop} (hlt : WellFounded lt)
    (h : ∀ s es t, turn s = (es, .again t) → lt t s) (s : S)
    : ∃ es r s', Returns turn s es r s' := by
  induction s using hlt.induction with
  | _ s ih =>
    match hturn : turn s with
    | (es, .done r s') => exact ⟨es, r, s', .done hturn⟩
    | (es, .again t) =>
      obtain ⟨es', r, s', ht⟩ := ih t (h s es t hturn)
      exact ⟨es ++ es', r, s', .again hturn ht⟩

theorem polls_of_returns (h : ∀ s, ∃ es r s', Returns turn s es r s') (n : Nat) (s : S)
    : ∃ ps s', Polls turn s ps s' ∧ ps.length = n := by
  induction n generalizing s with
  | zero => exact ⟨[], s, .nil, rfl⟩
  | succ n ih =>
    obtain ⟨es, r, t, ht⟩ := h s
    obtain ⟨ps, s', hps, hlength⟩ := ih t
    exact ⟨(es, r) :: ps, s', .cons ht hps, by simp [hlength]⟩

theorem polls_of_fixed {s t : S} {es : List E} {r : R} (hfixed : turn s = (es, .done r s))
    {ps : List (List E × R)} (h : Polls turn s ps t)
    : t = s ∧ ∀ p ∈ ps, p = (es, r) := by
  induction h with
  | nil => simp
  | cons hpoll _ ih =>
    obtain ⟨rfl, rfl, rfl⟩ := hpoll.unique (.done hfixed)
    obtain ⟨rfl, hps⟩ := ih hfixed
    exact ⟨rfl, List.forall_mem_cons.mpr ⟨rfl, hps⟩⟩

theorem polls_after {r : R} (hfixed : ∀ s es t, Returns turn s es r t → turn t = ([], .done r t))
    {s t : S} {ps : List (List E × R)} (h : Polls turn s ps t)
    : ∀ before es later, ps = before ++ (es, r) :: later → ∀ p ∈ later, p = ([], r) := by
  induction h with
  | nil => simp
  | cons hpoll hpolls ih =>
    intro before es later heq
    cases before with
    | nil =>
      cases heq
      exact (polls_of_fixed (hfixed _ _ _ hpoll) hpolls).2
    | cons _ before =>
      cases heq
      exact ih before es later rfl

def actions (ps : List (List E × R)) : List E := ps.flatMap Prod.fst

def readyItems {α : Type*} (ps : List (List E × Poll α)) : List α :=
  ps.filterMap fun p =>
    match p.2 with
    | .ready a => some a
    | .pending => none

@[simp]
theorem actions_nil : actions ([] : List (List E × R)) = [] := rfl

@[simp]
theorem actions_cons (es : List E) (r : R) (ps : List (List E × R))
    : actions ((es, r) :: ps) = es ++ actions ps := rfl

@[simp]
theorem readyItems_nil {α : Type*} : readyItems ([] : List (List E × Poll α)) = [] := rfl

@[simp]
theorem readyItems_ready {α : Type*} (es : List E) (a : α) (ps : List (List E × Poll α))
    : readyItems ((es, .ready a) :: ps) = a :: readyItems ps := rfl

@[simp]
theorem readyItems_pending {α : Type*} (es : List E) (ps : List (List E × Poll α))
    : readyItems ((es, .pending) :: ps) = readyItems ps := rfl

section Yields

variable {A : Type*} {turn : S → List E × Turn S (Poll (Option A))} {out : S → List A}

/--
A poll from `s` that leaves `t` returns the first of the items expected from `s`, and nothing is
expected after the end.
-/
def Yields (out : S → List A) (s : S) : Poll (Option A) → S → Prop
  | .pending, t => out s = out t
  | .ready (some a), t => out s = a :: out t
  | .ready none, t => out s = [] ∧ out t = []

theorem Yields.of_eq {s s' t : S} {r : Poll (Option A)} (hs : out s = out s')
    (h : Yields out s' r t)
    : Yields out s r t := by
  cases r with
  | pending => exact hs.trans h
  | ready item =>
    cases item with
    | some a => exact hs.trans h
    | none => exact ⟨hs.trans h.1, h.2⟩

theorem polls_yield (h : ∀ s es r t, Returns turn s es r t → Yields out s r t) {s t : S}
    {ps : List (List E × Poll (Option A))} (hpolls : Polls turn s ps t)
    : ∃ seen n, readyItems ps = seen.map some ++ List.replicate n none ∧ out s = seen ++ out t ∧
        (0 < n → out t = []) := by
  induction hpolls with
  | nil => exact ⟨[], 0, by simp⟩
  | @cons s es r u ps t hpoll _ ih =>
    obtain ⟨seen, n, hready, hout, hn⟩ := ih
    have hyields := h s es r u hpoll
    cases r with
    | pending => exact ⟨seen, n, hready, hyields.trans hout, hn⟩
    | ready item =>
      cases item with
      | some a =>
        refine ⟨a :: seen, n, ?_, ?_, hn⟩
        . simp [hready]
        . rw [hyields, hout, List.cons_append]
      | none =>
        obtain ⟨hs, hu⟩ := hyields
        rw [hu, eq_comm, List.append_eq_nil_iff] at hout
        obtain ⟨rfl, ht⟩ := hout
        refine ⟨[], n + 1, ?_, ?_, fun _ => ht⟩
        . simp [hready, List.replicate_succ]
        . rw [hs, ht, List.append_nil]

theorem polls_end {lt : S → S → Prop} (hlt : WellFounded lt)
    (hreturns : ∀ s, ∃ es r t, Returns turn s es r t)
    (h : ∀ s es r t, Returns turn s es r t → r = .ready none ∨ lt t s) (s : S)
    : ∃ bound, ∀ ps t, Polls turn s ps t → bound ≤ ps.length → none ∈ readyItems ps := by
  induction s using hlt.induction with
  | _ s ih =>
    obtain ⟨es, r, u, hpoll⟩ := hreturns s
    have hcons : ∀ ps t, Polls turn s ps t → 0 < ps.length →
        ∃ ps', ps = (es, r) :: ps' ∧ Polls turn u ps' t := by
      intro ps t hpolls hlength
      cases hpolls with
      | nil => simp at hlength
      | cons hpoll' hpolls =>
        obtain ⟨rfl, rfl, rfl⟩ := hpoll'.unique hpoll
        exact ⟨_, rfl, hpolls⟩
    cases h s es r u hpoll with
    | inl hr =>
      refine ⟨1, ?_⟩
      intro ps t hpolls hlength
      obtain ⟨ps', rfl, -⟩ := hcons ps t hpolls hlength
      simp [hr]
    | inr hlt =>
      obtain ⟨bound, hbound⟩ := ih u hlt
      refine ⟨bound + 1, ?_⟩
      intro ps t hpolls hlength
      obtain ⟨ps', rfl, hpolls'⟩ := hcons ps t hpolls (by omega)
      have hmem := hbound ps' t hpolls' (by simpa using hlength)
      cases r with
      | ready item => simp [hmem]
      | pending => simpa using hmem

theorem polls_prefix (h : ∀ s es r t, Returns turn s es r t → Yields out s r t) {s t : S}
    {ps : List (List E × Poll (Option A))} (hpolls : Polls turn s ps t)
    : ∃ n, ∀ m, n ≤ m → readyItems ps <+: (out s).map some ++ List.replicate m none := by
  obtain ⟨seen, n, hready, hout, hn⟩ := polls_yield h hpolls
  refine ⟨n, ?_⟩
  intro m hm
  rw [hready, hout]
  cases Nat.eq_zero_or_pos n with
  | inl hzero =>
    subst hzero
    simp [List.append_assoc]
  | inr hpos =>
    obtain ⟨k, rfl⟩ := Nat.exists_eq_add_of_le hm
    rw [hn hpos, List.append_nil, List.replicate_add, ← List.append_assoc]
    apply List.prefix_append

theorem polls_complete (h : ∀ s es r t, Returns turn s es r t → Yields out s r t) {s t : S}
    {ps : List (List E × Poll (Option A))} (hpolls : Polls turn s ps t) (hend : none ∈ readyItems ps)
    : (∃ n, readyItems ps = (out s).map some ++ List.replicate (n + 1) none) ∧ out t = [] := by
  obtain ⟨seen, n, hready, hout, hn⟩ := polls_yield h hpolls
  rw [hready] at hend
  have hpos : 0 < n := by
    cases n with
    | zero => simp at hend
    | succ n => omega
  refine ⟨⟨n - 1, ?_⟩, hn hpos⟩
  rw [hready, hout, hn hpos, Nat.sub_add_cancel hpos, List.append_nil]

end Yields

end Polling
