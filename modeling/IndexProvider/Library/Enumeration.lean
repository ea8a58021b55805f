import IndexProvider.Library.Collect
import Mathlib.Data.List.Nodup
import Mathlib.Data.List.Perm.Subperm
import Mathlib.Data.List.Perm.Basic
import Mathlib.Data.List.Forall2
import Mathlib.Data.Set.Basic
import Mathlib.Order.Lattice

/-!
This module contains enumerations of a set under a limit: lists without duplicates that may miss
elements of the set only once they are as long as the limit.
-/

namespace Enumeration

variable {α : Type*}

structure Enumerates (D : Set α) (limit : Option Nat) (xs : List α) : Prop where
  nodup : xs.Nodup
  sound : ∀ x ∈ xs, x ∈ D
  missing : ∀ x ∈ D, x ∉ xs → ∃ n, limit = some n ∧ n ≤ xs.length

variable {D : Set α} {limit : Option Nat} {xs : List α}

theorem Enumerates.mem_iff (h : Enumerates D none xs) (x : α) : x ∈ xs ↔ x ∈ D := by
  constructor
  . exact h.sound x
  . intro hx
    by_contra hmem
    obtain ⟨n, hn, -⟩ := h.missing x hx hmem
    cases hn

theorem Enumerates.of_mem_iff (hnodup : xs.Nodup) (h : ∀ x, x ∈ xs ↔ x ∈ D)
    : Enumerates D limit xs where
  nodup := hnodup
  sound x hx := (h x).mp hx
  missing x hx hmem := absurd ((h x).mpr hx) hmem

theorem Enumerates.weaken (h : Enumerates D none xs) (limit : Option Nat) : Enumerates D limit xs :=
  .of_mem_iff h.nodup h.mem_iff

theorem Enumerates.perm {ys : List α} (h : Enumerates D limit xs) (hperm : ys.Perm xs)
    : Enumerates D limit ys where
  nodup := hperm.nodup_iff.mpr h.nodup
  sound x hx := h.sound x (hperm.mem_iff.mp hx)
  missing x hx hmem := by
    rw [hperm.length_eq]
    rw [hperm.mem_iff] at hmem
    exact h.missing x hx hmem

theorem Enumerates.take {n : Nat} (h : Enumerates D limit xs)
    (hlimit : limit = none ∨ limit = some n) : Enumerates D (some n) (xs.take n) where
  nodup := h.nodup.sublist (xs.take_sublist n)
  sound x hx := h.sound x (List.mem_of_mem_take hx)
  missing x hx hmem := by
    refine ⟨n, rfl, ?_⟩
    rw [List.length_take]
    refine le_min (le_refl n) ?_
    by_contra hlt
    rw [List.take_of_length_le (by omega)] at hmem
    obtain ⟨m, hm, hle⟩ := h.missing x hx hmem
    rcases hlimit with hlimit | hlimit <;> rw [hlimit] at hm <;> cases hm
    omega

theorem Enumerates.filter (h : Enumerates D none xs) (p : α → Bool)
    : Enumerates {x | x ∈ D ∧ p x = true} none (xs.filter p) := by
  apply Enumerates.of_mem_iff
  . exact h.nodup.filter p
  . intro x
    rw [List.mem_filter, h.mem_iff]
    rfl

theorem Enumerates.inter {E : Set α} {ys : List α} {p : α → Bool}
    (hxs : Enumerates D none xs) (hys : Enumerates E none ys) (hp : ∀ x, p x = true ↔ x ∈ ys)
    : Enumerates (D ∩ E) none (xs.filter p) := by
  apply Enumerates.of_mem_iff
  . exact hxs.nodup.filter p
  . intro x
    rw [List.mem_filter, hxs.mem_iff, hp, hys.mem_iff]
    rfl

/--
A deduplicated union enumerates the union: where it misses an element, one of its parts is as long
as the limit, and the union is at least as long as each part.
-/
theorem Enumerates.union {Ds : List (Set α)} {xss : List (List α)} {out : List α}
    (h : List.Forall₂ (fun D xs => Enumerates D limit xs) Ds xss) (hnodup : out.Nodup)
    (hmem : ∀ x, x ∈ out ↔ ∃ xs ∈ xss, x ∈ xs)
    : Enumerates {x | ∃ D ∈ Ds, x ∈ D} limit out where
  nodup := hnodup
  sound x hx := by
    obtain ⟨xs, hxs, hx⟩ := (hmem x).mp hx
    obtain ⟨D, hD, hDxs⟩ := Collect.forall₂_of_mem_right h hxs
    exact ⟨D, hD, hDxs.sound x hx⟩
  missing x hx hout := by
    obtain ⟨D, hD, hx⟩ := hx
    obtain ⟨xs, hxs, hDxs⟩ := Collect.forall₂_of_mem_left h hD
    have hxxs : x ∉ xs := by
      intro hxxs
      exact hout ((hmem x).mpr ⟨xs, hxs, hxxs⟩)
    obtain ⟨n, hn, hle⟩ := hDxs.missing x hx hxxs
    refine ⟨n, hn, hle.trans ?_⟩
    apply (List.subperm_of_subset hDxs.nodup _).length_le
    intro y hy
    exact (hmem y).mpr ⟨xs, hxs, hy⟩

theorem Enumerates.min_le_length {n : Nat} {all : List α} (h : Enumerates D (some n) xs)
    (hnodup : all.Nodup) (hall : ∀ x ∈ all, x ∈ D)
    : min n all.length ≤ xs.length := by
  by_cases hsubset : all ⊆ xs
  . exact (Nat.min_le_right _ _).trans (List.subperm_of_subset hnodup hsubset).length_le
  . obtain ⟨x, hx, hxs⟩ := Set.not_subset.mp hsubset
    obtain ⟨m, hm, hle⟩ := h.missing x (hall x hx) hxs
    cases hm
    exact (Nat.min_le_left _ _).trans hle

theorem Enumerates.of_perm {all : List α} (hall : ∀ x, x ∈ all ↔ x ∈ D) (hnodup : all.Nodup)
    (hperm : xs.Perm all)
    : Enumerates D limit xs := by
  apply Enumerates.of_mem_iff (hperm.nodup_iff.mpr hnodup)
  intro x
  rw [hperm.mem_iff, hall]

theorem Enumerates.of_min_le_length {n : Nat} {all : List α} (hall : ∀ x, x ∈ all ↔ x ∈ D)
    (hnodup : xs.Nodup) (hsubset : xs ⊆ all) (h : min n all.length ≤ xs.length)
    : Enumerates D (some n) xs where
  nodup := hnodup
  sound x hx := (hall x).mp (hsubset hx)
  missing x hx hmem := by
    refine ⟨n, rfl, ?_⟩
    have hcons : (x :: xs).Nodup := List.nodup_cons.mpr ⟨hmem, hnodup⟩
    have hsub : x :: xs ⊆ all := List.cons_subset.mpr ⟨(hall x).mpr hx, hsubset⟩
    have hlength := (List.subperm_of_subset hcons hsub).length_le
    rw [List.length_cons] at hlength
    omega

theorem Enumerates.of_isPrefix {all : List α} (hall : ∀ x, x ∈ all ↔ x ∈ D) (hnodup : all.Nodup)
    (hstart : xs <+: all) (hlimit : xs = all ∨ ∃ n, limit = some n ∧ n ≤ xs.length)
    : Enumerates D limit xs where
  nodup := hnodup.sublist hstart.sublist
  sound x hx := (hall x).mp (hstart.subset hx)
  missing x hx hmem := by
    cases hlimit with
    | inl heq =>
      rw [heq] at hmem
      exact absurd ((hall x).mpr hx) hmem
    | inr hlimit => exact hlimit

theorem Enumerates.of_map {β : Type*} {f : β → α} {ys : List β} {E : Set β}
    (h : Enumerates D limit (ys.map f)) (hE : ∀ y, y ∈ E → f y ∈ D)
    (hsound : ∀ y ∈ ys, y ∈ E) (hinj : ∀ y ∈ E, ∀ y' ∈ ys, f y = f y' → y = y')
    : Enumerates E limit ys where
  nodup := h.nodup.of_map f
  sound := hsound
  missing y hy hmem := by
    have hmap : f y ∉ ys.map f := by
      intro hmap
      obtain ⟨y', hy', heq⟩ := List.mem_map.mp hmap
      rw [hinj y hy y' hy' heq.symm] at hmem
      exact hmem hy'
    obtain ⟨n, hn, hle⟩ := h.missing (f y) (hE y hy) hmap
    rw [List.length_map] at hle
    exact ⟨n, hn, hle⟩

theorem Enumerates.perm_of_mem_iff {all : List α} (h : Enumerates D none xs) (hnodup : all.Nodup)
    (hall : ∀ x, x ∈ all ↔ x ∈ D)
    : xs.Perm all := by
  apply (List.perm_ext_iff_of_nodup h.nodup hnodup).mpr
  intro x
  rw [h.mem_iff, hall]

def takeLimit (limit : Option Nat) (xs : List α) : List α :=
  match limit with
  | some n => xs.take n
  | none => xs

theorem map_takeLimit {β : Type*} (f : α → β) (limit : Option Nat) (xs : List α)
    : (takeLimit limit xs).map f = takeLimit limit (xs.map f) := by
  cases limit with
  | none => rfl
  | some n => exact List.map_take

/--
A list of elements of another one in any order: all of them without a limit, and with a limit as many of
them as it allows.
-/
structure Picks (limit : Option Nat) (all xs : List α) : Prop where
  subperm : xs.Subperm all
  length_eq : xs.length = (takeLimit limit all).length

theorem Picks.perm {all : List α} (h : Picks none all xs) : xs.Perm all :=
  h.subperm.perm_of_length_le (Nat.le_of_eq h.length_eq.symm)

theorem Picks.of_perm {all : List α} (limit : Option Nat) (h : xs.Perm all)
    : Picks limit all (takeLimit limit xs) := by
  cases limit with
  | none => exact ⟨h.subperm, h.length_eq⟩
  | some n =>
    refine ⟨(xs.take_sublist n).subperm.trans h.subperm, ?_⟩
    simp only [Enumeration.takeLimit, List.length_take, h.length_eq]

theorem Picks.map {β : Type*} (f : α → β) {all : List α} (h : Picks limit all xs)
    : Picks limit (all.map f) (xs.map f) := by
  obtain ⟨ys, hperm, hsub⟩ := h.subperm
  refine ⟨⟨ys.map f, hperm.map f, hsub.map f⟩, ?_⟩
  rw [List.length_map, h.length_eq, ← map_takeLimit, List.length_map]

theorem Enumerates.picks {all : List α} (h : Enumerates D limit xs) (hnodup : all.Nodup)
    (hall : ∀ x, x ∈ all ↔ x ∈ D)
    : Picks limit all (Enumeration.takeLimit limit xs) := by
  cases limit with
  | none => exact .of_perm none (h.perm_of_mem_iff hnodup hall)
  | some n =>
    have hsubset : xs ⊆ all := fun x hx => (hall x).mpr (h.sound x hx)
    have hsubperm := List.subperm_of_subset h.nodup hsubset
    have hmin := h.min_le_length hnodup fun x hx => (hall x).mp hx
    have hle := hsubperm.length_le
    refine ⟨(xs.take_sublist n).subperm.trans hsubperm, ?_⟩
    simp only [Enumeration.takeLimit, List.length_take]
    omega

end Enumeration
