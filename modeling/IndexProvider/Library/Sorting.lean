import Mathlib.Data.List.Pairwise
import Mathlib.Data.List.Infix

/-!
This module contains lists sorted by a comparison and tells where a concatenation of sorted lists is
sorted.
-/

namespace Sorting

open Std

variable {α : Type*} {cmp : α → α → Ordering}

def Sorted (cmp : α → α → Ordering) (xs : List α) : Prop :=
  xs.Pairwise fun x y => (cmp x y).isLE

/--
No list ends above the start of a later one.
-/
def InSequence (cmp : α → α → Ordering) (xss : List (List α)) : Prop :=
  xss.Pairwise fun xs ys => ∀ x ∈ xs.getLast?, ∀ y ∈ ys.head?, (cmp x y).isLE

theorem Sorted.le_getLast [ReflCmp cmp] {xs : List α} (h : Sorted cmp xs) {x last : α} (hx : x ∈ xs)
    (hlast : last ∈ xs.getLast?)
    : (cmp x last).isLE := by
  obtain ⟨init, rfl⟩ := List.getLast?_eq_some_iff.mp hlast
  rw [List.mem_append, List.mem_singleton] at hx
  rcases hx with hx | rfl
  . exact (List.pairwise_append.mp h).2.2 x hx last (by simp)
  . simp [ReflCmp.compare_self]

theorem Sorted.head_le [ReflCmp cmp] {xs : List α} (h : Sorted cmp xs) {x first : α} (hx : x ∈ xs)
    (hfirst : first ∈ xs.head?)
    : (cmp first x).isLE := by
  cases xs with
  | nil => simp at hx
  | cons y ys =>
    simp only [List.head?_cons, Option.mem_def, Option.some.injEq] at hfirst
    subst hfirst
    cases hx with
    | head => simp [ReflCmp.compare_self]
    | tail _ hx => exact List.rel_of_pairwise_cons h hx

theorem sorted_flatten_iff [TransCmp cmp] {xss : List (List α)} (h : ∀ xs ∈ xss, Sorted cmp xs)
    : Sorted cmp xss.flatten ↔ InSequence cmp xss := by
  unfold Sorted InSequence
  rw [List.pairwise_flatten]
  constructor
  . intro hsorted
    apply hsorted.2.imp
    intro xs ys hxy x hx y hy
    exact hxy x (List.mem_of_mem_getLast? hx) y (List.mem_of_mem_head? hy)
  . intro hseq
    refine ⟨h, ?_⟩
    apply hseq.imp_of_mem
    intro xs ys hxs hys hxy x hx y hy
    have hlast := List.getLast_mem_getLast? (List.ne_nil_of_mem hx)
    have hfirst := List.head_mem_head? (List.ne_nil_of_mem hy)
    have hle := (h xs hxs).le_getLast hx hlast
    have hle' := (h ys hys).head_le hy hfirst
    exact TransCmp.isLE_trans (TransCmp.isLE_trans hle (hxy _ hlast _ hfirst)) hle'

end Sorting
