import IndexProvider.Library.NamedTuple
import IndexProvider.Library.Sorting
import IndexProvider.Impl.Plan

/-!
This module contains the meaning of orderings: how a sort expression and a lexicographic ordering
compare two rows.
-/

namespace IndexProvider

open Std NamedTuple Sorting

variable {V : Type} [Ord V]

def SortOptions.cmp (options : SortOptions) : Option V → Option V → Ordering
  | none, none => .eq
  | none, some _ => if options.nullsFirst then .lt else .gt
  | some _, none => if options.nullsFirst then .gt else .lt
  | some a, some b => if options.descending then compare b a else compare a b

def PhysicalSortExpr.cmp (e : PhysicalSortExpr) (r r' : Row V) : Ordering :=
  e.options.cmp (cell r e.expr.index) (cell r' e.expr.index)

def LexOrdering.cmp : LexOrdering → Row V → Row V → Ordering
  | [] => fun _ _ => .eq
  | e :: ordering => compareLex e.cmp (cmp ordering)

instance SortOptions.instTransCmp [TransOrd V] (options : SortOptions) :
    TransCmp (options.cmp (V := V)) where
  eq_swap {a b} := by
    cases a with
    | none => cases b <;> cases hnulls : options.nullsFirst <;> simp [cmp, hnulls]
    | some a =>
      cases b with
      | none => cases hnulls : options.nullsFirst <;> simp [cmp, hnulls]
      | some b =>
        cases hdescending : options.descending with
        | false => simpa [cmp, hdescending] using OrientedOrd.eq_swap
        | true => simpa [cmp, hdescending] using OrientedOrd.eq_swap
  isLE_trans {a b c} hab hbc := by
    cases a with
    | none =>
      cases c with
      | none => rfl
      | some c => cases b <;> cases hnulls : options.nullsFirst <;> simp_all [cmp]
    | some a =>
      cases c with
      | none => cases b <;> cases hnulls : options.nullsFirst <;> simp_all [cmp]
      | some c =>
        cases b with
        | none => cases hnulls : options.nullsFirst <;> simp_all [cmp]
        | some b =>
          cases hdescending : options.descending with
          | false =>
            simp only [cmp, hdescending, Bool.false_eq_true, if_false] at hab hbc ⊢
            exact TransCmp.isLE_trans hab hbc
          | true =>
            simp only [cmp, hdescending, if_true] at hab hbc ⊢
            exact TransCmp.isLE_trans hbc hab

theorem SortOptions.eq_of_cmp [LawfulEqOrd V] {options : SortOptions} {a b : Option V}
    (h : options.cmp a b = .eq)
    : a = b := by
  cases a with
  | none => cases b <;> cases hnulls : options.nullsFirst <;> simp_all [cmp]
  | some a =>
    cases b with
    | none => cases hnulls : options.nullsFirst <;> simp_all [cmp]
    | some b =>
      cases hdescending : options.descending with
      | false =>
        simp only [cmp, hdescending, Bool.false_eq_true, if_false] at h
        rw [LawfulEqOrd.eq_of_compare h]
      | true =>
        simp only [cmp, hdescending, if_true] at h
        rw [LawfulEqOrd.eq_of_compare h]

instance PhysicalSortExpr.instTransCmp [TransOrd V] (e : PhysicalSortExpr) :
    TransCmp (e.cmp (V := V)) where
  eq_swap := by
    intro a b
    unfold PhysicalSortExpr.cmp
    apply OrientedCmp.eq_swap
  isLE_trans := by
    intro a b c
    unfold PhysicalSortExpr.cmp
    apply TransCmp.isLE_trans

instance LexOrdering.instTransCmp [TransOrd V] (ordering : LexOrdering) :
    TransCmp (ordering.cmp (V := V)) := by
  induction ordering with
  | nil => exact { eq_swap := rfl, isLE_trans := fun _ _ => rfl }
  | cons e ordering ih =>
    unfold LexOrdering.cmp
    infer_instance

namespace LexOrdering

theorem eq_of_cmp [LawfulEqOrd V] {ordering : LexOrdering} {r r' : Row V}
    (h : ordering.cmp r r' = .eq)
    : ∀ e ∈ ordering, cell r e.expr.index = cell r' e.expr.index := by
  induction ordering with
  | nil => simp
  | cons e ordering ih =>
    simp only [cmp, compareLex, Ordering.then_eq_eq] at h
    intro e' he'
    cases he' with
    | head => exact SortOptions.eq_of_cmp h.1
    | tail _ he' => exact ih h.2 e' he'

theorem cmp_eq_iff [TransOrd V] [LawfulEqOrd V] {ordering : LexOrdering} {r r' : Row V}
    : ordering.cmp r r' = .eq ↔ ∀ e ∈ ordering, cell r e.expr.index = cell r' e.expr.index := by
  constructor
  . exact eq_of_cmp
  . intro h
    induction ordering with
    | nil => rfl
    | cons e ordering ih =>
      rw [List.forall_mem_cons] at h
      simp only [cmp, compareLex, PhysicalSortExpr.cmp, h.1, ih h.2, ReflCmp.compare_self,
        Ordering.then_eq]

theorem sorted_of_prefix {o ordering : LexOrdering} (h : o <+: ordering) {rows : List (Row V)}
    (hsorted : Sorted ordering.cmp rows)
    : Sorted o.cmp rows := by
  apply hsorted.imp
  intro r r' hle
  obtain ⟨rest, rfl⟩ := h
  clear hsorted
  induction o with
  | nil => rfl
  | cons e o ih =>
    simp only [List.cons_append, cmp, compareLex, Ordering.isLE_then_iff_and] at hle ⊢
    exact ⟨hle.1, hle.2.imp_right ih⟩

end LexOrdering

/--
The rows have every ordering the plan advertises.
-/
structure PlanProperties.Holds (p : PlanProperties) (rows : List (Row V)) : Prop where
  orderings : ∀ o ∈ p.eqProperties.orderings, Sorted o.cmp rows
  outputOrdering : ∀ o, p.outputOrdering = some o → Sorted o.cmp rows

end IndexProvider
