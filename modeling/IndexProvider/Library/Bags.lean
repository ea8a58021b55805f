import Mathlib.Data.List.Nodup
import Mathlib.Data.List.Perm.Basic

/-!
This module contains the inner join of two bags and the case in which it is a semijoin: every
element of the left bag meets at most one partner.
-/

namespace Bags

variable {α β γ : Type*}

/--
The pairs of elements that `p` matches, each combined by `pair`, in the order of the left bag.
-/
def innerJoin (p : α → β → Bool) (pair : α → β → γ) (ls : List α) (rs : List β) : List γ :=
  ls.flatMap fun l => (rs.filter (p l)).map (pair l)

variable {p : α → β → Bool} {pair : α → β → γ}

@[simp]
theorem innerJoin_cons (l : α) (ls : List α) (rs : List β)
    : innerJoin p pair (l :: ls) rs
        =
      (rs.filter (p l)).map (pair l) ++ innerJoin p pair ls rs := rfl

theorem mem_innerJoin {ls : List α} {rs : List β} {c : γ}
    : c ∈ innerJoin p pair ls rs ↔ ∃ l ∈ ls, ∃ r ∈ rs, p l r = true ∧ pair l r = c := by
  simp only [innerJoin, List.mem_flatMap, List.mem_map, List.mem_filter, and_assoc]

theorem length_filter_le_one {κ : Type*} {rs : List β} {q : β → Bool} (key : β → κ) (k : κ)
    (hnodup : (rs.map key).Nodup) (h : ∀ r ∈ rs, q r = true → key r = k)
    : (rs.filter q).length ≤ 1 := by
  have hsub : ((rs.filter q).map key).Nodup := hnodup.sublist (List.filter_sublist.map key)
  match hfilter : rs.filter q with
  | [] => simp
  | [_] => simp
  | r :: r' :: rest =>
    have hr : r ∈ rs.filter q := by simp [hfilter]
    have hr' : r' ∈ rs.filter q := by simp [hfilter]
    rw [List.mem_filter] at hr hr'
    have heq : key r = key r' := (h r hr.1 hr.2).trans (h r' hr'.1 hr'.2).symm
    rw [hfilter] at hsub
    simp [heq] at hsub

theorem map_innerJoin_eq_filter {proj : γ → α} {ls : List α} {rs : List β}
    (hproj : ∀ l ∈ ls, ∀ r ∈ rs, proj (pair l r) = l)
    (hone : ∀ l ∈ ls, (rs.filter (p l)).length ≤ 1)
    : (innerJoin p pair ls rs).map proj = ls.filter (fun l => rs.any (p l)) := by
  induction ls with
  | nil => rfl
  | cons l ls ih =>
    have htail := ih (fun l' hl' => hproj l' (List.mem_cons_of_mem _ hl'))
      (fun l' hl' => hone l' (List.mem_cons_of_mem _ hl'))
    rw [innerJoin_cons, List.map_append, htail]
    match hfilter : rs.filter (p l) with
    | [] =>
      have hany : rs.any (p l) = false := by
        rw [List.any_eq_false]
        exact List.filter_eq_nil_iff.mp hfilter
      simp [hany]
    | [r] =>
      have hr : r ∈ rs.filter (p l) := by simp [hfilter]
      rw [List.mem_filter] at hr
      have hany : rs.any (p l) = true := List.any_eq_true.mpr ⟨r, hr⟩
      simp [hany, hproj l (by simp) r hr.1]
    | r :: r' :: rest =>
      have hle := hone l (by simp)
      rw [hfilter] at hle
      simp at hle

/--
A key is in the join as often as each of its left elements meets one of its right elements.
-/
theorem count_innerJoin {κ : Type*} [BEq κ] [LawfulBEq κ] {kl : α → κ} {kr : β → κ} {kj : γ → κ}
    {ls : List α} {rs : List β} (hp : ∀ l ∈ ls, ∀ r ∈ rs, p l r = true ↔ kl l = kr r)
    (hpair : ∀ l ∈ ls, ∀ r ∈ rs, kj (pair l r) = kl l) (k : κ)
    : ((innerJoin p pair ls rs).map kj).count k = (ls.map kl).count k * (rs.map kr).count k := by
  induction ls with
  | nil => simp [innerJoin]
  | cons l ls ih =>
    have htail := ih (fun l' hl' => hp l' (List.mem_cons_of_mem _ hl'))
      (fun l' hl' => hpair l' (List.mem_cons_of_mem _ hl'))
    have hp := hp l List.mem_cons_self
    have hpair := hpair l List.mem_cons_self
    have hkeys : ((rs.filter (p l)).map (pair l)).map kj
        = List.replicate ((rs.map kr).count (kl l)) (kl l) := by
      rw [List.eq_replicate_iff]
      constructor
      . rw [List.length_map, List.length_map, List.count, List.countP_map, List.countP_eq_length_filter]
        congr 1
        apply List.filter_congr
        intro r hr
        rw [Bool.eq_iff_iff, hp r hr, Function.comp_apply, beq_iff_eq]
        exact eq_comm
      . intro key hkey
        rw [List.map_map, List.mem_map] at hkey
        obtain ⟨r, hr, rfl⟩ := hkey
        exact hpair r (List.mem_of_mem_filter hr)
    rw [innerJoin_cons, List.map_append, List.count_append, htail, hkeys, List.count_replicate,
      List.map_cons, List.count_cons]
    by_cases hkey : kl l = k
    . simp [hkey, Nat.add_mul, Nat.add_comm]
    . simp [hkey]

theorem innerJoin_perm {ls ls' : List α} {rs rs' : List β} (hls : ls.Perm ls') (hrs : rs.Perm rs')
    : (innerJoin p pair ls rs).Perm (innerJoin p pair ls' rs') := by
  unfold innerJoin
  apply (hls.flatMap_right _).trans
  apply List.Perm.flatMap_left
  intro l _
  exact (hrs.filter (p l)).map (pair l)

theorem innerJoin_append_right (ls : List α) (rs rs' : List β)
    : (innerJoin p pair ls (rs ++ rs')).Perm
        (innerJoin p pair ls rs ++ innerJoin p pair ls rs') := by
  simp only [innerJoin, List.filter_append, List.map_append]
  exact (List.flatMap_append_perm ls _ _).symm

theorem innerJoin_flatten_right (ls : List α) (rss : List (List β))
    : (innerJoin p pair ls rss.flatten).Perm (rss.map (innerJoin p pair ls)).flatten := by
  induction rss with
  | nil => simp [innerJoin]
  | cons rs rss ih =>
    rw [List.flatten_cons, List.map_cons, List.flatten_cons]
    exact (innerJoin_append_right ls rs rss.flatten).trans (ih.append_left _)

end Bags
