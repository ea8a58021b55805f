import Mathlib.Data.Finset.Sort

/-!
This module contains ordered sets of keys that are collected from several sources: what is listed of them
is ascending and without repetitions, in whatever order the keys arrive.
-/

namespace OrderedKeys

variable {κ σ : Type*} (cmp : κ → κ → Ordering)

/--
The keys of the sources, which are read one after the other. The first source that cannot be read ends
this.
-/
def collect (keysOf : σ → Option (List κ)) (sources : List σ) : Option (List κ) := do
  let keys ← sources.foldlM (fun keys source => (keysOf source).map keys.insertMany)
    (∅ : Std.TreeSet κ cmp)
  return keys.toList

variable {cmp} {keysOf : σ → Option (List κ)} {sources : List σ}

theorem foldlM_insertMany_eq_none (set : Std.TreeSet κ cmp)
    : sources.foldlM (fun keys source => (keysOf source).map keys.insertMany) set = none
        ↔
      ∃ source ∈ sources, keysOf source = none := by
  induction sources generalizing set with
  | nil => simp
  | cons source sources ih =>
    rw [List.foldlM_cons]
    cases hkeys : keysOf source with
    | none => simp [hkeys]
    | some keys =>
      simp only [Option.map_some, Option.bind_eq_bind, Option.bind_some, ih, List.exists_mem_cons_iff,
        hkeys, reduceCtorEq, false_or]

/--
The keys can be collected exactly if every source can be read.
-/
theorem collect_eq_none : collect cmp keysOf sources = none ↔ ∃ source ∈ sources, keysOf source = none := by
  rw [← foldlM_insertMany_eq_none (∅ : Std.TreeSet κ cmp)]
  unfold collect
  cases sources.foldlM (fun keys source => (keysOf source).map keys.insertMany)
      (∅ : Std.TreeSet κ cmp) with
  | none => exact iff_of_true rfl rfl
  | some set => exact iff_of_false nofun nofun

theorem exists_collect_singleton (cmp : κ → κ → Ordering) {source : σ} {added : List κ}
    (h : keysOf source = some added)
    : ∃ keys, collect cmp keysOf [source] = some keys := by
  apply Option.ne_none_iff_exists'.mp
  rw [ne_eq, collect_eq_none]
  simp [h]

variable [Std.TransCmp cmp] {keys : List κ}

theorem pairwise_collect (h : collect cmp keysOf sources = some keys)
    : keys.Pairwise fun a b => cmp a b = .lt := by
  simp only [collect, Option.bind_eq_bind, Option.bind_eq_some_iff, Option.pure_def,
    Option.some.injEq] at h
  obtain ⟨set, -, rfl⟩ := h
  exact Std.TreeSet.ordered_toList

variable [Std.LawfulEqCmp cmp]

theorem mem_foldlM_insertMany {set set' : Std.TreeSet κ cmp}
    (h : sources.foldlM (fun keys source => (keysOf source).map keys.insertMany) set = some set')
    (key : κ)
    : key ∈ set' ↔ key ∈ set ∨ ∃ source ∈ sources, ∃ keys, keysOf source = some keys ∧ key ∈ keys := by
  classical
  induction sources generalizing set with
  | nil =>
    cases h
    simp
  | cons source sources ih =>
    rw [List.foldlM_cons] at h
    cases hkeys : keysOf source with
    | none => simp [hkeys] at h
    | some keys =>
      simp only [hkeys, Option.map_some, Option.bind_eq_bind, Option.bind_some] at h
      rw [ih h, Std.TreeSet.mem_insertMany_list]
      simp [hkeys, or_assoc]

theorem mem_collect (h : collect cmp keysOf sources = some keys) (key : κ)
    : key ∈ keys ↔ ∃ source ∈ sources, ∃ keys, keysOf source = some keys ∧ key ∈ keys := by
  simp only [collect, Option.bind_eq_bind, Option.bind_eq_some_iff, Option.pure_def,
    Option.some.injEq] at h
  obtain ⟨set, hset, rfl⟩ := h
  rw [Std.TreeSet.mem_toList, mem_foldlM_insertMany hset]
  simp

theorem mem_collect_singleton {source : σ} {added : List κ} (h : keysOf source = some added)
    (hkeys : collect cmp keysOf [source] = some keys) (key : κ)
    : key ∈ keys ↔ key ∈ added := by
  rw [mem_collect hkeys]
  simp [h]

theorem nodup_collect (h : collect cmp keysOf sources = some keys) : keys.Nodup := by
  apply (pairwise_collect h).imp
  intro a b hlt heq
  have hself : cmp b b = .eq := Std.ReflCmp.compare_self
  rw [heq, hself] at hlt
  cases hlt

section Pairs

variable {α β : Type*} [Ord α] [Ord β]

-- Pairs are compared by their first components, and by the second ones where these are equal.
def comparePairs : α × β → α × β → Ordering := compareLex (compareOn Prod.fst) (compareOn Prod.snd)

instance [Std.TransOrd α] [Std.TransOrd β] : Std.TransCmp (comparePairs (α := α) (β := β)) :=
  inferInstanceAs (Std.TransCmp (compareLex _ _))

instance [Std.LawfulEqOrd α] [Std.LawfulEqOrd β] : Std.LawfulEqCmp (comparePairs (α := α) (β := β)) where
  compare_self := by
    intro a
    simp [comparePairs, compareLex, compareOn]
  eq_of_compare := by
    intro a b h
    simp only [comparePairs, compareLex, compareOn, Ordering.then_eq_eq,
      Std.compare_eq_iff_eq] at h
    exact Prod.ext h.1 h.2

end Pairs

end OrderedKeys
