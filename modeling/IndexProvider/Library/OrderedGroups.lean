import Mathlib.Data.Finset.Sort

/-!
This module contains ordered maps from keys to lists of items, which are built one pair at a time and
read by key or by range.
-/

namespace OrderedGroups

variable {κ ι : Type*} [Ord κ]

-- `map.entry(key).or_default().push(item)`
def push (map : Std.TreeMap κ (List ι)) (pair : κ × ι) : Std.TreeMap κ (List ι) :=
  map.alter pair.1 fun items => some (items.getD [] ++ [pair.2])

def ofPairs (pairs : List (κ × ι)) : Std.TreeMap κ (List ι) := pairs.foldl push ∅

/--
The items under the keys within the bounds, in the order of the keys.
-/
def range (map : Std.TreeMap κ (List ι)) (bounds : κ → Bool) : List ι :=
  (map.toList.filter fun entry => bounds entry.1).flatMap Prod.snd

variable [Std.TransOrd κ] [Std.LawfulEqOrd κ]

theorem mem_push {map : Std.TreeMap κ (List ι)} {pair : κ × ι} {key : κ} {item : ι}
    : item ∈ (push map pair)[key]?.getD []
        ↔
      item ∈ map[key]?.getD [] ∨ (key, item) = pair := by
  rw [push, Std.TreeMap.getElem?_alter]
  split
  . next hkey =>
    rw [Std.compare_eq_iff_eq] at hkey
    subst hkey
    simp [Prod.ext_iff]
  . next hkey =>
    rw [Std.compare_eq_iff_eq] at hkey
    have hne : (key, item) ≠ pair := fun hpair => hkey (congrArg Prod.fst hpair).symm
    simp [hne]

theorem mem_foldl_push {map : Std.TreeMap κ (List ι)} {pairs : List (κ × ι)} {key : κ} {item : ι}
    : item ∈ (pairs.foldl push map)[key]?.getD []
        ↔
      item ∈ map[key]?.getD [] ∨ (key, item) ∈ pairs := by
  induction pairs generalizing map with
  | nil => simp
  | cons pair pairs ih => rw [List.foldl_cons, ih, mem_push, List.mem_cons, or_assoc]

theorem mem_ofPairs {pairs : List (κ × ι)} {key : κ} {item : ι}
    : item ∈ (ofPairs pairs)[key]?.getD [] ↔ (key, item) ∈ pairs := by
  rw [ofPairs, mem_foldl_push]
  simp

theorem mem_range_ofPairs {pairs : List (κ × ι)} {bounds : κ → Bool} {item : ι}
    : item ∈ range (ofPairs pairs) bounds ↔ ∃ key, bounds key = true ∧ (key, item) ∈ pairs := by
  simp only [range, List.mem_flatMap, List.mem_filter, ← mem_ofPairs]
  constructor
  . intro h
    obtain ⟨⟨key, items⟩, ⟨hentry, hbounds⟩, hitem⟩ := h
    rw [Std.TreeMap.mem_toList_iff_getElem?_eq_some] at hentry
    refine ⟨key, hbounds, ?_⟩
    rw [hentry]
    exact hitem
  . intro h
    obtain ⟨key, hbounds, hitem⟩ := h
    cases hentry : (ofPairs pairs)[key]? with
    | none => simp [hentry] at hitem
    | some items =>
      rw [hentry] at hitem
      exact ⟨(key, items), ⟨Std.TreeMap.mem_toList_iff_getElem?_eq_some.mpr hentry, hbounds⟩, hitem⟩

end OrderedGroups
