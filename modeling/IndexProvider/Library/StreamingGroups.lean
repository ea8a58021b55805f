import IndexProvider.Library.Sorting
import Mathlib.Data.List.DropRight
import Mathlib.Data.List.Nodup

/-!
This module contains the grouping of a stream that arrives in batches. Groups are kept in the order in
which they were created, and after every batch the first of them are emitted and forgotten: those that
are complete as far as the consumer knows the order of the stream.
-/

namespace StreamingGroups

open Sorting Std

variable {α κ : Type*} [DecidableEq α] [DecidableEq κ]

/--
What the consumer knows about the order of the elements: nothing, that they are sorted by a key, or that
they are sorted as a whole.
-/
inductive InputOrder (α κ : Type*) where
  | linear
  | partiallySorted (key : α → κ)
  | sorted

/--
The groups that a batch adds to the present ones.
-/
def created : List α → List α → List α
  | _, [] => []
  | groups, x :: batch =>
    if x ∈ groups then
      created groups batch
    else
      x :: created (groups ++ [x]) batch

/--
The elements at the end of a batch that share the key of the last one.
-/
def lastRun (key : α → κ) (batch : List α) : List α :=
  match batch.getLast? with
  | none => []
  | some last => batch.rtakeWhile fun x => key x = key last

/--
The number of groups that are complete after a batch. Of a stream that is sorted as a whole, these are all
but the one created last; of a stream that is sorted by a key, those created before the last run of the
batch. A batch that creates no group completes none.
-/
def completed (order : InputOrder α κ) (groups batch : List α) : Nat :=
  match order with
  | .linear => 0
  | .partiallySorted key =>
    match created groups batch, lastRun key batch with
    | [], _ => 0
    | _, [] => 0
    | _, first :: run =>
      if run.length + 1 = batch.length ∧ groups.head?.map key = some (key first) then
        0
      else
        (groups ++ created groups batch).idxOf first
  | .sorted => (groups ++ created groups batch).length - 1

def emitted (order : InputOrder α κ) (groups batch : List α) : List α :=
  (groups ++ created groups batch).take (completed order groups batch)

def kept (order : InputOrder α κ) (groups batch : List α) : List α :=
  (groups ++ created groups batch).drop (completed order groups batch)

def streamGroups (order : InputOrder α κ) : List α → List (List α) → List α
  | groups, [] => groups
  | groups, batch :: batches =>
    emitted order groups batch ++ streamGroups order (kept order groups batch) batches

/--
No element of a group arrives after the group was emitted.
-/
def NeverReopens (order : InputOrder α κ) : List α → List (List α) → Prop
  | _, [] => True
  | groups, batch :: batches =>
    (∀ x ∈ emitted order groups batch, x ∉ batches.flatten) ∧
      NeverReopens order (kept order groups batch) batches

theorem mem_created {groups batch : List α} {x : α}
    : x ∈ created groups batch ↔ x ∈ batch ∧ x ∉ groups := by
  induction batch generalizing groups with
  | nil => simp [created]
  | cons y batch ih =>
    unfold created
    split
    . next hy =>
      rw [ih]
      grind
    . next hy =>
      rw [List.mem_cons, ih]
      grind

theorem created_append (groups xs ys : List α)
    : created groups (xs ++ ys)
        =
      created groups xs ++ created (groups ++ created groups xs) ys := by
  induction xs generalizing groups with
  | nil => simp [created]
  | cons x xs ih =>
    rw [List.cons_append, created, created]
    split
    . exact ih groups
    . rw [ih, List.cons_append, List.append_assoc, List.singleton_append]

theorem nodup_append_created {groups : List α} (h : groups.Nodup) (batch : List α)
    : (groups ++ created groups batch).Nodup := by
  induction batch generalizing groups with
  | nil => simpa [created] using h
  | cons x batch ih =>
    unfold created
    split
    . exact ih h
    . next hx =>
      have hnodup : (groups ++ [x]).Nodup := List.nodup_append_comm.mp (by simpa using ⟨hx, h⟩)
      have happend := ih hnodup
      rwa [List.append_assoc, List.singleton_append] at happend

theorem created_sublist (groups batch : List α) : (created groups batch).Sublist batch := by
  induction batch generalizing groups with
  | nil => exact .slnil
  | cons x batch ih =>
    unfold created
    split
    . exact (ih groups).cons x
    . exact (ih _).cons_cons x

variable {order : InputOrder α κ}

theorem emitted_append_kept (order : InputOrder α κ) (groups batch : List α)
    : emitted order groups batch ++ kept order groups batch = groups ++ created groups batch :=
  List.take_append_drop _ _

theorem mem_emitted_append_kept {groups batch : List α} {x : α}
    : x ∈ emitted order groups batch ++ kept order groups batch ↔ x ∈ groups ∨ x ∈ batch := by
  rw [emitted_append_kept, List.mem_append, mem_created]
  tauto

theorem mem_streamGroups {groups : List α} {batches : List (List α)} {x : α}
    : x ∈ streamGroups order groups batches ↔ x ∈ groups ∨ x ∈ batches.flatten := by
  induction batches generalizing groups with
  | nil => simp [streamGroups]
  | cons batch batches ih =>
    rw [streamGroups, List.mem_append, ih, ← or_assoc, ← List.mem_append, mem_emitted_append_kept,
      List.flatten_cons, List.mem_append, or_assoc]

theorem nodup_streamGroups_iff {groups : List α} {batches : List (List α)} (h : groups.Nodup)
    : (streamGroups order groups batches).Nodup ↔ NeverReopens order groups batches := by
  induction batches generalizing groups with
  | nil => simpa [streamGroups, NeverReopens] using h
  | cons batch batches ih =>
    have hnodup := nodup_append_created h batch
    rw [← emitted_append_kept order, List.nodup_append] at hnodup
    obtain ⟨hemitted, hkept, hdisjoint⟩ := hnodup
    rw [streamGroups, NeverReopens, List.nodup_append, ih hkept]
    constructor
    . intro hstream
      refine ⟨?_, hstream.2.1⟩
      intro x hx hmem
      exact hstream.2.2 x hx x (mem_streamGroups.mpr (.inr hmem)) rfl
    . intro hnever
      refine ⟨hemitted, hnever.2, ?_⟩
      intro x hx y hy hxy
      subst hxy
      rcases mem_streamGroups.mp hy with hkeep | hmem
      . exact hdisjoint x hx x hkeep rfl
      . exact hnever.1 x hx hmem

theorem neverReopens_of_invariant {I : List α → List (List α) → Prop}
    (hstep : ∀ groups batch batches, I groups (batch :: batches) →
      (∀ x ∈ emitted order groups batch, x ∉ batches.flatten) ∧ I (kept order groups batch) batches)
    {groups : List α} {batches : List (List α)} (h : I groups batches)
    : NeverReopens order groups batches := by
  induction batches generalizing groups with
  | nil => trivial
  | cons batch batches ih =>
    obtain ⟨hemitted, hkept⟩ := hstep groups batch batches h
    exact ⟨hemitted, ih hkept⟩

theorem neverReopens_linear (groups : List α) (batches : List (List α))
    : NeverReopens (.linear : InputOrder α κ) groups batches := by
  apply neverReopens_of_invariant (I := fun _ _ => True) _ trivial
  intro groups batch batches _
  simp [emitted, completed]

section Sorted

variable {cmp : α → α → Ordering} {groups batch : List α} {batches : List (List α)}

theorem sorted_emitted_append_kept (order : InputOrder α κ)
    (h : Sorted cmp (groups ++ (batch :: batches).flatten))
    : Sorted cmp (emitted order groups batch ++ (kept order groups batch ++ batches.flatten)) := by
  rw [← List.append_assoc, emitted_append_kept]
  rw [List.flatten_cons, ← List.append_assoc] at h
  exact List.Pairwise.sublist
    (((List.Sublist.refl groups).append (created_sublist groups batch)).append (.refl _)) h

/--
What the consumer holds and what is to come, where the stream is sorted as a whole.
-/
structure SortedRest (cmp : α → α → Ordering) (groups : List α) (batches : List (List α)) : Prop where
  nodup : groups.Nodup
  sorted : Sorted cmp (groups ++ batches.flatten)
  eq_of_cmp : ∀ x ∈ groups ++ batches.flatten, ∀ y ∈ groups ++ batches.flatten,
    cmp x y = .eq → x = y

theorem neverReopens_sorted [OrientedCmp cmp] (h : SortedRest cmp groups batches)
    : NeverReopens (.sorted : InputOrder α κ) groups batches := by
  apply neverReopens_of_invariant (I := SortedRest cmp) _ h
  intro groups batch batches h
  have hnodup := nodup_append_created h.nodup batch
  rw [← emitted_append_kept (.sorted : InputOrder α κ)] at hnodup
  have hsorted := sorted_emitted_append_kept (.sorted : InputOrder α κ) h.sorted
  have hmem : ∀ x, x ∈ emitted (.sorted : InputOrder α κ) groups batch
      ++ kept (.sorted : InputOrder α κ) groups batch → x ∈ groups ++ (batch :: batches).flatten := by
    intro x hx
    rcases mem_emitted_append_kept.mp hx with hx | hx <;> simp [hx]
  constructor
  . -- The group created last separates the emitted ones from what is to come.
    intro x hx hlater
    have hkept : kept (.sorted : InputOrder α κ) groups batch ≠ [] := by
      intro hnil
      have hlength := List.length_pos_of_mem (List.mem_of_mem_take hx)
      rw [kept, List.drop_eq_nil_iff, completed] at hnil
      omega
    obtain ⟨last, hlast⟩ := List.exists_mem_of_ne_nil _ hkept
    rw [Sorted, List.pairwise_append] at hsorted
    have hle := hsorted.2.2 x hx last (List.mem_append_left _ hlast)
    have hge := (List.pairwise_append.mp hsorted.2.1).2.2 last hlast x hlater
    have heq := h.eq_of_cmp x (hmem x (List.mem_append_left _ hx)) last
      (hmem last (List.mem_append_right _ hlast)) (OrientedCmp.isLE_antisymm hle hge)
    exact (List.nodup_append.mp hnodup).2.2 x hx last hlast heq
  . have hrest : ∀ x ∈ kept (.sorted : InputOrder α κ) groups batch ++ batches.flatten,
        x ∈ groups ++ (batch :: batches).flatten := by
      intro x hx
      rcases List.mem_append.mp hx with hx | hx
      . exact hmem x (List.mem_append_right _ hx)
      . simp [hx]
    constructor
    . exact hnodup.sublist (List.sublist_append_right _ _)
    . exact List.Pairwise.sublist (List.sublist_append_right _ _) hsorted
    . intro x hx y hy
      exact h.eq_of_cmp x (hrest x hx) y (hrest y hy)

omit [DecidableEq α] in
theorem lastRun_eq_cons {key : α → κ} {first : α} {run : List α}
    (h : lastRun key batch = first :: run)
    : ∃ before, batch = before ++ first :: run ∧ (∀ x ∈ run, key x = key first) ∧
        ∀ last ∈ before.getLast?, key last ≠ key first := by
  unfold lastRun at h
  split at h
  . cases h
  . next last _ =>
    have hrun : ∀ x ∈ first :: run, key x = key last := by
      intro x hx
      rw [← h] at hx
      simpa using List.mem_rtakeWhile_imp hx
    have hfirst := hrun first List.mem_cons_self
    refine ⟨batch.rdropWhile fun x => key x = key last, ?_, ?_, ?_⟩
    . rw [← h, List.rdropWhile_append_rtakeWhile]
    . intro x hx
      rw [hrun x (List.mem_cons_of_mem _ hx), hfirst]
    . intro x hx
      obtain ⟨hne, rfl⟩ := List.mem_getLast?_eq_getLast hx
      rw [hfirst]
      simpa using List.rdropWhile_last_not _ _ hne

omit [DecidableEq α] in
theorem lastRun_ne_nil (key : α → κ) (h : batch ≠ []) : lastRun key batch ≠ [] := by
  intro hnil
  rw [lastRun, List.getLast?_eq_getLast_of_ne_nil h] at hnil
  exact (List.rtakeWhile_eq_nil_iff.mp hnil h) (by simp)

theorem append_created_run {before : List α} {first : α} (run : List α)
    (h : first ∉ groups ++ before)
    : groups ++ created groups (before ++ first :: run)
        =
      (groups ++ created groups before)
        ++ first :: created (groups ++ created groups before ++ [first]) run := by
  have hnew : first ∉ groups ++ created groups before := by
    rw [List.mem_append] at h
    rw [List.mem_append, mem_created]
    tauto
  rw [created_append, ← List.append_assoc]
  conv => left; right; unfold created
  rw [if_neg hnew]

/--
What the consumer holds and what is to come, where the stream is sorted by a key.
-/
structure KeyedRest (cmp : α → α → Ordering) (key : α → κ) (groups : List α)
    (batches : List (List α)) : Prop where
  sorted : Sorted cmp (groups ++ batches.flatten)
  one_key : ∀ x ∈ groups, ∀ y ∈ groups, key x = key y

omit [DecidableEq α] [DecidableEq κ] in
theorem KeyedRest.key_ne [TransCmp cmp] {key : α → κ} (hkey : ∀ x y, cmp x y = .eq ↔ key x = key y)
    {before run : List α} {first : α}
    (h : KeyedRest cmp key groups ((before ++ first :: run) :: batches))
    (hlast : ∀ last ∈ before.getLast?, key last ≠ key first)
    (hstart : before = [] → groups.head?.map key ≠ some (key first))
    : ∀ x ∈ groups ++ before, key x ≠ key first := by
  intro x hx heq
  cases hbefore : before.getLast? with
  | none =>
    rw [List.getLast?_eq_none_iff] at hbefore
    rw [hbefore, List.append_nil] at hx
    cases groups with
    | nil => cases hx
    | cons group groups =>
      apply hstart hbefore
      rw [List.head?_cons, Option.map_some, h.one_key group List.mem_cons_self x hx, heq]
  | some last =>
    -- The last element before the run lies between two elements that compare as equal.
    obtain ⟨init, rfl⟩ := List.getLast?_eq_some_iff.mp hbefore
    have hsorted := h.sorted
    have hsplit : groups ++ ((init ++ [last] ++ first :: run) :: batches).flatten
        = (groups ++ init) ++ last :: first :: (run ++ batches.flatten) := by simp
    rw [hsplit, Sorted, List.pairwise_append, List.pairwise_cons] at hsorted
    have hle : (cmp last first).isLE := hsorted.2.1.1 first (by simp)
    have hxlast : (cmp x last).isLE := by
      rw [← List.append_assoc, List.mem_append, List.mem_singleton] at hx
      rcases hx with hx | rfl
      . exact hsorted.2.2 x hx last List.mem_cons_self
      . simp [ReflCmp.compare_self]
    have hge : (cmp first last).isLE := by
      have hfirst : (cmp first x).isLE := by simp [(hkey first x).mpr heq.symm]
      exact TransCmp.isLE_trans hfirst hxlast
    exact hlast last hbefore ((hkey last first).mp (OrientedCmp.isLE_antisymm hle hge))

-- The batch goes on with the key of the groups that are held.
theorem completed_same_run {key : α → κ} {first : α} {run : List α}
    (hrun : lastRun key batch = first :: run) (hlength : run.length + 1 = batch.length)
    (hhead : groups.head?.map key = some (key first))
    : completed (.partiallySorted key) groups batch = 0 := by
  unfold completed
  cases created groups batch with
  | nil => rfl
  | cons _ _ => simp only [hrun, if_pos (And.intro hlength hhead)]

theorem completed_new_run {key : α → κ} {before run : List α} {first : α}
    (hrun : lastRun key (before ++ first :: run) = first :: run)
    (hstart : ¬ (run.length + 1 = (before ++ first :: run).length ∧
      groups.head?.map key = some (key first)))
    (hfirst : first ∉ groups ++ before)
    : completed (.partiallySorted key) groups (before ++ first :: run)
        =
      (groups ++ created groups before).length := by
  have hgroups := append_created_run run hfirst
  obtain ⟨group, new, hcreated⟩ : ∃ group new, created groups (before ++ first :: run) = group :: new := by
    apply List.exists_cons_of_ne_nil
    apply List.ne_nil_of_mem (a := first)
    rw [List.mem_append, not_or] at hfirst
    exact mem_created.mpr ⟨by simp, hfirst.1⟩
  simp only [completed, hcreated, hrun, if_neg hstart]
  rw [← hcreated, hgroups, List.idxOf_append_of_notMem, List.idxOf_cons_self, Nat.add_zero]
  rw [List.mem_append, mem_created]
  rw [List.mem_append] at hfirst
  tauto

omit [DecidableEq κ] in
/--
After a batch that goes on with the key of the groups that are held, all groups have this key.
-/
theorem KeyedRest.one_key_same_run {key : α → κ} {first : α} {run : List α}
    (h : KeyedRest cmp key groups batches) (hsame : ∀ x ∈ run, key x = key first)
    (hhead : groups.head?.map key = some (key first))
    : ∀ x ∈ groups ++ created groups (first :: run), key x = key first := by
  intro x hx
  rw [List.mem_append, mem_created] at hx
  rcases hx with hx | ⟨hx, -⟩
  . obtain ⟨held, hheld, hkey⟩ := Option.map_eq_some_iff.mp hhead
    rw [← hkey]
    exact h.one_key x hx held (List.mem_of_head? hheld)
  . rw [List.mem_cons] at hx
    rcases hx with rfl | hx
    . rfl
    . exact hsame x hx

theorem neverReopens_partiallySorted [TransCmp cmp] {key : α → κ}
    (hkey : ∀ x y, cmp x y = .eq ↔ key x = key y) (h : KeyedRest cmp key groups batches)
    : NeverReopens (.partiallySorted key) groups batches := by
  apply neverReopens_of_invariant (I := KeyedRest cmp key) _ h
  intro groups batch batches h
  have hsorted := sorted_emitted_append_kept (.partiallySorted key) h.sorted
  suffices hstep : (∀ x ∈ emitted (.partiallySorted key) groups batch, x ∉ batches.flatten) ∧
      ∀ x ∈ kept (.partiallySorted key) groups batch,
        ∀ y ∈ kept (.partiallySorted key) groups batch, key x = key y by
    exact ⟨hstep.1, List.Pairwise.sublist (List.sublist_append_right _ _) hsorted, hstep.2⟩
  by_cases hbatch : batch = []
  . subst hbatch
    simp only [emitted, kept, completed, created, List.take_zero, List.drop_zero, List.append_nil]
    exact ⟨by simp, h.one_key⟩
  . obtain ⟨first, run, hrun⟩ := List.exists_cons_of_ne_nil (lastRun_ne_nil key hbatch)
    obtain ⟨before, rfl, hsame, hlast⟩ := lastRun_eq_cons hrun
    by_cases hstart : run.length + 1 = (before ++ first :: run).length ∧
        groups.head?.map key = some (key first)
    . rw [emitted, kept, completed_same_run hrun hstart.1 hstart.2, List.take_zero, List.drop_zero]
      have hbefore : before = [] := by
        rw [← List.length_eq_zero_iff]
        have hlength := hstart.1
        rw [List.length_append, List.length_cons] at hlength
        omega
      subst hbefore
      have hone := h.one_key_same_run hsame hstart.2
      refine ⟨by simp, ?_⟩
      intro x hx y hy
      rw [hone x hx, hone y hy]
    . have hnew := h.key_ne hkey hlast (by
        rintro rfl hhead
        exact hstart ⟨by simp, hhead⟩)
      have hfirst : first ∉ groups ++ before := fun hmem => hnew first hmem rfl
      have hcompleted := completed_new_run hrun hstart hfirst
      have hgroups := append_created_run run hfirst
      rw [emitted, kept, hcompleted, hgroups, List.take_left, List.drop_left] at hsorted
      rw [emitted, kept, hcompleted, hgroups, List.take_left, List.drop_left]
      constructor
      . -- An emitted group lies strictly before the run, which lies before what is to come.
        intro x hx hlater
        rw [Sorted, List.pairwise_append] at hsorted
        have hle := hsorted.2.2 x hx first (by simp)
        have hge := (List.pairwise_append.mp hsorted.2.1).2.2 first List.mem_cons_self x hlater
        apply hnew x _ ((hkey x first).mp (OrientedCmp.isLE_antisymm hle hge))
        rw [List.mem_append, mem_created] at hx
        rw [List.mem_append]
        tauto
      . have hone : ∀ x ∈ first :: created (groups ++ created groups before ++ [first]) run,
            key x = key first := by
          intro x hx
          rw [List.mem_cons, mem_created] at hx
          rcases hx with rfl | hx
          . rfl
          . exact hsame x hx.1
        intro x hx y hy
        rw [hone x hx, hone y hy]

end Sorted

end StreamingGroups
