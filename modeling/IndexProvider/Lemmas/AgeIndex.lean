import IndexProvider.Impl.AgeIndex
import IndexProvider.Lemmas.Columns

/-!
This module contains what the reference index on the age column computes: which predicates it evaluates,
and for these the ids of the rows that meet them.
-/

namespace IndexProvider

open OrderedGroups OrderedKeys Enumeration

variable {W : Type}

def Operator.compareInt32 : Operator → Option (Int32 → Int32 → Bool)
  | .eq => some fun a v => a = v
  | .lt => some fun a v => a < v
  | .ltEq => some fun a v => a ≤ v
  | .gt => some fun a v => v < a
  | .gtEq => some fun a v => v ≤ a
  | _ => none

def ageFilter (relation : Option String) (op : Operator) (v : Int32) : Expr :=
  .binaryExpr (.column ⟨relation, "age"⟩) op (.literal (.int32 (some v)))

namespace AgeIndex

theorem succ_le_iff {v next : Int32} (h : succ v = some next) (a : Int32) : next ≤ a ↔ v < a := by
  unfold succ at h
  split at h
  . cases h
  . next hmax =>
    cases h
    have hne : v.toInt ≠ 2 ^ 31 - 1 := by
      intro heq
      apply hmax
      rw [← Int32.toInt_inj, heq, Int32.toInt_maxValue]
    have hlower := v.le_toInt
    have hupper := v.toInt_lt
    have hsucc : (v + 1).toInt = v.toInt + 1 := by
      rw [Int32.toInt_add, Int.bmod_def]
      simp only [Int32.toInt_one]
      omega
    rw [Int32.le_iff_toInt_le, Int32.lt_iff_toInt_lt, hsucc]
    omega

theorem succ_eq_none {v : Int32} : succ v = none ↔ v = Int32.maxValue := by
  simp [succ]

variable {pairs : List (Int32 × UInt64)} {op : Operator} {holds : Int32 → Int32 → Bool}

theorem idsOf_eq_none (hop : op.compareInt32 = some holds) (self : AgeIndex)
    (relation : Option String) (v : Int32)
    : self.idsOf (ageFilter relation op v) = none ↔ op = .gt ∧ v = Int32.maxValue := by
  cases op <;> simp [Operator.compareInt32] at hop <;> simp [idsOf, ageFilter, succ_eq_none]

theorem mem_idsOf (hop : op.compareInt32 = some holds) {relation : Option String} {v : Int32}
    {ids : List UInt64} (h : (new pairs).idsOf (ageFilter relation op v) = some ids) (id : UInt64)
    : id ∈ ids ↔ ∃ age, holds age v = true ∧ (age, id) ∈ pairs := by
  cases op <;> simp [Operator.compareInt32] at hop <;> subst hop <;>
    simp only [idsOf, ageFilter, new, ne_eq, not_true_eq_false, if_false, Option.some.injEq,
      Option.map_eq_some_iff] at h
  case eq =>
    rw [← h, mem_ofPairs]
    simp
  case gt =>
    obtain ⟨next, hnext, rfl⟩ := h
    simp [mem_range_ofPairs, succ_le_iff hnext]
  all_goals
    rw [← h, mem_range_ofPairs]

theorem scan_eq (self : AgeIndex) (filters : List Expr) (limit : Option Nat)
    : (self.scan filters limit).map List.flatten
        =
      (collect compare self.idsOf filters).map fun ids =>
        (takeLimit limit ids).map fun id => [some id] := by
  unfold scan matchingIds
  cases collect compare self.idsOf filters with
  | none => rfl
  | some ids =>
    simp only [Option.map_some, Option.bind_eq_bind, Option.bind_some]
    cases takeLimit limit ids with
    | nil => rfl
    | cons id ids => exact congrArg some (List.append_nil _)

theorem scan_eq_none {self : AgeIndex} {filters : List Expr} {limit : Option Nat}
    : self.scan filters limit = none ↔ ∃ filter ∈ filters, self.idsOf filter = none := by
  have hcollect : collect compare self.idsOf filters = none ↔ ∃ filter ∈ filters, self.idsOf filter = none :=
    collect_eq_none
  rw [← hcollect, ← Option.map_eq_none_iff (f := List.flatten), scan_eq, Option.map_eq_none_iff]

theorem scan_of_collect {self : AgeIndex} {filters : List Expr} (limit : Option Nat)
    {ids : List UInt64} (h : collect compare self.idsOf filters = some ids)
    : ∃ batches, self.scan filters limit = some batches ∧
        batches.flatten = (takeLimit limit ids).map fun id => [some id] := by
  have heq := scan_eq self filters limit
  rw [h, Option.map_some, Option.map_eq_some_iff] at heq
  exact heq

/--
A scan for one comparison returns, in ascending order, the first ids whose age satisfies it, exactly if
the comparison is not `>` with the greatest `i32`.
-/
theorem scan_exact_iff (pairs : List (Int32 × UInt64)) (hop : op.compareInt32 = some holds)
    (relation : Option String) (v : Int32) (limit : Option Nat)
    : (∃ ids : List UInt64, ids.Pairwise (· < ·) ∧
          (∀ id, id ∈ ids ↔ ∃ age, holds age v = true ∧ (age, id) ∈ pairs) ∧
            ∃ batches, (new pairs).scan [ageFilter relation op v] limit = some batches ∧
              batches.flatten = (takeLimit limit ids).map fun id => [some id])
        ↔
      ¬ (op = .gt ∧ v = Int32.maxValue) := by
  rw [← idsOf_eq_none hop (new pairs) relation v]
  constructor
  . intro h hnone
    obtain ⟨_, -, -, batches, hscan, -⟩ := h
    have hpanics : (new pairs).scan [ageFilter relation op v] limit = none :=
      scan_eq_none.mpr ⟨_, List.mem_singleton_self _, hnone⟩
    rw [hpanics] at hscan
    cases hscan
  . intro h
    obtain ⟨ids, hids⟩ := Option.ne_none_iff_exists'.mp h
    obtain ⟨keys, hkeys⟩ := exists_collect_singleton compare hids
    refine ⟨keys, (pairwise_collect hkeys).imp Std.compare_eq_lt.mp, ?_, scan_of_collect limit hkeys⟩
    intro id
    rw [mem_collect_singleton hids hkeys]
    exact mem_idsOf hop hids id

theorem scan_gt_max_panics
    : ¬ ∃ batches, (new [(25, 1)]).scan [ageFilter none .gt Int32.maxValue] none = some batches := by
  have hpanics : (new [(25, 1)]).scan [ageFilter none .gt Int32.maxValue] none = none := by
    apply scan_eq_none.mpr
    exact ⟨_, List.mem_singleton_self _, (idsOf_eq_none rfl _ none _).mpr ⟨rfl, rfl⟩⟩
  rw [hpanics]
  nofun

def extremeAges : List (Int32 × UInt64) :=
  [(25, 3), (Int32.minValue, 2), (25, 1), (Int32.maxValue, 4)]

theorem extremeAges_gt_min
    : ∃ ids : List UInt64, ids.Pairwise (· < ·) ∧
        (∀ id, id ∈ ids ↔ ∃ age, decide (Int32.minValue < age) = true ∧ (age, id) ∈ extremeAges) ∧
          ∃ batches, (new extremeAges).scan [ageFilter none .gt Int32.minValue] (some 2)
              = some batches ∧
            batches.flatten = (takeLimit (some 2) ids).map fun id => [some id] := by
  have hiff := scan_exact_iff extremeAges (show Operator.compareInt32 .gt = some _ from rfl) none
    Int32.minValue (some 2)
  exact hiff.mpr (by decide)

/--
The truth of the comparisons of the age with a literal.
-/
structure ComparesInt32 (sem : ExprSemantics W) : Prop where
  truth : ∀ op holds, Operator.compareInt32 op = some holds → ∀ a v : Int32,
    sem.truth (sem.binary op (sem.literal (.int32 (some a))) (sem.literal (.int32 (some v))))
      = some (holds a v)

-- Some row with this age satisfies the predicate.
def Satisfies (sem : ExprSemantics W) (predicate : Expr) (age : Int32) : Prop :=
  ∃ row : TableRow W, row "age" = sem.literal (.int32 (some age)) ∧
    predicate.truthOn sem row = some true

/--
The predicates that the scan has a case for.
-/
def HasCase (predicate : Expr) : Prop :=
  ∃ relation op v, Operator.compareInt32 op ≠ none ∧ predicate = ageFilter relation op v

theorem idsOf_of_not_hasCase {predicate : Expr} (h : ¬ HasCase predicate) (self : AgeIndex)
    : self.idsOf predicate = some [] := by
  unfold idsOf
  split
  . next c op v =>
    obtain ⟨relation, name⟩ := c
    split
    . rfl
    . next hname =>
      have hcase : Operator.compareInt32 op = none := by
        by_contra hop
        have hage : name = "age" := not_not.mp hname
        exact h ⟨relation, op, v, hop, by rw [ageFilter, hage]⟩
      cases op <;> simp [Operator.compareInt32] at hcase <;> rfl
  . rfl

theorem scan_of_not_hasCase {predicate : Expr} (h : ¬ HasCase predicate) (self : AgeIndex)
    (limit : Option Nat)
    : self.scan [predicate] limit = some [] := by
  have hids := idsOf_of_not_hasCase h self
  obtain ⟨keys, hkeys⟩ := exists_collect_singleton compare hids
  have hnil : keys = [] := by
    apply List.eq_nil_iff_forall_not_mem.mpr
    intro key
    rw [mem_collect_singleton hids hkeys]
    exact List.not_mem_nil
  rw [hnil] at hkeys
  cases limit <;> simp [scan, matchingIds, hkeys, takeLimit]

theorem satisfies_ageFilter {sem : ExprSemantics W} (hsem : ComparesInt32 sem)
    (hop : op.compareInt32 = some holds) {relation : Option String} {v age : Int32}
    : Satisfies sem (ageFilter relation op v) age ↔ holds age v = true := by
  have htruth : ∀ row : TableRow W, row "age" = sem.literal (.int32 (some age)) →
      (ageFilter relation op v).truthOn sem row = some (holds age v) := by
    intro row hrow
    rw [← hsem.truth op holds hop, ← hrow]
    cases op <;> simp [Operator.compareInt32] at hop <;> rfl
  constructor
  . intro h
    obtain ⟨row, hrow, hsatisfies⟩ := h
    rw [htruth row hrow] at hsatisfies
    exact Option.some_inj.mp hsatisfies
  . intro h
    refine ⟨fun _ => sem.literal (.int32 (some age)), rfl, ?_⟩
    rw [htruth _ rfl, h]

/--
The scan returns the ids of all rows that satisfy a predicate exactly if it has a case for the predicate
or no row satisfies it; without a case, it returns nothing.
-/
theorem evaluates_iff {sem : ExprSemantics W} (hsem : ComparesInt32 sem) (predicate : Expr)
    : ((∀ pairs age id, (age, id) ∈ pairs → Satisfies sem predicate age →
            ∃ batches, (new pairs).scan [predicate] none = some batches ∧
              [some id] ∈ batches.flatten)
          ↔ HasCase predicate ∨ ∀ age, ¬ Satisfies sem predicate age) ∧
        (¬ HasCase predicate → ∀ self limit, scan self [predicate] limit = some []) := by
  refine ⟨⟨?_, ?_⟩, scan_of_not_hasCase⟩
  . intro h
    by_cases hcase : HasCase predicate
    . exact .inl hcase
    . refine .inr ?_
      intro age hage
      obtain ⟨batches, hscan, hmem⟩ := h [(age, 0)] age 0 (by simp) hage
      rw [scan_of_not_hasCase hcase] at hscan
      cases hscan
      simp at hmem
  . intro h pairs age id hpair hage
    cases h with
    | inr hnever => exact absurd hage (hnever age)
    | inl hcase =>
      obtain ⟨relation, op, v, hop, rfl⟩ := hcase
      obtain ⟨holds, hop⟩ := Option.ne_none_iff_exists'.mp hop
      have hholds := (satisfies_ageFilter hsem hop).mp hage
      have hids : (new pairs).idsOf (ageFilter relation op v) ≠ none := by
        intro hnone
        obtain ⟨rfl, rfl⟩ := (idsOf_eq_none hop _ relation v).mp hnone
        cases hop
        -- No age is greater than the greatest `i32`.
        have hlt : Int32.maxValue < age := of_decide_eq_true hholds
        rw [Int32.lt_iff_toInt_lt, Int32.toInt_maxValue] at hlt
        have hupper := age.toInt_lt
        omega
      obtain ⟨ids, hids⟩ := Option.ne_none_iff_exists'.mp hids
      obtain ⟨keys, hkeys⟩ := exists_collect_singleton compare hids
      obtain ⟨batches, hscan, hflatten⟩ := scan_of_collect none hkeys
      refine ⟨batches, hscan, ?_⟩
      rw [hflatten]
      apply List.mem_map_of_mem
      apply (mem_collect_singleton hids hkeys id).mpr
      rw [mem_idsOf hop hids]
      exact ⟨age, hholds, hpair⟩

/--
SQL's comparisons on `i32`, with no other operators.
-/
def int32Semantics : ExprSemantics ScalarValue where
  literal := id
  binary
    | .notEq, .int32 (some a), .int32 (some v) => .boolean (some (a != v))
    | op, .int32 (some a), .int32 (some v) => .boolean (op.compareInt32.map fun holds => holds a v)
    | _, _, _ => .null
  node _ _ := .null
  contextual _ _ _ := .null
  truth
    | .boolean v => v
    | _ => none

theorem int32Semantics_compares : ComparesInt32 int32Semantics := by
  constructor
  intro op holds hop a v
  cases op <;> simp [Operator.compareInt32] at hop <;> subst hop <;> rfl

theorem notEq_accepted_not_evaluated
    : Index.defaultSupportsPredicate (fun expr => .ok expr.columns) "age" (ageFilter none .notEq 27)
          = .ok true ∧
        Satisfies int32Semantics (ageFilter none .notEq 27) 25 ∧
          (new [(25, 1)]).scan [ageFilter none .notEq 27] none = some [] := by
  refine ⟨rfl, ⟨fun _ => .int32 (some 25), rfl, rfl⟩, ?_⟩
  apply scan_of_not_hasCase
  rintro ⟨relation, op, v, hop, h⟩
  cases h
  exact hop rfl

theorem comparisons_evaluated
    : (∃ batches, (new [(25, 1)]).scan [ageFilter none .gtEq 25] none = some batches ∧
          [some 1] ∈ batches.flatten) ∧
        (new [(25, 1)]).scan
          [.binaryExpr (.literal (.int32 (some 25))) .ltEq (.column ⟨none, "age"⟩)] none
            = some [] := by
  constructor
  . have hcase : HasCase (ageFilter none .gtEq 25) := ⟨none, .gtEq, 25, nofun, rfl⟩
    apply (evaluates_iff int32Semantics_compares _).1.mpr (.inl hcase) [(25, 1)] 25 1
    . simp
    . exact ⟨fun _ => .int32 (some 25), rfl, rfl⟩
  . apply (evaluates_iff int32Semantics_compares _).2
    rintro ⟨relation, op, v, -, h⟩
    cases h

end AgeIndex

end IndexProvider
