import IndexProvider.Library.Kleene
import IndexProvider.Impl.Types
import Mathlib.Data.Set.Lattice

/-!
This module contains the meaning of filters: the truth of an expression on a record in SQL's
three-valued logic, and the set of keys an `IndexFilter` tree stands for.
-/

namespace IndexProvider

variable {V R α : Type}

/--
The truth of an expression on a record, given the truth of the predicates below its `AND` / `OR`
nodes.
-/
def Expr.truth (leaf : Expr → R → Option Bool) (row : R) : Expr → Option Bool
  | .binaryExpr left .and right => Kleene.and (truth leaf row left) (truth leaf row right)
  | .binaryExpr left .or right => Kleene.or (truth leaf row left) (truth leaf row right)
  | expr => leaf expr row

namespace IndexFilter

mutual

def selects (leaf : Expr → R → Option Bool) (row : R) : IndexFilter V → Bool
  | .single _ filter => filter.truth leaf row = some true
  | .and filters => selectsAll leaf row filters
  | .or filters => selectsAny leaf row filters

def selectsAll (leaf : Expr → R → Option Bool) (row : R) : List (IndexFilter V) → Bool
  | [] => true
  | f :: fs => selects leaf row f && selectsAll leaf row fs

def selectsAny (leaf : Expr → R → Option Bool) (row : R) : List (IndexFilter V) → Bool
  | [] => false
  | f :: fs => selects leaf row f || selectsAny leaf row fs

end

theorem selectsAll_iff {leaf : Expr → R → Option Bool} {row : R} {filters : List (IndexFilter V)}
    : selectsAll leaf row filters = true ↔ ∀ f ∈ filters, f.selects leaf row = true := by
  induction filters with
  | nil => simp [selectsAll]
  | cons f fs ih => simp [selectsAll, ih]

theorem selectsAny_iff {leaf : Expr → R → Option Bool} {row : R} {filters : List (IndexFilter V)}
    : selectsAny leaf row filters = true ↔ ∃ f ∈ filters, f.selects leaf row = true := by
  induction filters with
  | nil => simp [selectsAny]
  | cons f fs ih => simp [selectsAny, ih]

variable (leaf : Index V → Expr → Set α)

mutual

def denote : IndexFilter V → Set α
  | .single index filter => leaf index filter
  | .and filters => denoteAll filters
  | .or filters => denoteAny filters

def denoteAll : List (IndexFilter V) → Set α
  | [] => Set.univ
  | f :: fs => denote f ∩ denoteAll fs

def denoteAny : List (IndexFilter V) → Set α
  | [] => ∅
  | f :: fs => denote f ∪ denoteAny fs

end

variable {leaf}

theorem mem_denoteAll {filters : List (IndexFilter V)} {x : α}
    : x ∈ denoteAll leaf filters ↔ ∀ f ∈ filters, x ∈ denote leaf f := by
  induction filters with
  | nil => simp [denoteAll]
  | cons f fs ih => simp [denoteAll, ih]

theorem mem_denoteAny {filters : List (IndexFilter V)} {x : α}
    : x ∈ denoteAny leaf filters ↔ ∃ f ∈ filters, x ∈ denote leaf f := by
  induction filters with
  | nil => simp [denoteAny]
  | cons f fs ih => simp [denoteAny, ih]

mutual

/--
Whether the plan of a tree has an order of its keys to advertise: a join keeps the order of its last input,
and a union the one all of its inputs have.
-/
def isOrdered : IndexFilter V → Bool
  | .single index _ => index.isOrdered
  | .and filters => lastOrdered false filters
  | .or filters => allOrdered filters

def lastOrdered (last : Bool) : List (IndexFilter V) → Bool
  | [] => last
  | f :: fs => lastOrdered (isOrdered f) fs

def allOrdered : List (IndexFilter V) → Bool
  | [] => true
  | f :: fs => isOrdered f && allOrdered fs

end

theorem allOrdered_iff {filters : List (IndexFilter V)}
    : allOrdered filters = true ↔ ∀ f ∈ filters, f.isOrdered = true := by
  induction filters with
  | nil => simp [allOrdered]
  | cons f fs ih => simp [allOrdered, ih]

section

variable (leaf : Index V → Expr → Set α) (le : α → α → Prop)

mutual

/--
The inputs of every union that advertises an order come in this order: no key of an input is above a key
of a later one.
-/
def Sequenced : IndexFilter V → Prop
  | .single _ _ => True
  | .and filters => AllSequenced filters
  | .or filters =>
    AllSequenced filters ∧ (allOrdered filters = true →
      (filters.map (denote leaf)).Pairwise fun D E => ∀ x ∈ D, ∀ y ∈ E, le x y)

def AllSequenced : List (IndexFilter V) → Prop
  | [] => True
  | f :: fs => Sequenced f ∧ AllSequenced fs

end

variable {leaf} {le}

theorem allSequenced_iff {filters : List (IndexFilter V)}
    : AllSequenced leaf le filters ↔ ∀ f ∈ filters, f.Sequenced leaf le := by
  induction filters with
  | nil => simp [AllSequenced]
  | cons f fs ih => simp [AllSequenced, ih]

end

section

variable (leaf : Index V → Expr → Nat)

mutual

/--
How often a tree yields a key, given how often its leaves do: joins multiply, and a union is
deduplicated.
-/
def multiplicity : IndexFilter V → Nat
  | .single index filter => leaf index filter
  | .and filters => multiplicityAll filters
  | .or filters => min 1 (multiplicityAny filters)

def multiplicityAll : List (IndexFilter V) → Nat
  | [] => 1
  | f :: fs => multiplicity f * multiplicityAll fs

def multiplicityAny : List (IndexFilter V) → Nat
  | [] => 0
  | f :: fs => multiplicity f + multiplicityAny fs

end

end

end IndexFilter

end IndexProvider
