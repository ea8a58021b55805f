import IndexProvider.Library.Enumeration
import IndexProvider.Library.OrderedGroups
import IndexProvider.Library.OrderedKeys
import IndexProvider.Impl.Types

/-!
This module contains the reference index of the examples and of the tests: an ordered map from ages to
row ids, scanned by comparisons of the age with a literal.
-/

namespace IndexProvider

open OrderedGroups OrderedKeys Enumeration

structure AgeIndex where
  index : Std.TreeMap Int32 (List UInt64)

namespace AgeIndex

def new (pairs : List (Int32 × UInt64)) : AgeIndex := ⟨ofPairs pairs⟩

/--
`v + 1` on `i32`, which panics where it overflows.
-/
def succ (v : Int32) : Option Int32 := if v = Int32.maxValue then none else some (v + 1)

/--
The ids that a filter adds to the result. Other filters than comparisons of the age with an `i32` add
none.
-/
def idsOf (self : AgeIndex) : Expr → Option (List UInt64)
  | .binaryExpr (.column c) op (.literal (.int32 (some v))) =>
    if c.name ≠ "age" then
      some []
    else
      match op with
      | .eq => some (self.index[v]?.getD [])
      | .gt => (succ v).map fun next => range self.index (next ≤ ·)
      | .gtEq => some (range self.index (v ≤ ·))
      | .lt => some (range self.index (· < v))
      | .ltEq => some (range self.index (· ≤ v))
      | _ => some []
  | _ => some []

def matchingIds (self : AgeIndex) (filters : List Expr) (limit : Option Nat) :
    Option (List UInt64) :=
  (collect compare self.idsOf filters).map (takeLimit limit)

/--
The batches of a scan.
-/
def scan (self : AgeIndex) (filters : List Expr) (limit : Option Nat) :
    Option (List (Batch UInt64)) := do
  let ids ← self.matchingIds filters limit
  if ids.isEmpty then
    return []
  else
    return [ids.map fun id => [some id]]

end AgeIndex

end IndexProvider
