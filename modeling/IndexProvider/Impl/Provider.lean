import IndexProvider.Impl.Types
import Mathlib.Data.List.ReduceOption

/-!
This module contains the filter analysis of `IndexedTableProvider`: which filters the indexes answer,
the `IndexFilter` tree they are answered with, and what is left to evaluate after the fetch.
-/

namespace IndexProvider

inductive TableProviderFilterPushDown where
  | unsupported
  | inexact
  | exact
  deriving DecidableEq, Repr

structure IndexedTableProvider (V : Type) where
  indexes : Result (List (Index V))
  unionMode : UnionMode := default

namespace IndexedTableProvider

variable {V : Type}

def findIndexForExpr (provider : IndexedTableProvider V) (expr : Expr) :
    Result (Option (IndexFilter V)) := do
  let indexes ← provider.indexes
  go indexes
where
  go : List (Index V) → Result (Option (IndexFilter V))
    | [] => return none
    | index :: indexes => do
      if ← index.supportsPredicate expr then
        return some (.single index expr)
      else
        go indexes

def combine? : Operator → Option (IndexFilter V → IndexFilter V → IndexFilter V)
  | .and => some (fun l r => .and [l, r])
  | .or => some (fun l r => .or [l, r])
  | _ => none

/--
Recursively builds an `IndexFilter` tree from a given expression. If any part of the expression
cannot be handled by an index, the result is `none`.
-/
def buildIndexFilter (provider : IndexedTableProvider V) : Expr → Result (Option (IndexFilter V))
  | .binaryExpr left op right =>
    match combine? op with
    | none => findIndexForExpr provider (.binaryExpr left op right)
    | some combine => do
      -- The right operand is analysed, and may fail, also when the left one is not indexable.
      let lFilter ← buildIndexFilter provider left
      let rFilter ← buildIndexFilter provider right
      match lFilter, rFilter with
      | some l, some r => return some (combine l r)
      | _, _ => return none
  | .column col => findIndexForExpr provider (.column col)
  | .literal value => findIndexForExpr provider (.literal value)
  | .node kind args => findIndexForExpr provider (.node kind args)

def rootFilters : List (IndexFilter V) → IndexFilters V
  | [] => []
  | [filter] => [filter]
  | filters => [.and filters]

/--
Splits the filters into a list with at most one root `IndexFilter` and the expressions that no
index answers.
-/
def analyzeAndOptimizeFilters (provider : IndexedTableProvider V) (filters : List Expr) :
    Result (IndexFilters V × List Expr) := do
  let pairs ← filters.mapM splitFilter
  let (indexedFilters, remainingFilters) := pairs.unzip
  let indexedFilters := indexedFilters.reduceOption
  let remainingFilters := remainingFilters.reduceOption
  return (rootFilters indexedFilters, remainingFilters)
where
  splitFilter (expr : Expr) : Result (Option (IndexFilter V) × Option Expr) := do
    match ← buildIndexFilter provider expr with
    | some filter => return (some filter, none)
    | none => return (none, some expr)

def supportsFiltersIndexPushdown (provider : IndexedTableProvider V) (filters : List Expr) :
    Result (List TableProviderFilterPushDown) :=
  filters.mapM fun filter => do
    if (← buildIndexFilter provider filter).isSome then
      return .exact
    else
      return .unsupported

end IndexedTableProvider

end IndexProvider
