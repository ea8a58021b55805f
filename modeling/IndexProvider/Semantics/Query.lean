import IndexProvider.Library.Enumeration
import IndexProvider.Impl.TableProvider
import IndexProvider.Semantics.Filter
import IndexProvider.Semantics.Relational

/-!
This module contains queries on a table provider: what the engine leaves to the scan, and what it does with
the rows that the scan returns.
-/

namespace IndexProvider

open Enumeration

variable {V R : Type} [DecidableEq V]

/--
The rows a scan returns. A scan of the batch returns its rows in order, and with a limit it may stop
once it has as many as the limit asks for.
-/
def ScanPlan.Returns : ScanPlan V R → List R → Prop
  | .memTable batch limit, rows =>
    rows <+: batch ∧ (rows = batch ∨ ∃ n, limit = some n ∧ n ≤ rows.length)
  | .indexed plan, rows => plan.Returns rows

-- The filters that become filters of the scan.
def pushed (filters : List Expr) (reports : List TableProviderFilterPushDown) : List Expr :=
  ((filters.zip reports).filter fun p => p.2 ≠ .unsupported).map Prod.fst

-- The filters that the engine evaluates above the scan.
def kept (filters : List Expr) (reports : List TableProviderFilterPushDown) : List Expr :=
  ((filters.zip reports).filter fun p => p.2 ≠ .exact).map Prod.fst

def satisfiesAll (leaf : Expr → R → Option Bool) (filters : List Expr) (row : R) : Bool :=
  filters.all fun filter => filter.truth leaf row = some true

/--
The results of a query for the rows that satisfy the filters, with a limit on their number. The engine
passes each pushed filter to the scan at least once, and the limit only where it evaluates no filter above
the scan.
-/
def QueryResults {P : Type} (supportsFiltersPushdown : List Expr → Result (List TableProviderFilterPushDown))
    (scan : List Expr → Option Nat → Result P) (returns : P → List R → Prop)
    (leaf : Expr → R → Option Bool) (filters : List Expr) (limit : Option Nat) (out : List R) : Prop :=
  ∃ reports scanFilters plan rows, supportsFiltersPushdown filters = .ok reports ∧
    (∀ filter, filter ∈ scanFilters ↔ filter ∈ pushed filters reports) ∧
      scan scanFilters (if kept filters reports = [] then limit else none) = .ok plan ∧
        returns plan rows ∧
          out = takeLimit limit (rows.filter (satisfiesAll leaf (kept filters reports)))

def TableProvider.Results (df : DataFusion) (createPhysicalExpr : CreatePhysicalExpr R)
    (leaf : Expr → R → Option Bool) (self : TableProvider V R) (filters : List Expr)
    (limit : Option Nat) (out : List R) : Prop :=
  QueryResults self.supportsFiltersPushdown (self.scan df createPhysicalExpr) ScanPlan.Returns leaf filters
    limit out

end IndexProvider
