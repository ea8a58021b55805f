import IndexProvider.Impl.Fetch

/-!
This module contains the table providers of the tests: a record batch in memory, of which a scan reads
what the indexes select or, where they answer no filter, the batch itself.
-/

namespace IndexProvider

variable {V R : Type}

inductive ScanPlan (V R : Type) where
  -- The plan of a `MemTable` over the batch.
  | memTable (batch : List R) (limit : Option Nat)
  | indexed (plan : TablePlan V R)

structure TableProvider (V R : Type) extends IndexedTableProvider V where
  schema : Schema
  batch : List R
  mapper : RecordFetcher V R

namespace TableProvider

def scanWithIndexes (df : DataFusion) (createPhysicalExpr : CreatePhysicalExpr R)
    (self : TableProvider V R) (remainingFilters : List Expr) (limit : Option Nat)
    (indexes : IndexFilters V) : Result (ScanPlan V R) := do
  let plan ← self.createExecutionPlanWithIndexes df createPhysicalExpr indexes remainingFilters limit
    self.schema self.mapper
  return .indexed plan

-- Filters are not applied here: those reported as `Unsupported` are evaluated above the scan.
def scanWithTable (self : TableProvider V R) (_remainingFilters : List Expr) (limit : Option Nat) :
    Result (ScanPlan V R) :=
  .ok (.memTable self.batch limit)

def scan (df : DataFusion) (createPhysicalExpr : CreatePhysicalExpr R) (self : TableProvider V R)
    (filters : List Expr) (limit : Option Nat) : Result (ScanPlan V R) := do
  let (indexedFilters, remainingFilters) ← self.analyzeAndOptimizeFilters filters
  if indexedFilters.isEmpty then
    self.scanWithTable remainingFilters limit
  else
    self.scanWithIndexes df createPhysicalExpr remainingFilters limit indexedFilters

def supportsFiltersPushdown (self : TableProvider V R) (filters : List Expr) :
    Result (List TableProviderFilterPushDown) :=
  self.supportsFiltersIndexPushdown filters

end TableProvider

end IndexProvider
