import IndexProvider.Library.NamedTuple
import IndexProvider.Impl.ReferenceIndexes
import IndexProvider.Impl.TableProvider

/-!
This module contains the record fetchers and the table providers of the tests: employees under their row
number, and employees of several tenants under the pair of tenant and employee id.
-/

namespace IndexProvider

open NamedTuple

variable {R : Type}

structure Employee where
  id : Int32
  name : String
  age : Int32
  department : String
  deriving DecidableEq, Repr

def employeeSchema : Schema :=
  ⟨[⟨"id", .int32, false, []⟩, ⟨"name", .utf8, false, []⟩, ⟨"age", .int32, false, []⟩,
    ⟨"department", .utf8, false, []⟩], []⟩

structure TenantEmployee where
  tenantId : String
  employeeId : UInt64
  name : String
  age : Int32
  department : String
  deriving DecidableEq, Repr

def tenantEmployeeSchema : Schema :=
  ⟨[⟨"tenant_id", .utf8, false, []⟩, ⟨"employee_id", .uint64, false, []⟩, ⟨"name", .utf8, false, []⟩,
    ⟨"age", .int32, false, []⟩, ⟨"department", .utf8, false, []⟩], []⟩

def TenantEmployee.key (self : TenantEmployee) : TenantKey := (self.tenantId, self.employeeId)

-- The downcast of a column to the array of a type, which panics with the message for other columns.
def expectColumn (message : String) (schema : Schema) (i : Nat) (dataType : DataType) : Result Unit :=
  match schema.fields[i]? with
  | some field =>
    if field.dataType = dataType then
      .ok ()
    else
      .error (.other message)
  | none => .error (.other "index out of bounds")

def downcastColumn (schema : Schema) (i : Nat) (dataType : DataType) : Result Unit :=
  expectColumn "called `Option::unwrap()` on a `None` value" schema i dataType

-- The first column. Where it is a `UInt64Array`, only NULL is no id.
def rowId? (row : Row KeyValue) : Option UInt64 :=
  match cell row 0 with
  | some (.uint64 id) => some id
  | _ => none

-- `i - 1` on `u64`, which panics for zero.
def position (id : UInt64) : Result UInt64 :=
  if id = 0 then .error (.other "attempt to subtract with overflow") else .ok (id - 1)

def takeRow (batch : List R) (position : UInt64) : Result R :=
  match batch[position.toNat]? with
  | some row => .ok row
  | none => .error (.other "index out of bounds")

def applyRowFilter (batch : List R) (rowIds : List UInt64) : Result (List R) := do
  let indices ← rowIds.mapM position
  indices.mapM (takeRow batch)

/--
The batches are without their schema. `rowsFetched` of the source is the number of rows of all batches of
keys that were fetched.
-/
structure BatchMapper (R : Type) where
  schema : Schema
  batches : List (List R)

namespace BatchMapper

def fetch (self : BatchMapper R) (indexSchema : Schema) (indexBatch : Batch KeyValue) :
    Result (List R) := do
  downcastColumn indexSchema 0 .uint64
  let rowIds := indexBatch.filterMap rowId?
  match self.batches with
  | batch :: _ => applyRowFilter batch rowIds
  | [] => .error (.other "index out of bounds")

def toRecordFetcher (self : BatchMapper R) : RecordFetcher KeyValue R := ⟨self.schema, self.fetch⟩

end BatchMapper

/--
The fetcher of the example, which converts ids in the same way. It panics with a message of its own.
-/
structure InMemoryFetcher (R : Type) where
  schema : Schema
  batch : List R

namespace InMemoryFetcher

def fetch (self : InMemoryFetcher R) (indexSchema : Schema) (indexBatch : Batch KeyValue) :
    Result (List R) := do
  expectColumn "expected UInt64Array for primary key column" indexSchema 0 .uint64
  let indices ← (indexBatch.filterMap rowId?).mapM position
  indices.mapM (takeRow self.batch)

def toRecordFetcher (self : InMemoryFetcher R) : RecordFetcher KeyValue R := ⟨self.schema, self.fetch⟩

end InMemoryFetcher

-- The values of a row of keys. A NULL cell is read as the value of an empty slot.
def tenantKey (row : Row KeyValue) : TenantKey :=
  (match cell row 0 with
    | some (.utf8 tenant) => tenant
    | _ => "",
    match cell row 1 with
    | some (.uint64 id) => id
    | _ => 0)

structure CompositePkFetcher where
  data : List TenantEmployee

namespace CompositePkFetcher

def fetch (self : CompositePkFetcher) (indexSchema : Schema) (indexBatch : Batch KeyValue) :
    Result (List TenantEmployee) := do
  downcastColumn indexSchema 0 .utf8
  downcastColumn indexSchema 1 .uint64
  -- A key without a record is passed over.
  return indexBatch.filterMap fun row => self.data.find? fun record => record.key = tenantKey row

def toRecordFetcher (self : CompositePkFetcher) : RecordFetcher KeyValue TenantEmployee :=
  ⟨tenantEmployeeSchema, self.fetch⟩

end CompositePkFetcher

namespace EmployeeTableProvider

-- Row identifiers: the numbers of the rows, counted from one.
def pkIds (n : Nat) : List UInt64 := (List.range n).map fun i => UInt64.ofNat (i + 1)

/--
The provider over a batch of employees. In the source the batch is fixed.
-/
def new (exprToColumns : ExprToColumns) (batch : List Employee) (unionMode : UnionMode) :
    TableProvider KeyValue Employee where
  indexes := .ok [
    (AgeIndex.new ((batch.map Employee.age).zip (pkIds batch.length))).toIndex exprToColumns,
    (DepartmentIndex.new ((batch.map Employee.department).zip (pkIds batch.length))).toIndex
      exprToColumns
  ]
  unionMode
  schema := employeeSchema
  batch
  mapper := (BatchMapper.mk employeeSchema [batch]).toRecordFetcher

end EmployeeTableProvider

/--
The provider of the example. It has no scan for queries of which the index answers no filter.
-/
structure EmployeeTable (R : Type) where
  schema : Schema
  ageIndex : AgeIndex
  fetcher : InMemoryFetcher R

namespace EmployeeTable

/--
The table over a batch, whose ids are the numbers of its rows. In the source the batch is fixed.
-/
def new (schema : Schema) (age : R → Int32) (batch : List R) : EmployeeTable R where
  schema
  ageIndex := AgeIndex.new ((batch.map age).zip (EmployeeTableProvider.pkIds batch.length))
  fetcher := ⟨schema, batch⟩

def toIndexedTableProvider (exprToColumns : ExprToColumns) (self : EmployeeTable R) :
    IndexedTableProvider KeyValue where
  indexes := .ok [memoryIndex exprToColumns "age_index" "employees" "age" idKeySchema
    self.ageIndex.createDataFromFilters]

def scan (df : DataFusion) (exprToColumns : ExprToColumns) (self : EmployeeTable R)
    (filters : List Expr) (limit : Option Nat) : Result (RecordFetchExec KeyValue R) := do
  let (indexed, _remaining) ←
    (self.toIndexedTableProvider exprToColumns).analyzeAndOptimizeFilters filters
  if indexed.isEmpty then
    .error (.other "not implemented: full-table scan fallback not shown in this example")
  else
    RecordFetchExec.tryNew df indexed limit self.fetcher.toRecordFetcher self.schema .parallel

def supportsFiltersPushdown (exprToColumns : ExprToColumns) (self : EmployeeTable R)
    (filters : List Expr) : Result (List TableProviderFilterPushDown) :=
  (self.toIndexedTableProvider exprToColumns).supportsFiltersIndexPushdown filters

end EmployeeTable

namespace MultiTenantEmployeeProvider

def new (exprToColumns : ExprToColumns) (batch : List TenantEmployee) (unionMode : UnionMode) :
    TableProvider KeyValue TenantEmployee where
  indexes := .ok [
    (CompositePkAgeIndex.new ((batch.map TenantEmployee.age).zip
      (batch.map TenantEmployee.key))).toIndex exprToColumns,
    (CompositePkDeptIndex.new ((batch.map TenantEmployee.department).zip
      (batch.map TenantEmployee.key))).toIndex exprToColumns
  ]
  unionMode
  schema := tenantEmployeeSchema
  batch
  mapper := (CompositePkFetcher.mk batch).toRecordFetcher

end MultiTenantEmployeeProvider

end IndexProvider
