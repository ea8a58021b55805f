import IndexProvider.Library.Enumeration
import IndexProvider.Library.OrderedKeys
import IndexProvider.Impl.AgeIndex

/-!
This module contains the indexes of the tests: ordered maps from the ages or the departments of a table to
its primary keys, which are either row ids or pairs of a tenant and an employee id.
-/

namespace IndexProvider

open OrderedGroups OrderedKeys Enumeration

inductive KeyValue where
  | uint64 (v : UInt64)
  | utf8 (v : String)
  deriving DecidableEq, Repr

abbrev TenantKey := String × UInt64

def createIndexSchema (fields : List Field) : Schema := ⟨fields, []⟩

def idKeySchema : Schema := createIndexSchema [⟨"id", .uint64, false, []⟩]

def compositePkSchema : Schema :=
  createIndexSchema [⟨"tenant_id", .utf8, false, []⟩, ⟨"employee_id", .uint64, false, []⟩]

def idKeyRow (id : UInt64) : Row KeyValue := [some (.uint64 id)]

def tenantKeyRow (key : TenantKey) : Row KeyValue := [some (.utf8 key.1), some (.uint64 key.2)]

/--
The `create_data_from_filters` of an index. The keys that a single filter adds are `none` where computing
them panics.
-/
def createDataFromFilters {κ : Type} (cmp : κ → κ → Ordering) (row : κ → Row KeyValue)
    (keysOf : Expr → Option (List κ)) (filters : List Expr) (limit : Option Nat) :
    Option (List (Batch KeyValue)) := do
  let keys ← collect cmp keysOf filters
  let keys := takeLimit limit keys
  if keys.isEmpty then
    return []
  else
    return [keys.map row]

/--
What the implementations of the `Index` trait for these indexes share. A scan that panics is an error.
-/
def memoryIndex (exprToColumns : ExprToColumns) (name tableName columnName : String)
    (indexSchema : Schema) (data : List Expr → Option Nat → Option (List (Batch KeyValue))) :
    Index KeyValue where
  name
  indexSchema
  tableName
  columnName
  supportsPredicate := Index.defaultSupportsPredicate exprToColumns columnName
  isOrdered := false
  scan filters limit :=
    match data filters limit with
    | some batches => .ok (.complete batches)
    | none => .error (.other "attempt to add with overflow")

namespace AgeIndex

def createDataFromFilters (self : AgeIndex) (filters : List Expr) (limit : Option Nat) :
    Option (List (Batch KeyValue)) :=
  IndexProvider.createDataFromFilters compare idKeyRow self.idsOf filters limit

def toIndex (exprToColumns : ExprToColumns) (self : AgeIndex) : Index KeyValue :=
  memoryIndex exprToColumns "age_index" "employee" "age" idKeySchema self.createDataFromFilters

end AgeIndex

/--
The keys that a filter adds to a lookup by department. Other filters than equality of the department with a
string add none.
-/
def departmentKeys {κ : Type} (index : Std.TreeMap String (List κ)) : Expr → Option (List κ)
  | .binaryExpr (.column c) op (.literal (.utf8 (some v))) =>
    if c.name = "department" ∧ op = .eq then
      some (index[v]?.getD [])
    else
      some []
  | _ => some []

structure DepartmentIndex where
  index : Std.TreeMap String (List UInt64)

namespace DepartmentIndex

def new (pairs : List (String × UInt64)) : DepartmentIndex := ⟨ofPairs pairs⟩

def createDataFromFilters (self : DepartmentIndex) (filters : List Expr) (limit : Option Nat) :
    Option (List (Batch KeyValue)) :=
  IndexProvider.createDataFromFilters compare idKeyRow (departmentKeys self.index) filters limit

def toIndex (exprToColumns : ExprToColumns) (self : DepartmentIndex) : Index KeyValue :=
  memoryIndex exprToColumns "department_index" "employees" "department" idKeySchema
    self.createDataFromFilters

end DepartmentIndex

structure CompositePkAgeIndex where
  index : Std.TreeMap Int32 (List TenantKey)

namespace CompositePkAgeIndex

def new (pairs : List (Int32 × TenantKey)) : CompositePkAgeIndex := ⟨ofPairs pairs⟩

-- Unlike `AgeIndex`, this has no case for `>=` and `<`.
def keysOf (self : CompositePkAgeIndex) : Expr → Option (List TenantKey)
  | .binaryExpr (.column c) op (.literal (.int32 (some v))) =>
    if c.name ≠ "age" then
      some []
    else
      match op with
      | .eq => some (self.index[v]?.getD [])
      | .gt => (AgeIndex.succ v).map fun next => range self.index (next ≤ ·)
      | .ltEq => some (range self.index (· ≤ v))
      | _ => some []
  | _ => some []

def createDataFromFilters (self : CompositePkAgeIndex) (filters : List Expr) (limit : Option Nat) :
    Option (List (Batch KeyValue)) :=
  IndexProvider.createDataFromFilters comparePairs tenantKeyRow self.keysOf filters limit

def toIndex (exprToColumns : ExprToColumns) (self : CompositePkAgeIndex) : Index KeyValue :=
  memoryIndex exprToColumns "composite_age_index" "multi_tenant_employees" "age" compositePkSchema
    self.createDataFromFilters

end CompositePkAgeIndex

structure CompositePkDeptIndex where
  index : Std.TreeMap String (List TenantKey)

namespace CompositePkDeptIndex

def new (pairs : List (String × TenantKey)) : CompositePkDeptIndex := ⟨ofPairs pairs⟩

def createDataFromFilters (self : CompositePkDeptIndex) (filters : List Expr) (limit : Option Nat) :
    Option (List (Batch KeyValue)) :=
  IndexProvider.createDataFromFilters comparePairs tenantKeyRow (departmentKeys self.index) filters limit

def toIndex (exprToColumns : ExprToColumns) (self : CompositePkDeptIndex) : Index KeyValue :=
  memoryIndex exprToColumns "composite_dept_index" "multi_tenant_employees" "department"
    compositePkSchema self.createDataFromFilters

end CompositePkDeptIndex

end IndexProvider
