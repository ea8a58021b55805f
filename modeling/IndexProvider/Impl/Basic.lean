import Mathlib.Data.List.Basic

/-!
This module contains the Arrow data the index provider moves around: schemas, rows, record batches
and the errors it reports.
-/

namespace IndexProvider

inductive DataFusionError where
  | plan (msg : String)
  | internal (msg : String)
  | execution (msg : String)
  | other (msg : String)
  deriving DecidableEq, Repr

abbrev Result (α : Type) := Except DataFusionError α

inductive DataType where
  | boolean
  | int32
  | int64
  | uint32
  | uint64
  | utf8
  | other (id : Nat)
  deriving DecidableEq, Repr

-- The types under `other` are numbered, and so is their text.
def DataType.display : DataType → String
  | .boolean => "Boolean"
  | .int32 => "Int32"
  | .int64 => "Int64"
  | .uint32 => "UInt32"
  | .uint64 => "UInt64"
  | .utf8 => "Utf8"
  | .other id => toString id

-- A metadata map, listed in the order of its keys.
abbrev Metadata := List (String × String)

structure Field where
  name : String
  dataType : DataType
  nullable : Bool
  metadata : Metadata
  deriving DecidableEq, Repr

structure Schema where
  fields : List Field
  metadata : Metadata
  deriving DecidableEq, Repr

namespace Schema

def empty : Schema := ⟨[], []⟩

def names (schema : Schema) : List String := schema.fields.map Field.name

def position? (schema : Schema) (name : String) : Option Nat :=
  schema.fields.findIdx? (fun f => f.name == name)

def debug (schema : Schema) : String := toString (repr schema)

def indexOf (schema : Schema) (name : String) : Result Nat :=
  match schema.position? name with
  | some idx => .ok idx
  | none => .error (.other "Unable to get field from schema")

end Schema

-- A cell is `none` where the value is NULL.
abbrev Row (V : Type) := List (Option V)

abbrev Batch (V : Type) := List (Row V)

end IndexProvider
