import IndexProvider.Lemmas.DataFusion
import IndexProvider.Semantics.Filter
import IndexProvider.Semantics.Relational

/-!
This module contains tables with a primary key, and what the code around the index provider promises
about them: the indexes, the record fetcher and the planning of filter expressions.
-/

namespace IndexProvider

open NamedTuple

structure Table (V R : Type) where
  keySchema : Schema
  rows : List R
  key : R → Row V
  fields_ne_nil : keySchema.fields ≠ []
  names_nodup : keySchema.names.Nodup
  keys_nodup : (rows.map key).Nodup
  key_length : ∀ row ∈ rows, (key row).length = keySchema.names.length

namespace Table

variable {V R : Type} (table : Table V R) (leaf : Expr → R → Option Bool)

def matching (filter : Expr) : List (Row V) :=
  (table.rows.filter fun row => filter.truth leaf row = some true).map table.key

/--
The index has the key columns, in any order, and its scan for the predicate yields keys of the table
that meet `P`.
-/
structure Scans (P : List (Row V) → Prop) (index : Index V) (filter : Expr) (limit : Option Nat) :
    Prop where
  columns : index.indexSchema.columns.Perm table.keySchema.columns
  scan : ∃ batches, index.scan [filter] limit = .ok (.complete batches) ∧
    (∀ row ∈ batches.flatten, row.length = index.indexSchema.names.length) ∧
      P (batches.flatten.map (select table.keySchema.names index.indexSchema.names))

/--
Without a limit, the index yields the keys of exactly the rows for which the predicate is `TRUE`, once
each.
-/
def Exact (index : Index V) (filter : Expr) : Prop :=
  table.Scans (fun keys => keys.Perm (table.matching leaf filter)) index filter none

/--
With a limit, the index yields some of these keys, and at least as many of them as the limit asks for.
-/
def Limited (n : Nat) (index : Index V) (filter : Expr) : Prop :=
  table.Scans (fun keys => keys.Nodup ∧ keys ⊆ table.matching leaf filter ∧
    min n (table.matching leaf filter).length ≤ keys.length) index filter (some n)

/--
The fetcher returns one record per key, in the order of the keys, if the batch of keys has the given
columns in their order.
-/
def FetchedBy (columns : List (String × DataType)) (mapper : RecordFetcher V R) : Prop :=
  ∀ schema : Schema, schema.columns = columns → ∀ rows ⊆ table.rows,
    mapper.fetch schema
        (rows.map fun row => select schema.names table.keySchema.names (table.key row)) = .ok rows

/--
The fetcher returns the record of each key, in the order of the keys. The batch of keys has the columns of
the key schema in their order, so the fetcher may read them by position.
-/
def FetchedAs {S : Type} (record : R → S) (mapper : RecordFetcher V S) : Prop :=
  ∀ schema : Schema, schema.columns = table.keySchema.columns → ∀ rows ⊆ table.rows,
    mapper.fetch schema (rows.map table.key) = .ok (rows.map record)

end Table

def CreatePhysicalExpr.Plans {R : Type} (createPhysicalExpr : CreatePhysicalExpr R)
    (leaf : Expr → R → Option Bool) (schema : Schema) (filters : List Expr) : Prop :=
  ∀ filter, conjunction filters = some filter →
    createPhysicalExpr filter schema = .ok ⟨.boolean, fun row => filter.truth leaf row⟩

end IndexProvider
