import IndexProvider.Impl.Expr

/-!
This module contains the index trait, the `IndexFilter` trees the provider builds over indexes and
the union modes.
-/

namespace IndexProvider

/--
What a stream yields: record batches, up to its end or to its first error.
-/
structure RecordBatchStream (V : Type) where
  batches : List (Batch V)
  error : Option DataFusionError

-- A stream that ends without an error.
def RecordBatchStream.complete {V : Type} (batches : List (Batch V)) : RecordBatchStream V :=
  ⟨batches, none⟩

/--
The `Index` trait.
-/
structure Index (V : Type) where
  name : String
  indexSchema : Schema
  tableName : String
  columnName : String
  supportsPredicate : Expr → Result Bool
  isOrdered : Bool
  scan : List Expr → Option Nat → Result (RecordBatchStream V)

/--
The default implementation of `Index::supports_predicate`, for an index on the given column.
-/
def Index.defaultSupportsPredicate (exprToColumns : ExprToColumns) (columnName : String)
    (predicate : Expr) : Result Bool := do
  let columns ← exprToColumns predicate
  return !columns.isEmpty && columns.all fun col => col.name == columnName

inductive IndexFilter (V : Type) where
  | single (index : Index V) (filter : Expr)
  | and (filters : List (IndexFilter V))
  | or (filters : List (IndexFilter V))

abbrev IndexFilters (V : Type) := List (IndexFilter V)

inductive UnionMode where
  | parallel
  | sequential
  deriving DecidableEq, Repr

instance : Inhabited UnionMode := ⟨.parallel⟩

namespace IndexFilter

variable {V : Type}

@[elab_as_elim, induction_eliminator]
theorem induction {motive : IndexFilter V → Prop}
    (single : ∀ (index : Index V) (filter : Expr), motive (.single index filter))
    (and : ∀ (filters : List (IndexFilter V)), (∀ f ∈ filters, motive f) → motive (.and filters))
    (or : ∀ (filters : List (IndexFilter V)), (∀ f ∈ filters, motive f) → motive (.or filters))
    (f : IndexFilter V)
    : motive f := by
  refine @IndexFilter.rec V motive (fun filters => ∀ f ∈ filters, motive f)
    single and or ?_ ?_ f
  . simp
  . intro head tail hhead htail f hf
    cases hf with
    | head => exact hhead
    | tail _ hf => exact htail f hf

mutual

def NoEmptyNode : IndexFilter V → Prop
  | .single _ _ => True
  | .and filters => filters ≠ [] ∧ NoEmptyNodes filters
  | .or filters => filters ≠ [] ∧ NoEmptyNodes filters

def NoEmptyNodes : List (IndexFilter V) → Prop
  | [] => True
  | f :: fs => NoEmptyNode f ∧ NoEmptyNodes fs

end

mutual

def leaves : IndexFilter V → List (Index V × Expr)
  | .single index filter => [(index, filter)]
  | .and filters => allLeaves filters
  | .or filters => allLeaves filters

def allLeaves : List (IndexFilter V) → List (Index V × Expr)
  | [] => []
  | f :: fs => leaves f ++ allLeaves fs

end

end IndexFilter

end IndexProvider
