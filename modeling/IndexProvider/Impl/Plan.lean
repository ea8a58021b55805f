import IndexProvider.Impl.Types

/-!
This module contains the physical plans and the part of DataFusion that the index provider builds
them with. The constructors of DataFusion's operators are parameters: from the properties of their
inputs they compute the properties of the new node, or fail.
-/

namespace IndexProvider

structure PhysicalColumn where
  name : String
  index : Nat
  deriving DecidableEq, Repr

structure SortOptions where
  descending : Bool
  nullsFirst : Bool
  deriving DecidableEq, Repr

structure PhysicalSortExpr where
  expr : PhysicalColumn
  options : SortOptions
  deriving DecidableEq, Repr

def PhysicalSortExpr.asc (expr : PhysicalColumn) : PhysicalSortExpr :=
  ⟨expr, { descending := false, nullsFirst := true }⟩

abbrev LexOrdering := List PhysicalSortExpr

/--
The orderings a plan advertises: every one of them holds of each of its partitions.
-/
structure EquivalenceProperties where
  orderings : List LexOrdering
  deriving DecidableEq, Repr

structure PlanProperties where
  schema : Schema
  eqProperties : EquivalenceProperties
  outputOrdering : Option LexOrdering
  partitionCount : Nat
  deriving DecidableEq, Repr

abbrev JoinOn := List (PhysicalColumn × PhysicalColumn)

-- The columns an operator computes, each with its name in the output.
abbrev NamedExprs := List (PhysicalColumn × String)

structure DataFusion where
  outputOrdering : EquivalenceProperties → Option LexOrdering
  newWithOrderings : Schema → List LexOrdering → EquivalenceProperties
  calculateUnion : List EquivalenceProperties → Schema → Result EquivalenceProperties
  projection : NamedExprs → PlanProperties → Result PlanProperties
  hashJoin : PlanProperties → PlanProperties → JoinOn → Result PlanProperties
  sortMergeJoin :
    PlanProperties → PlanProperties → JoinOn → List SortOptions → Result PlanProperties
  union : List PlanProperties → Result PlanProperties
  aggregate : NamedExprs → PlanProperties → Schema → Result PlanProperties
  localLimit : PlanProperties → Nat → PlanProperties
  empty : Schema → PlanProperties

def PlanProperties.new (df : DataFusion) (schema : Schema) (eqProperties : EquivalenceProperties)
    (partitionCount : Nat) : PlanProperties where
  schema
  eqProperties
  outputOrdering := df.outputOrdering eqProperties
  partitionCount

inductive ExecutionPlan (V : Type) where
  | indexScan (properties : PlanProperties) (index : Index V) (filters : List Expr)
      (limit : Option Nat)
  | sequentialUnion (properties : PlanProperties) (inputs : List (ExecutionPlan V))
  | projection (properties : PlanProperties) (exprs : NamedExprs) (input : ExecutionPlan V)
  | hashJoin (properties : PlanProperties) (left right : ExecutionPlan V) (on : JoinOn)
  | sortMergeJoin (properties : PlanProperties) (left right : ExecutionPlan V) (on : JoinOn)
      (sortOptions : List SortOptions)
  | union (properties : PlanProperties) (inputs : List (ExecutionPlan V))
  | aggregate (properties : PlanProperties) (groupBy : NamedExprs) (input : ExecutionPlan V)
  | localLimit (properties : PlanProperties) (input : ExecutionPlan V) (fetch : Nat)
  | empty (properties : PlanProperties)
  -- Any other source, with the batches each of its partitions yields.
  | source (properties : PlanProperties) (partitions : List (List (Batch V)))

variable {V : Type}

namespace ExecutionPlan

def properties : ExecutionPlan V → PlanProperties
  | indexScan properties _ _ _ => properties
  | sequentialUnion properties _ => properties
  | projection properties _ _ => properties
  | hashJoin properties _ _ _ => properties
  | sortMergeJoin properties _ _ _ _ => properties
  | union properties _ => properties
  | aggregate properties _ _ => properties
  | localLimit properties _ _ => properties
  | empty properties => properties
  | source properties _ => properties

def schema (plan : ExecutionPlan V) : Schema := plan.properties.schema

def outputOrdering (plan : ExecutionPlan V) : Option LexOrdering := plan.properties.outputOrdering

def partitionCount (plan : ExecutionPlan V) : Nat := plan.properties.partitionCount

@[elab_as_elim, induction_eliminator]
theorem induction {motive : ExecutionPlan V → Prop}
    (indexScan : ∀ p index filters limit, motive (.indexScan p index filters limit))
    (sequentialUnion : ∀ p inputs, (∀ input ∈ inputs, motive input) → motive (.sequentialUnion p inputs))
    (projection : ∀ p exprs input, motive input → motive (.projection p exprs input))
    (hashJoin : ∀ p left right on, motive left → motive right → motive (.hashJoin p left right on))
    (sortMergeJoin : ∀ p left right on sortOptions, motive left → motive right →
      motive (.sortMergeJoin p left right on sortOptions))
    (union : ∀ p inputs, (∀ input ∈ inputs, motive input) → motive (.union p inputs))
    (aggregate : ∀ p groupBy input, motive input → motive (.aggregate p groupBy input))
    (localLimit : ∀ p input fetch, motive input → motive (.localLimit p input fetch))
    (empty : ∀ p, motive (.empty p))
    (source : ∀ p partitions, motive (.source p partitions))
    (plan : ExecutionPlan V)
    : motive plan := by
  refine @ExecutionPlan.rec V motive (fun inputs => ∀ input ∈ inputs, motive input)
    indexScan sequentialUnion projection hashJoin sortMergeJoin union aggregate localLimit empty
    source ?_ ?_ plan
  . simp
  . intro head tail hhead htail input hinput
    cases hinput with
    | head => exact hhead
    | tail _ hinput => exact htail input hinput

end ExecutionPlan

def ProjectionExec.tryNew (df : DataFusion) (exprs : NamedExprs) (input : ExecutionPlan V) :
    Result (ExecutionPlan V) := do
  let properties ← df.projection exprs input.properties
  return .projection properties exprs input

def HashJoinExec.tryNew (df : DataFusion) (left right : ExecutionPlan V) (on : JoinOn) :
    Result (ExecutionPlan V) := do
  let properties ← df.hashJoin left.properties right.properties on
  return .hashJoin properties left right on

def SortMergeJoinExec.tryNew (df : DataFusion) (left right : ExecutionPlan V) (on : JoinOn)
    (sortOptions : List SortOptions) : Result (ExecutionPlan V) := do
  let properties ← df.sortMergeJoin left.properties right.properties on sortOptions
  return .sortMergeJoin properties left right on sortOptions

def UnionExec.tryNew (df : DataFusion) : List (ExecutionPlan V) → Result (ExecutionPlan V)
  -- A single input is returned as it is.
  | [input] => .ok input
  | inputs => do
    let properties ← df.union (inputs.map ExecutionPlan.properties)
    return .union properties inputs

def AggregateExec.tryNew (df : DataFusion) (groupBy : NamedExprs) (input : ExecutionPlan V)
    (inputSchema : Schema) : Result (ExecutionPlan V) := do
  let properties ← df.aggregate groupBy input.properties inputSchema
  return .aggregate properties groupBy input

def LocalLimitExec.new (df : DataFusion) (input : ExecutionPlan V) (fetch : Nat) :
    ExecutionPlan V :=
  .localLimit (df.localLimit input.properties fetch) input fetch

def EmptyExec.new (df : DataFusion) (schema : Schema) : ExecutionPlan V :=
  .empty (df.empty schema)

end IndexProvider
