import IndexProvider.Impl.Operators
import IndexProvider.Impl.Provider

/-!
This module contains the compilation of `IndexFilter` trees into plans that produce primary keys,
and the plans that fetch the records of these keys.
-/

namespace IndexProvider

variable {V R : Type}

namespace RecordFetchExec

def pkExprs (planSchema pkSchema : Schema) : Result NamedExprs :=
  pkSchema.fields.mapM fun field =>
    match planSchema.position? field.name with
    | some idx => .ok (⟨field.name, idx⟩, field.name)
    | none =>
      .error <| .plan
        s!"Primary key column '{field.name}' not found in plan schema: {planSchema.debug}"

def projectToPkSchema (df : DataFusion) (plan : ExecutionPlan V) (pkSchema : Schema) :
    Result (ExecutionPlan V) :=
  -- Only the fields are compared: the schemas may still differ in their metadata.
  if plan.schema.fields = pkSchema.fields then
    .ok plan
  else do
    let exprs ← pkExprs plan.schema pkSchema
    ProjectionExec.tryNew df exprs plan

def joinAll (df : DataFusion) (pkSchema : Schema) :
    ExecutionPlan V → List (ExecutionPlan V) → Result (ExecutionPlan V)
  | left, [] => .ok left
  | left, right :: plans => do
    let joined ← tryCreateIndexLookupJoin df left right
    let left ← projectToPkSchema df joined pkSchema
    joinAll df pkSchema left plans

def withLimit (df : DataFusion) (plan : ExecutionPlan V) : Option Nat → ExecutionPlan V
  | some limit => LocalLimitExec.new df plan limit
  | none => plan

def buildAnd (df : DataFusion) (limit : Option Nat) : List (ExecutionPlan V) →
    Result (ExecutionPlan V)
  | [] => .error (.plan "IndexFilter::And requires at least one sub-filter")
  | left :: plans => do
    let left ← joinAll df left.schema left plans
    return withLimit df left limit

def unionExec (df : DataFusion) (unionMode : UnionMode) (plans : List (ExecutionPlan V)) :
    Result (ExecutionPlan V) :=
  match unionMode with
  | .parallel => UnionExec.tryNew df plans
  | .sequential => SequentialUnionExec.tryNew df plans

def groupExprs (schema : Schema) : NamedExprs :=
  schema.fields.zipIdx.map fun (field, i) => (⟨field.name, i⟩, field.name)

def buildOr (df : DataFusion) (unionMode : UnionMode) (limit : Option Nat) :
    List (ExecutionPlan V) → Result (ExecutionPlan V)
  | [] => .ok (EmptyExec.new df .empty)
  | first :: rest => do
    let canonicalSchema := first.schema
    let normalizedPlans ← (first :: rest).mapM fun plan => projectToPkSchema df plan canonicalSchema
    let unionInput ← unionExec df unionMode normalizedPlans
    let aggExec ← AggregateExec.tryNew df (groupExprs canonicalSchema) unionInput canonicalSchema
    return withLimit df aggExec limit

mutual

def buildScanExec (df : DataFusion) (unionMode : UnionMode) :
    IndexFilter V → Option Nat → Result (ExecutionPlan V)
  | .single index filter, limit => IndexScanExec.tryNew df index [filter] limit index.indexSchema
  | .and filters, limit => do
    -- A limit on one side of a join would drop keys that the other sides select.
    let plans ← buildScanExecs df unionMode filters none
    buildAnd df limit plans
  | .or filters, limit => do
    let originalPlans ← buildScanExecs df unionMode filters limit
    buildOr df unionMode limit originalPlans

def buildScanExecs (df : DataFusion) (unionMode : UnionMode) :
    List (IndexFilter V) → Option Nat → Result (List (ExecutionPlan V))
  | [], _ => .ok []
  | filter :: filters, limit => do
    let plan ← buildScanExec df unionMode filter limit
    let plans ← buildScanExecs df unionMode filters limit
    return plan :: plans

end

end RecordFetchExec

/--
The `RecordFetcher` trait, for a fetcher whose answer depends on the record batch of keys only. The
batch comes with its schema.
-/
structure RecordFetcher (V R : Type) where
  schema : Schema
  fetch : Schema → Batch V → Result (List R)

structure RecordFetchExec (V R : Type) where
  indexes : IndexFilters V
  limit : Option Nat
  recordFetcher : RecordFetcher V R
  input : ExecutionPlan V
  schema : Schema
  unionMode : UnionMode

def RecordFetchExec.tryNew (df : DataFusion) (indexes : IndexFilters V) (limit : Option Nat)
    (recordFetcher : RecordFetcher V R) (schema : Schema) (unionMode : UnionMode) :
    Result (RecordFetchExec V R) :=
  match indexes with
  | [] => .error (.plan "RecordFetchExec requires at least one index")
  | _ :: _ :: _ => .error (.internal "RecordFetchExec expects a single root IndexFilter")
  | [indexFilter] => do
    let input ← buildScanExec df unionMode indexFilter limit
    return { indexes, limit, recordFetcher, input, schema, unionMode }

/--
The plan of a table scan: a fetch, below a filter where some expressions are not indexed.
-/
inductive TablePlan (V R : Type) where
  | recordFetch (fetch : RecordFetchExec V R)
  | filter (predicate : R → Option Bool) (input : RecordFetchExec V R) (fetch : Option Nat)

/--
A physical expression: its type and, for a predicate, its truth on a record.
-/
structure PhysicalExpr (R : Type) where
  dataType : DataType
  truth : R → Option Bool

abbrev CreatePhysicalExpr (R : Type) := Expr → Schema → Result (PhysicalExpr R)

def FilterExec.build (predicate : PhysicalExpr R) (input : RecordFetchExec V R)
    (fetch : Option Nat) : Result (TablePlan V R) :=
  if predicate.dataType = .boolean then
    .ok (.filter predicate.truth input fetch)
  else
    .error <| .plan
      s!"Filter predicate must return BOOLEAN values, got {predicate.dataType.display}"

def conjunction : List Expr → Option Expr
  | [] => none
  | expr :: exprs => some (exprs.foldl (fun left right => .binaryExpr left .and right) expr)

def IndexedTableProvider.createExecutionPlanWithIndexes (df : DataFusion)
    (createPhysicalExpr : CreatePhysicalExpr R) (provider : IndexedTableProvider V)
    (indexes : IndexFilters V) (remainingFilters : List Expr) (limit : Option Nat)
    (schema : Schema) (mapper : RecordFetcher V R) : Result (TablePlan V R) :=
  match conjunction remainingFilters with
  | none => do
    let exec ← RecordFetchExec.tryNew df indexes limit mapper schema provider.unionMode
    return .recordFetch exec
  | some predicate => do
    let predicate ← createPhysicalExpr predicate schema
    -- The limit must not reach the fetch: it would truncate rows before they are filtered.
    let fetch ← RecordFetchExec.tryNew df indexes none mapper schema provider.unionMode
    FilterExec.build predicate fetch limit

end IndexProvider
