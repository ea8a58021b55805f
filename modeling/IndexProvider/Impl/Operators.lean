import IndexProvider.Impl.Plan

/-!
This module contains the plan nodes of the index provider itself and the choice of a join: the
constructors of `IndexScanExec` and `SequentialUnionExec` and `try_create_index_lookup_join`.
-/

namespace IndexProvider

variable {V : Type}

def IndexScanExec.tryNew (df : DataFusion) (index : Index V) (filters : List Expr)
    (limit : Option Nat) (schema : Schema) : Result (ExecutionPlan V) :=
  -- An unordered index advertises the empty ordering, which says nothing.
  let ordering : LexOrdering :=
    if index.isOrdered then
      schema.fields.zipIdx.map fun (field, i) => .asc ⟨field.name, i⟩
    else
      []
  let eq := df.newWithOrderings schema [ordering]
  .ok (.indexScan (.new df schema eq 1) index filters limit)

namespace SequentialUnionExec

def checkSchemas (schema : Schema) : Nat → List (ExecutionPlan V) → Result Unit
  | _, [] => .ok ()
  | i, input :: inputs =>
    if input.schema ≠ schema then
      .error <| .plan <| s!"SequentialUnionExec schema mismatch: input 0 has schema {schema.debug}, "
        ++ s!"but input {i} has schema {input.schema.debug}"
    else
      checkSchemas schema (i + 1) inputs

def tryNew (df : DataFusion) : List (ExecutionPlan V) → Result (ExecutionPlan V)
  | [] => .error (.plan "SequentialUnionExec requires at least one input")
  | first :: rest => do
    let schema := first.schema
    checkSchemas schema 1 rest
    let childrenEqps := (first :: rest).map fun p => p.properties.eqProperties
    let eqProperties ← df.calculateUnion childrenEqps schema
    -- Always one partition, whatever the inputs have.
    return .sequentialUnion (.new df schema eqProperties 1) (first :: rest)

end SequentialUnionExec

def joinOn (leftSchema rightSchema : Schema) : Result JoinOn :=
  leftSchema.fields.zipIdx.mapM fun (field, i) =>
    match rightSchema.indexOf field.name with
    | .ok rightIdx => .ok (⟨field.name, i⟩, ⟨field.name, rightIdx⟩)
    | .error _ =>
      .error <| .plan
        s!"PK column '{field.name}' not found in right join schema: {rightSchema.debug}"

def bothSorted (left right : ExecutionPlan V) : Option (List SortOptions) :=
  match left.outputOrdering, right.outputOrdering with
  | some leftOrd, some rightOrd =>
    if leftOrd = rightOrd then
      some (leftOrd.map PhysicalSortExpr.options)
    else
      none
  | _, _ => none

def tryCreateIndexLookupJoin (df : DataFusion) (left right : ExecutionPlan V) :
    Result (ExecutionPlan V) := do
  let joinOn ← joinOn left.schema right.schema
  match bothSorted left right with
  | some sortOptions => SortMergeJoinExec.tryNew df left right joinOn sortOptions
  | none => HashJoinExec.tryNew df left right joinOn

end IndexProvider
