import IndexProvider.Library.StreamingGroups
import IndexProvider.Semantics.Ordering
import IndexProvider.Semantics.Relational

/-!
This module contains the execution of plans as streams of record batches, one for each partition. Here
an operator may rely on the orderings its inputs advertise: where they do not have them, it does not
compute its relational meaning.
-/

namespace IndexProvider

open NamedTuple Sorting StreamingGroups

abbrev RecordStream (V : Type) := List (Batch V)

variable {V : Type}

def allRows (partitions : List (RecordStream V)) : List (Row V) :=
  (partitions.map List.flatten).flatten

inductive Step (V : Type) where
  -- The planner merges the partitions of an input that has to be a single one.
  | merge (partitions : List (RecordStream V))
  | mergeJoin (on : JoinOn) (sortOptions : List SortOptions) (left right : List (Row V))
  -- A grouping that takes its input to be ordered as given.
  | dedup (order : InputOrder (Row V) (List (Option V))) (groups : RecordStream V)

/--
The columns of the groups by which the input is ordered, up to the first column it is ordered by that
is not grouped by.
-/
def orderedGroups (ordering : Option LexOrdering) (groupBy : NamedExprs) : List Nat :=
  ((ordering.getD []).map fun e => groupBy.findIdx? fun g => g.1.index == e.expr.index)
    |>.takeWhile Option.isSome
    |>.reduceOption

/--
The `InputOrderMode` of an aggregation: its input is sorted, if it is ordered by all group columns, and
otherwise sorted by those it is ordered by.
-/
def inputOrder (ordering : Option LexOrdering) (groupBy : NamedExprs) :
    InputOrder (Row V) (List (Option V)) :=
  let ordered := orderedGroups ordering groupBy
  if ordered = [] then
    .linear
  else if ∀ i < groupBy.length, i ∈ ordered then
    .sorted
  else
    .partiallySorted fun row => ordered.map (cell row)

/--
`SequentialUnionExec::execute`, given the partitions of its inputs: their streams one after another.
-/
def SequentialUnionExec.execute (partition : Nat) (inputs : List (List (RecordStream V))) :
    Result (RecordStream V) :=
  if partition ≠ 0 then
    .error <| .internal s!"SequentialUnionExec only supports partition 0, got {partition}"
  else
    .ok inputs.flatten.flatten

def RecordFetchExec.inputStream (partition : Nat) (partitions : List (RecordStream V)) :
    Result (RecordStream V) :=
  if partition ≠ 0 then
    .error <| .internal
      s!"RecordFetchExec executed with partition {partition} but expected 0"
  else
    .ok (partitions.headD [])

section

variable [Ord V]

/--
The inputs a sort-merge join takes for granted: both sides are sorted by the join pairs, in their order
and under the sort options.
-/
structure MergeSorted (on : JoinOn) (sortOptions : List SortOptions) (ls rs : List (Row V)) :
    Prop where
  left : Sorted (LexOrdering.cmp ((on.zip sortOptions).map fun p => ⟨p.1.1, p.2⟩)) ls
  right : Sorted (LexOrdering.cmp ((on.zip sortOptions).map fun p => ⟨p.1.2, p.2⟩)) rs

def PlanProperties.HoldsAll (p : PlanProperties) (partitions : List (RecordStream V)) : Prop :=
  ∀ partition ∈ partitions, p.Holds partition.flatten

namespace ExecutionPlan

/--
The single stream that an operator reads from a plan. Several partitions are merged by the planner, in
the order the plan advertises.
-/
def Merges (C : Step V → Prop) (p : PlanProperties) (partitions : List (RecordStream V))
    (stream : RecordStream V) : Prop :=
  if partitions.length = 1 then
    partitions = [stream]
  else
    C (.merge partitions) ∧ stream.flatten.Perm (allRows partitions) ∧
      (p.HoldsAll partitions → p.Holds stream.flatten)

variable [DecidableEq V]

mutual

/--
The partitions a plan may produce in an execution whose steps meet `C`. Every operator of DataFusion
is taken to have the orderings it advertises, where its inputs have theirs.
-/
def Runs (C : Step V → Prop) : ExecutionPlan V → List (RecordStream V) → Prop
  | .indexScan _ index filters limit, partitions =>
    ∃ batches, index.scan filters limit = .ok (.complete batches) ∧ partitions = [batches]
  | .sequentialUnion _ inputs, partitions =>
    ∃ streams, RunsSingles C inputs streams ∧ partitions = [streams.flatten]
  | .projection p exprs input, partitions =>
    ∃ inputs, Runs C input inputs ∧
      partitions = inputs.map (fun stream => stream.map fun batch => batch.map (project exprs)) ∧
        (input.properties.HoldsAll inputs → p.HoldsAll partitions)
  | .hashJoin p left right on, partitions =>
    ∃ lefts rights ls, Runs C left lefts ∧ Runs C right rights ∧
      Merges C left.properties lefts ls ∧
        List.Forall₂ (fun rs out => List.Perm (List.flatten out) (joinRows on ls.flatten (List.flatten rs)))
          rights partitions ∧
          (left.properties.Holds ls.flatten → right.properties.HoldsAll rights →
            p.HoldsAll partitions)
  | .sortMergeJoin p left right on sortOptions, partitions =>
    ∃ lefts rights ls rs out, Runs C left lefts ∧ Runs C right rights ∧
      Merges C left.properties lefts ls ∧ Merges C right.properties rights rs ∧
        C (.mergeJoin on sortOptions ls.flatten rs.flatten) ∧ partitions = [out] ∧
          (MergeSorted on sortOptions ls.flatten rs.flatten →
            List.Perm (List.flatten out) (joinRows on ls.flatten rs.flatten) ∧
              (left.properties.Holds ls.flatten → right.properties.Holds rs.flatten →
                p.HoldsAll partitions))
  | .union _ inputs, partitions =>
    ∃ streams, RunsAll C inputs streams ∧ partitions = streams.flatten
  | .aggregate p groupBy input, partitions =>
    groupBy ≠ [] ∧ ∃ inputs stream out, Runs C input inputs ∧
      Merges C input.properties inputs stream ∧ C (.dedup (inputOrder input.outputOrdering groupBy)
        (stream.map fun batch => batch.map (project groupBy))) ∧
        partitions = [out] ∧
          List.Perm (List.flatten out)
            (streamGroups (inputOrder input.outputOrdering groupBy) []
              (stream.map fun batch => batch.map (project groupBy))) ∧
            (input.properties.Holds stream.flatten → p.HoldsAll partitions)
  | .localLimit p input fetch, partitions =>
    ∃ stream out, Runs C input [stream] ∧ partitions = [out] ∧
      List.flatten out = stream.flatten.take fetch ∧
        (input.properties.Holds stream.flatten → p.HoldsAll partitions)
  | .empty _, partitions => partitions = [[]]
  | .source _ sources, partitions => partitions = sources

def RunsAll (C : Step V → Prop) : List (ExecutionPlan V) → List (List (RecordStream V)) → Prop
  | [], streams => streams = []
  | input :: inputs, streams =>
    ∃ partitions streams', streams = partitions :: streams' ∧ Runs C input partitions ∧
      RunsAll C inputs streams'

def RunsSingles (C : Step V → Prop) : List (ExecutionPlan V) → List (RecordStream V) → Prop
  | [], streams => streams = []
  | input :: inputs, streams =>
    ∃ partitions stream streams', streams = stream :: streams' ∧ Runs C input partitions ∧
      Merges C input.properties partitions stream ∧ RunsSingles C inputs streams'

end

end ExecutionPlan

end

end IndexProvider
