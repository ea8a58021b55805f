import IndexProvider.Library.Bags
import IndexProvider.Library.Collect
import IndexProvider.Library.NamedTuple
import IndexProvider.Impl.Fetch
import Mathlib.Data.List.Dedup

/-!
This module contains the relational meaning of plans: the lists of rows a plan may emit. Operators
that promise no order may emit in any order. A plan is read as one partition, so a limit keeps the first rows
of all that its input emits.
-/

namespace IndexProvider

open NamedTuple Bags

variable {V R : Type} [DecidableEq V]

def project (exprs : NamedExprs) (row : Row V) : Row V :=
  exprs.map fun e => cell row e.1.index

/--
The rows agree on all pairs of key columns, NULL being equal to NULL.
-/
def agreeOn (on : JoinOn) (l r : Row V) : Bool :=
  on.all fun p => cell l p.1.index = cell r p.2.index

def joinRows (on : JoinOn) (ls rs : List (Row V)) : List (Row V) :=
  innerJoin (agreeOn on) (· ++ ·) ls rs

namespace ExecutionPlan

mutual

/--
The rows a plan emits in an execution in which no stream fails. An aggregation without group columns has
none: it ends with a batch without columns, which Arrow rejects.
-/
def Emits : ExecutionPlan V → List (Row V) → Prop
  | .indexScan _ index filters limit, out =>
    ∃ batches, index.scan filters limit = .ok (.complete batches) ∧ out = batches.flatten
  | .sequentialUnion _ inputs, out => ∃ outs, EmitsAll inputs outs ∧ out.Perm outs.flatten
  | .projection _ exprs input, out => ∃ rows, Emits input rows ∧ out = rows.map (project exprs)
  | .hashJoin _ left right on, out =>
    ∃ ls rs, Emits left ls ∧ Emits right rs ∧ out.Perm (joinRows on ls rs)
  | .sortMergeJoin _ left right on _, out =>
    ∃ ls rs, Emits left ls ∧ Emits right rs ∧ out.Perm (joinRows on ls rs)
  | .union _ inputs, out => ∃ outs, EmitsAll inputs outs ∧ out.Perm outs.flatten
  | .aggregate _ groupBy input, out =>
    groupBy ≠ [] ∧ ∃ rows, Emits input rows ∧ out.Perm (rows.map (project groupBy)).dedup
  | .localLimit _ input fetch, out => ∃ rows, Emits input rows ∧ out = rows.take fetch
  | .empty _, out => out = []
  | .source _ partitions, out => out.Perm (partitions.map List.flatten).flatten

def EmitsAll : List (ExecutionPlan V) → List (List (Row V)) → Prop
  | [], outs => outs = []
  | input :: inputs, outs =>
    ∃ out outs', outs = out :: outs' ∧ Emits input out ∧ EmitsAll inputs outs'

end

mutual

/--
The rows a plan may have emitted at some point of an execution, in which any stream may fail afterwards:
every operator has read a part of its inputs and emitted some of the rows that it makes of them. Where its
input is not ordered as it advertises, an aggregation emits a group more than once.
-/
def EmitsPart : ExecutionPlan V → List (Row V) → Prop
  | .indexScan _ index filters limit, out =>
    ∃ stream, index.scan filters limit = .ok stream ∧ out <+: stream.batches.flatten
  | .sequentialUnion _ inputs, out => ∃ outs, EmitsPartAll inputs outs ∧ out.Perm outs.flatten
  | .projection _ exprs input, out => ∃ rows, EmitsPart input rows ∧ out = rows.map (project exprs)
  | .hashJoin _ left right on, out =>
    ∃ ls rs, EmitsPart left ls ∧ EmitsPart right rs ∧ out.Subperm (joinRows on ls rs)
  | .sortMergeJoin _ left right on _, out =>
    ∃ ls rs, EmitsPart left ls ∧ EmitsPart right rs ∧ out.Subperm (joinRows on ls rs)
  | .union _ inputs, out => ∃ outs, EmitsPartAll inputs outs ∧ out.Perm outs.flatten
  | .aggregate _ groupBy input, out =>
    ∃ rows, EmitsPart input rows ∧ out.Subperm (rows.map (project groupBy)) ∧ (groupBy = [] → out = [])
  | .localLimit _ input fetch, out => ∃ rows, EmitsPart input rows ∧ out = rows.take fetch
  | .empty _, out => out = []
  | .source _ partitions, out => out.Subperm (partitions.map List.flatten).flatten

def EmitsPartAll : List (ExecutionPlan V) → List (List (Row V)) → Prop
  | [], outs => outs = []
  | input :: inputs, outs =>
    ∃ out outs', outs = out :: outs' ∧ EmitsPart input out ∧ EmitsPartAll inputs outs'

end

theorem emitsAll_iff {inputs : List (ExecutionPlan V)} {outs : List (List (Row V))}
    : EmitsAll inputs outs ↔ List.Forall₂ Emits inputs outs := by
  induction inputs generalizing outs with
  | nil => simp [EmitsAll]
  | cons input inputs ih =>
    simp only [EmitsAll, List.forall₂_cons_left_iff, ih]
    constructor
    . rintro ⟨out, outs', rfl, hout, houts⟩
      exact ⟨out, outs', hout, houts, rfl⟩
    . rintro ⟨out, outs', hout, houts, rfl⟩
      exact ⟨out, outs', rfl, hout, houts⟩

theorem emitsPartAll_iff {inputs : List (ExecutionPlan V)} {outs : List (List (Row V))}
    : EmitsPartAll inputs outs ↔ List.Forall₂ EmitsPart inputs outs := by
  induction inputs generalizing outs with
  | nil => simp [EmitsPartAll]
  | cons input inputs ih =>
    simp only [EmitsPartAll, List.forall₂_cons_left_iff, ih]
    constructor
    . rintro ⟨out, outs', rfl, hout, houts⟩
      exact ⟨out, outs', hout, houts, rfl⟩
    . rintro ⟨out, outs', hout, houts, rfl⟩
      exact ⟨out, outs', rfl, hout, houts⟩

/--
What a plan emits in an execution without errors it has emitted at the end of it.
-/
theorem Emits.emitsPart {plan : ExecutionPlan V} {out : List (Row V)} (h : plan.Emits out)
    : plan.EmitsPart out := by
  induction plan generalizing out with
  | indexScan p index filters limit =>
    obtain ⟨batches, hbatches, rfl⟩ := h
    exact ⟨_, hbatches, List.prefix_refl _⟩
  | sequentialUnion p inputs ih =>
    obtain ⟨outs, houts, hperm⟩ := h
    refine ⟨outs, emitsPartAll_iff.mpr ?_, hperm⟩
    exact Collect.forall₂_imp_of_mem (emitsAll_iff.mp houts) fun input hinput out => ih input hinput
  | projection p exprs input ih =>
    obtain ⟨rows, hrows, rfl⟩ := h
    exact ⟨rows, ih hrows, rfl⟩
  | hashJoin p left right on ihl ihr =>
    obtain ⟨ls, rs, hls, hrs, hperm⟩ := h
    exact ⟨ls, rs, ihl hls, ihr hrs, hperm.subperm⟩
  | sortMergeJoin p left right on sortOptions ihl ihr =>
    obtain ⟨ls, rs, hls, hrs, hperm⟩ := h
    exact ⟨ls, rs, ihl hls, ihr hrs, hperm.subperm⟩
  | union p inputs ih =>
    obtain ⟨outs, houts, hperm⟩ := h
    refine ⟨outs, emitsPartAll_iff.mpr ?_, hperm⟩
    exact Collect.forall₂_imp_of_mem (emitsAll_iff.mp houts) fun input hinput out => ih input hinput
  | aggregate p groupBy input ih =>
    obtain ⟨hgroupBy, rows, hrows, hperm⟩ := h
    exact ⟨rows, ih hrows, hperm.subperm.trans (List.dedup_sublist _).subperm,
      fun hnil => absurd hnil hgroupBy⟩
  | localLimit p input fetch ih =>
    obtain ⟨rows, hrows, rfl⟩ := h
    exact ⟨rows, ih hrows, rfl⟩
  | empty p => exact h
  | source p partitions => exact List.Perm.subperm h

end ExecutionPlan

/--
The rows a fetch returns for its input: those of the non-empty batches the keys arrive in, fetched
one batch after the other.
-/
def RecordFetchExec.Returns (exec : RecordFetchExec V R) (rows : List R) : Prop :=
  ∃ (batches : List (Batch V)) (fetched : List (List R)), exec.input.Emits batches.flatten ∧
    (batches.filter fun batch => batch.length > 0).mapM
        (exec.recordFetcher.fetch exec.input.schema) = .ok fetched ∧
      rows = fetched.flatten

/--
The rows a table scan returns. A filter keeps the rows for which its predicate is `TRUE`, and with a
fetch the first ones of these.
-/
def TablePlan.Returns : TablePlan V R → List R → Prop
  | .recordFetch exec, rows => exec.Returns rows
  | .filter predicate exec fetch, rows =>
    ∃ fetched, exec.Returns fetched ∧
      let kept := fetched.filter fun row => predicate row = some true
      rows = match fetch with
        | some n => kept.take n
        | none => kept

end IndexProvider
