import IndexProvider.Impl.Plan
import Mathlib.Algebra.GroupWithZero.Nat

/-!
This module contains what the index provider relies on in DataFusion's operators, as far as they are
parameters of the model: which plans they accept, and which schemas, partition counts and orderings
the plans they build have.
-/

namespace IndexProvider

def Schema.columns (schema : Schema) : List (String × DataType) :=
  schema.fields.map fun f => (f.name, f.dataType)

def PhysicalColumn.RefersTo (schema : Schema) (col : PhysicalColumn) : Prop :=
  (schema.fields[col.index]?).map Field.name = some col.name

instance (schema : Schema) (col : PhysicalColumn) : Decidable (col.RefersTo schema) :=
  inferInstanceAs (Decidable (_ = _))

structure JoinOn.Valid (left right : Schema) (on : JoinOn) : Prop where
  ne_nil : on ≠ []
  left_refers : ∀ p ∈ on, p.1.RefersTo left
  right_refers : ∀ p ∈ on, p.2.RefersTo right
  same_type : ∀ p ∈ on, (left.fields[p.1.index]?).map Field.dataType
    = (right.fields[p.2.index]?).map Field.dataType

def NamedExprs.fields (exprs : NamedExprs) (input : Schema) : List Field :=
  exprs.filterMap fun e => (input.fields[e.1.index]?).map fun f => { f with name := e.2 }

def selectExprs (names : List String) (schema : Schema) : NamedExprs :=
  names.map fun name => (⟨name, schema.names.idxOf name⟩, name)

def joinPairs (names : List String) (left right : Schema) : JoinOn :=
  names.map fun name => (⟨name, left.names.idxOf name⟩, ⟨name, right.names.idxOf name⟩)

namespace DataFusion

/--
What the constructors of the operators accept, and the schemas of the plans they build.
-/
structure Schemas (df : DataFusion) : Prop where
  projection_ok : ∀ exprs input, (∀ e ∈ exprs, e.1.RefersTo input.schema) →
    ∃ out, df.projection exprs input = .ok out
  projection_schema : ∀ exprs input out, df.projection exprs input = .ok out →
    out.schema = ⟨exprs.fields input.schema, input.schema.metadata⟩
  hashJoin_ok : ∀ left right on, on.Valid left.schema right.schema →
    ∃ out, df.hashJoin left right on = .ok out
  hashJoin_nil : ∀ left right, ∃ e, df.hashJoin left right [] = .error e
  hashJoin_schema : ∀ left right on out, df.hashJoin left right on = .ok out →
    out.schema.fields = left.schema.fields ++ right.schema.fields
  sortMergeJoin_ok : ∀ left right on options, on.Valid left.schema right.schema →
    options.length = on.length → ∃ out, df.sortMergeJoin left right on options = .ok out
  sortMergeJoin_options : ∀ left right on options, options.length ≠ on.length →
    ∃ e, df.sortMergeJoin left right on options = .error e
  sortMergeJoin_schema : ∀ left right on options out,
    df.sortMergeJoin left right on options = .ok out →
      out.schema.fields = left.schema.fields ++ right.schema.fields
  union_ok : ∀ first rest,
    (∀ p ∈ rest, p.schema.fields.length = first.schema.fields.length) →
      ∃ out, df.union (first :: rest) = .ok out
  union_schema : ∀ first rest out, df.union (first :: rest) = .ok out →
    out.schema.columns = first.schema.columns
  union_same : ∀ first rest out, df.union (first :: rest) = .ok out →
    (∀ p ∈ rest, p.schema = first.schema) → out.schema = first.schema
  calculateUnion_ok : ∀ first rest schema, ∃ out, df.calculateUnion (first :: rest) schema = .ok out
  aggregate_ok : ∀ groupBy input schema, (∀ e ∈ groupBy, e.1.RefersTo input.schema) →
    ∃ out, df.aggregate groupBy input schema = .ok out
  aggregate_schema : ∀ groupBy input schema out, df.aggregate groupBy input schema = .ok out →
    out.schema = ⟨groupBy.fields input.schema, input.schema.metadata⟩
  localLimit_schema : ∀ input fetch, (df.localLimit input fetch).schema = input.schema
  empty_schema : ∀ schema, (df.empty schema).schema = schema

/--
The partition counts of the plans the operators build. A hash join collects its left input and
keeps the partitions of its right one.
-/
structure Partitions (df : DataFusion) : Prop where
  projection : ∀ exprs input out, df.projection exprs input = .ok out →
    out.partitionCount = input.partitionCount
  hashJoin : ∀ left right on out, df.hashJoin left right on = .ok out →
    out.partitionCount = right.partitionCount
  sortMergeJoin : ∀ left right on options out, df.sortMergeJoin left right on options = .ok out →
    left.partitionCount = 1 → right.partitionCount = 1 → out.partitionCount = 1
  union : ∀ inputs out, df.union inputs = .ok out →
    out.partitionCount = (inputs.map PlanProperties.partitionCount).sum
  aggregate : ∀ groupBy input schema out, df.aggregate groupBy input schema = .ok out →
    out.partitionCount = input.partitionCount
  localLimit : ∀ input fetch, (df.localLimit input fetch).partitionCount = input.partitionCount
  empty : ∀ schema, (df.empty schema).partitionCount = 1

/--
The metadata of a joined schema is merged from those of the inputs, and equal metadata stays as it is.
-/
structure JoinMetadata (df : DataFusion) (merge : Metadata → Metadata → Metadata) : Prop where
  hashJoin : ∀ left right on out, df.hashJoin left right on = .ok out →
    out.schema.metadata = merge left.schema.metadata right.schema.metadata
  sortMergeJoin : ∀ left right on options out, df.sortMergeJoin left right on options = .ok out →
    out.schema.metadata = merge left.schema.metadata right.schema.metadata
  self : ∀ metadata, merge metadata metadata = metadata

end DataFusion

def PlanProperties.header (p : PlanProperties) : PlanProperties := { p with partitionCount := 0 }

def PlanProperties.Derived (df : DataFusion) (p : PlanProperties) : Prop :=
  p.outputOrdering = df.outputOrdering p.eqProperties

/--
`UnionExec` advertises what `calculate_union` computes for its inputs, which for a single one are its own
orderings. The constructors of the other operators do not look at partition counts, but to compute their
own, and every operator derives its output ordering from the orderings it advertises.
-/
structure DataFusion.Headers (df : DataFusion) : Prop where
  calculateUnion_single : ∀ eq schema, df.calculateUnion [eq] schema = .ok eq
  union : ∀ first second rest out, df.union (first :: second :: rest) = .ok out →
    df.calculateUnion ((first :: second :: rest).map PlanProperties.eqProperties) out.schema
        = .ok out.eqProperties ∧
      out.Derived df
  projection_derived : ∀ exprs input out, df.projection exprs input = .ok out → out.Derived df
  hashJoin_derived : ∀ left right on out, df.hashJoin left right on = .ok out → out.Derived df
  sortMergeJoin_derived : ∀ left right on options out,
    df.sortMergeJoin left right on options = .ok out → out.Derived df
  aggregate_derived : ∀ groupBy input schema out, df.aggregate groupBy input schema = .ok out →
    out.Derived df
  localLimit_derived : ∀ input fetch, input.Derived df → (df.localLimit input fetch).Derived df
  projection : ∀ exprs input input' out, input.header = input'.header →
    df.projection exprs input = .ok out →
      ∃ out', df.projection exprs input' = .ok out' ∧ out.header = out'.header
  hashJoin : ∀ left left' right right' on out, left.header = left'.header →
    right.header = right'.header → df.hashJoin left right on = .ok out →
      ∃ out', df.hashJoin left' right' on = .ok out' ∧ out.header = out'.header
  sortMergeJoin : ∀ left left' right right' on options out, left.header = left'.header →
    right.header = right'.header → df.sortMergeJoin left right on options = .ok out →
      ∃ out', df.sortMergeJoin left' right' on options = .ok out' ∧ out.header = out'.header
  aggregate : ∀ groupBy input input' schema out, input.header = input'.header →
    df.aggregate groupBy input schema = .ok out →
      ∃ out', df.aggregate groupBy input' schema = .ok out' ∧ out.header = out'.header
  localLimit : ∀ input input' fetch, input.header = input'.header →
    (df.localLimit input fetch).header = (df.localLimit input' fetch).header

def EquivalenceProperties.Satisfies (eq : EquivalenceProperties) (ordering : LexOrdering) : Prop :=
  ∃ o ∈ eq.orderings, ordering <+: o

/--
`calculate_union` keeps the orderings that all inputs satisfy.
-/
structure DataFusion.UnionOrderings (df : DataFusion) : Prop where
  calculateUnion : ∀ eqps schema out, df.calculateUnion eqps schema = .ok out →
    ∀ o, o ≠ [] → (out.Satisfies o ↔ ∀ eq ∈ eqps, eq.Satisfies o)

def Schema.ordering (schema : Schema) (names : List String) : LexOrdering :=
  names.map fun name => .asc ⟨name, schema.names.idxOf name⟩

structure PlanProperties.Keyed (names : List String) (p : PlanProperties) : Prop where
  orderings : ∀ o ∈ p.eqProperties.orderings, o = p.schema.ordering names
  outputOrdering : ∀ o, p.outputOrdering = some o → o = p.schema.ordering names

/--
The operators propagate an ascending ordering by key columns as a whole or drop it, where they keep
these columns under their names.
-/
structure DataFusion.KeyOrderings (df : DataFusion) : Prop where
  newWithOrderings : ∀ schema orderings, ∀ o ∈ (df.newWithOrderings schema orderings).orderings,
    o ∈ orderings ∧ o ≠ []
  outputOrdering : ∀ ordering eq, (∀ o ∈ eq.orderings, o = ordering) →
    ∀ o, df.outputOrdering eq = some o → o = ordering
  calculateUnion : ∀ ordering eqps schema out, df.calculateUnion eqps schema = .ok out →
    (∀ eq ∈ eqps, ∀ o ∈ eq.orderings, o = ordering) → ∀ o ∈ out.orderings, o = ordering
  projection : ∀ names columns input out,
    df.projection (selectExprs columns input.schema) input = .ok out →
      columns ⊆ input.schema.names → names ⊆ columns → input.Keyed names → out.Keyed names
  joinProjection : ∀ names left right joined out,
    (df.hashJoin left right (joinPairs left.schema.names left.schema right.schema) = .ok joined ∨
      ∃ options, df.sortMergeJoin left right
        (joinPairs left.schema.names left.schema right.schema) options = .ok joined) →
      df.projection (selectExprs left.schema.names joined.schema) joined = .ok out →
        names ⊆ left.schema.names → left.Keyed names → right.Keyed names → out.Keyed names
  aggregate : ∀ names input schema out,
    df.aggregate (selectExprs input.schema.names input.schema) input schema = .ok out →
      names ⊆ input.schema.names → input.Keyed names → out.Keyed names
  localLimit : ∀ names input fetch, input.Keyed names → (df.localLimit input fetch).Keyed names

/--
A plan that may have no columns advertises no empty ordering.
-/
structure DataFusion.NoEmptyOrderings (df : DataFusion) : Prop where
  empty : ∀ schema, (df.empty schema).outputOrdering ≠ some []
  aggregate : ∀ groupBy input schema out, df.aggregate groupBy input schema = .ok out →
    out.outputOrdering ≠ some []
  localLimit : ∀ input fetch, input.outputOrdering ≠ some [] →
    (df.localLimit input fetch).outputOrdering ≠ some []

end IndexProvider
