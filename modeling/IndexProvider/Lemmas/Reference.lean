import IndexProvider.Lemmas.UnionModeSim
import Mathlib.Data.Nat.Find

/-!
This module contains a concrete instance of the operator constructors and shows that it has the
properties they are relied on for.
-/

namespace IndexProvider

namespace LexOrdering

def longest (p : LexOrdering → Bool) (ordering : LexOrdering) : LexOrdering :=
  ordering.take (Nat.findGreatest (fun n => p (ordering.take n) = true) ordering.length)

def rename (f : PhysicalColumn → Option PhysicalColumn) : LexOrdering → LexOrdering
  | [] => []
  | e :: ordering =>
    match f e.expr with
    | some col => ⟨col, e.options⟩ :: rename f ordering
    | none => []

theorem longest_prefix (p : LexOrdering → Bool) (ordering : LexOrdering)
    : longest p ordering <+: ordering := List.take_prefix _ _

theorem longest_satisfies {p : LexOrdering → Bool} {ordering : LexOrdering}
    (h : longest p ordering ≠ [])
    : p (longest p ordering) = true := by
  apply Nat.findGreatest_of_ne_zero (P := fun n => p (ordering.take n) = true) rfl
  intro hzero
  apply h
  rw [longest, hzero, List.take_zero]

theorem prefix_longest {p : LexOrdering → Bool} {ordering o : LexOrdering} (ho : o <+: ordering)
    (hp : p o = true)
    : o <+: longest p ordering := by
  have htake : o = ordering.take o.length := List.prefix_iff_eq_take.mp ho
  rw [htake] at hp
  have hle := Nat.le_findGreatest (P := fun n => p (ordering.take n) = true) ho.length_le hp
  rw [htake, longest]
  exact List.take_prefix_take_left hle

end LexOrdering

namespace EquivalenceProperties

def satisfies (eq : EquivalenceProperties) (ordering : LexOrdering) : Bool :=
  eq.orderings.any ordering.isPrefixOf

def ofOrderings (orderings : List LexOrdering) : EquivalenceProperties :=
  ⟨orderings.filter fun o => !o.isEmpty⟩

end EquivalenceProperties

def NamedExprs.output? (exprs : NamedExprs) (col : PhysicalColumn) : Option PhysicalColumn :=
  if col.name ∈ exprs.map fun e => e.1.name then
    (exprs[(exprs.map fun e => e.1.name).idxOf col.name]?).map fun e =>
      ⟨e.2, (exprs.map fun e => e.1.name).idxOf col.name⟩
  else
    none

namespace Metadata

def mergeEntry (entry : String × String) (left : Metadata) (merge : Metadata → Metadata) :
    Metadata → Metadata
  | [] => entry :: left
  | entry' :: right =>
    match compare entry.1 entry'.1 with
    | .lt => entry :: merge (entry' :: right)
    | .eq => entry :: merge right
    | .gt => entry' :: mergeEntry entry left merge right

/--
The entries of both maps in the order of their keys, where the left map wins.
-/
def merge : Metadata → Metadata → Metadata
  | [], right => right
  | entry :: left, right => mergeEntry entry left (merge left) right

theorem merge_self (metadata : Metadata) : merge metadata metadata = metadata := by
  induction metadata with
  | nil => rfl
  | cons entry metadata ih => simp only [merge, mergeEntry, Std.ReflCmp.compare_self, ih]

end Metadata

def Schema.mergeFields (first : Schema) (schemas : List Schema) : List Field :=
  first.fields.zipIdx.map fun (field, i) =>
    { field with nullable := field.nullable || schemas.any fun schema =>
      ((schema.fields[i]?).map Field.nullable).getD false }

namespace DataFusion

def properties (schema : Schema) (orderings : List LexOrdering) (partitionCount : Nat) :
    PlanProperties where
  schema
  eqProperties := .ofOrderings orderings
  outputOrdering := (EquivalenceProperties.ofOrderings orderings).orderings.head?
  partitionCount

def unionOrderings (first : EquivalenceProperties) (rest : List EquivalenceProperties) :
    List LexOrdering :=
  first.orderings.map (LexOrdering.longest fun o => rest.all fun eq => eq.satisfies o)

def reference : DataFusion where
  outputOrdering eq := eq.orderings.head?
  newWithOrderings _ orderings := .ofOrderings orderings
  calculateUnion
    | [], _ => .error (.internal "Cannot calculate union of empty inputs")
    | [eq], _ => .ok eq
    | first :: rest, _ => .ok (.ofOrderings (unionOrderings first rest))
  projection exprs input :=
    .ok (properties ⟨exprs.fields input.schema, input.schema.metadata⟩
      (input.eqProperties.orderings.map (LexOrdering.rename exprs.output?)) input.partitionCount)
  hashJoin left right on :=
    if on = [] then
      .error (.plan "On constraints in HashJoinExec should be non-empty")
    else
      .ok (properties ⟨left.schema.fields ++ right.schema.fields,
          Metadata.merge left.schema.metadata right.schema.metadata⟩
        (right.eqProperties.orderings.map <| LexOrdering.rename fun col =>
          (on.find? fun p => p.2.name == col.name).map Prod.fst)
        right.partitionCount)
  sortMergeJoin left right on options :=
    if options.length ≠ on.length then
      .error <| .plan <| s!"Expected number of sort options: {on.length}, "
        ++ s!"actual: {options.length}"
    else
      .ok (properties ⟨left.schema.fields ++ right.schema.fields,
          Metadata.merge left.schema.metadata right.schema.metadata⟩
        left.eqProperties.orderings left.partitionCount)
  union
    | [] => .error (.execution "UnionExec requires at least one input")
    | first :: rest =>
      if rest.all fun p => p.schema.fields.length = first.schema.fields.length then
        .ok (properties ⟨first.schema.mergeFields (rest.map PlanProperties.schema),
            first.schema.metadata⟩
          (unionOrderings first.eqProperties (rest.map PlanProperties.eqProperties))
          ((first :: rest).map PlanProperties.partitionCount).sum)
      else
        .error (.plan "UnionExec requires all inputs to have the same number of fields")
  aggregate groupBy input _ :=
    .ok (properties ⟨groupBy.fields input.schema, input.schema.metadata⟩
      (input.eqProperties.orderings.map (LexOrdering.rename groupBy.output?)) input.partitionCount)
  localLimit input _ := input
  empty schema := properties schema [] 1

section

variable {left right out : PlanProperties} {on : JoinOn} {options : List SortOptions}

theorem reference_hashJoin_eq_ok
    : reference.hashJoin left right on = .ok out
        ↔
      on ≠ [] ∧ properties ⟨left.schema.fields ++ right.schema.fields,
          Metadata.merge left.schema.metadata right.schema.metadata⟩
        (right.eqProperties.orderings.map <| LexOrdering.rename fun col =>
          (on.find? fun p => p.2.name == col.name).map Prod.fst)
        right.partitionCount = out := by
  unfold reference
  by_cases h : on = []
  . simp [h]
  . simp [h]

theorem reference_sortMergeJoin_eq_ok
    : reference.sortMergeJoin left right on options = .ok out
        ↔
      options.length = on.length ∧ properties ⟨left.schema.fields ++ right.schema.fields,
          Metadata.merge left.schema.metadata right.schema.metadata⟩
        left.eqProperties.orderings left.partitionCount = out := by
  unfold reference
  by_cases h : options.length = on.length
  . simp [h]
  . simp [h]

theorem reference_union_eq_ok {first : PlanProperties} {rest : List PlanProperties}
    : reference.union (first :: rest) = .ok out
        ↔
      (∀ p ∈ rest, p.schema.fields.length = first.schema.fields.length) ∧
        properties ⟨first.schema.mergeFields (rest.map PlanProperties.schema), first.schema.metadata⟩
          (unionOrderings first.eqProperties (rest.map PlanProperties.eqProperties))
          ((first :: rest).map PlanProperties.partitionCount).sum = out := by
  have hall : (∀ p ∈ rest, p.schema.fields.length = first.schema.fields.length)
      ↔ rest.all (fun p => p.schema.fields.length = first.schema.fields.length) = true := by simp
  unfold reference
  rw [hall]
  by_cases h : rest.all (fun p => p.schema.fields.length = first.schema.fields.length) = true
  . simp only [h, if_true, Except.ok.injEq, true_and]
  . simp only [h, if_false, reduceCtorEq, false_and]

end

theorem columns_mergeFields (first : Schema) (schemas : List Schema) (metadata : Metadata)
    : Schema.columns ⟨first.mergeFields schemas, metadata⟩ = first.columns := by
  unfold Schema.columns Schema.mergeFields
  rw [List.map_map]
  have hmap : (first.fields.zipIdx.map Prod.fst).map (fun f => (f.name, f.dataType))
      = first.fields.map fun f => (f.name, f.dataType) := by rw [List.zipIdx_map_fst]
  rw [← hmap, List.map_map]
  rfl

theorem mergeFields_same {first : Schema} {schemas : List Schema}
    (h : ∀ schema ∈ schemas, schema = first)
    : first.mergeFields schemas = first.fields := by
  apply List.ext_getElem
  . simp [Schema.mergeFields]
  . intro i hi hi'
    have hany : (first.fields[i].nullable || schemas.any fun schema =>
        ((schema.fields[i]?).map Field.nullable).getD false) = first.fields[i].nullable := by
      cases hnullable : first.fields[i].nullable with
      | true => rfl
      | false =>
        rw [Bool.false_or, List.any_eq_false]
        intro schema hschema
        rw [h schema hschema, List.getElem?_eq_getElem hi']
        simp [hnullable]
    simp only [Schema.mergeFields, List.getElem_map, List.getElem_zipIdx, Nat.zero_add, hany]

theorem reference_schemas : reference.Schemas where
  projection_ok _ _ _ := ⟨_, rfl⟩
  projection_schema _ _ _ h := by
    cases h
    rfl
  hashJoin_ok _ _ _ hvalid := ⟨_, reference_hashJoin_eq_ok.mpr ⟨hvalid.ne_nil, rfl⟩⟩
  hashJoin_nil _ _ := ⟨_, rfl⟩
  hashJoin_schema left right on out h := by
    obtain ⟨-, rfl⟩ := reference_hashJoin_eq_ok.mp h
    rfl
  sortMergeJoin_ok _ _ _ _ _ hlength := ⟨_, reference_sortMergeJoin_eq_ok.mpr ⟨hlength, rfl⟩⟩
  sortMergeJoin_options _ _ _ _ hlength := ⟨_, if_pos hlength⟩
  sortMergeJoin_schema left right on options out h := by
    obtain ⟨-, rfl⟩ := reference_sortMergeJoin_eq_ok.mp h
    rfl
  union_ok first rest h := ⟨_, reference_union_eq_ok.mpr ⟨h, rfl⟩⟩
  union_schema first rest out h := by
    obtain ⟨-, rfl⟩ := reference_union_eq_ok.mp h
    exact columns_mergeFields _ _ _
  union_same first rest out h hsame := by
    obtain ⟨-, rfl⟩ := reference_union_eq_ok.mp h
    have hschemas : ∀ schema ∈ rest.map PlanProperties.schema, schema = first.schema := by
      rw [List.forall_mem_map]
      exact hsame
    simp only [properties, mergeFields_same hschemas]
  calculateUnion_ok _ rest _ := by
    cases rest with
    | nil => exact ⟨_, rfl⟩
    | cons _ _ => exact ⟨_, rfl⟩
  aggregate_ok _ _ _ _ := ⟨_, rfl⟩
  aggregate_schema _ _ _ _ h := by
    cases h
    rfl
  localLimit_schema _ _ := rfl
  empty_schema _ := rfl

theorem reference_joinMetadata : reference.JoinMetadata Metadata.merge where
  hashJoin left right on out h := by
    obtain ⟨-, rfl⟩ := reference_hashJoin_eq_ok.mp h
    rfl
  sortMergeJoin left right on options out h := by
    obtain ⟨-, rfl⟩ := reference_sortMergeJoin_eq_ok.mp h
    rfl
  self := Metadata.merge_self

theorem reference_partitions : reference.Partitions where
  projection _ _ _ h := by
    cases h
    rfl
  hashJoin left right on out h := by
    obtain ⟨-, rfl⟩ := reference_hashJoin_eq_ok.mp h
    rfl
  sortMergeJoin left right on options out h hleft _ := by
    obtain ⟨-, rfl⟩ := reference_sortMergeJoin_eq_ok.mp h
    exact hleft
  union inputs out h := by
    cases inputs with
    | nil => cases h
    | cons first rest =>
      obtain ⟨-, rfl⟩ := reference_union_eq_ok.mp h
      rfl
  aggregate _ _ _ _ h := by
    cases h
    rfl
  localLimit _ _ := rfl
  empty _ := rfl

theorem reference_headers : reference.Headers where
  calculateUnion_single _ _ := rfl
  union first second rest out h := by
    obtain ⟨-, rfl⟩ := reference_union_eq_ok.mp h
    exact ⟨rfl, rfl⟩
  projection_derived exprs input out h := by
    cases h
    rfl
  hashJoin_derived left right on out h := by
    obtain ⟨-, rfl⟩ := reference_hashJoin_eq_ok.mp h
    rfl
  sortMergeJoin_derived left right on options out h := by
    obtain ⟨-, rfl⟩ := reference_sortMergeJoin_eq_ok.mp h
    rfl
  aggregate_derived groupBy input schema out h := by
    cases h
    rfl
  localLimit_derived _ _ h := h
  projection exprs input input' out hinput h := by
    obtain ⟨hschema, heq, -⟩ := PlanProperties.header_eq_iff.mp hinput
    cases h
    refine ⟨_, rfl, ?_⟩
    rw [hschema, heq]
    rfl
  hashJoin left left' right right' on out hleft hright h := by
    obtain ⟨hlschema, -, -⟩ := PlanProperties.header_eq_iff.mp hleft
    obtain ⟨hrschema, hreq, -⟩ := PlanProperties.header_eq_iff.mp hright
    obtain ⟨hon, rfl⟩ := reference_hashJoin_eq_ok.mp h
    refine ⟨_, reference_hashJoin_eq_ok.mpr ⟨hon, rfl⟩, ?_⟩
    rw [hlschema, hrschema, hreq]
    rfl
  sortMergeJoin left left' right right' on options out hleft hright h := by
    obtain ⟨hlschema, hleq, -⟩ := PlanProperties.header_eq_iff.mp hleft
    obtain ⟨hrschema, -, -⟩ := PlanProperties.header_eq_iff.mp hright
    obtain ⟨hlength, rfl⟩ := reference_sortMergeJoin_eq_ok.mp h
    refine ⟨_, reference_sortMergeJoin_eq_ok.mpr ⟨hlength, rfl⟩, ?_⟩
    rw [hlschema, hrschema, hleq]
    rfl
  aggregate groupBy input input' schema out hinput h := by
    obtain ⟨hschema, heq, -⟩ := PlanProperties.header_eq_iff.mp hinput
    cases h
    refine ⟨_, rfl, ?_⟩
    rw [hschema, heq]
    rfl
  localLimit _ _ _ h := h

theorem mem_ofOrderings {orderings : List LexOrdering} {o : LexOrdering}
    : o ∈ (EquivalenceProperties.ofOrderings orderings).orderings ↔ o ∈ orderings ∧ o ≠ [] := by
  simp [EquivalenceProperties.ofOrderings, List.mem_filter]

theorem satisfies_iff {eq : EquivalenceProperties} {o : LexOrdering}
    : eq.satisfies o = true ↔ eq.Satisfies o := by
  simp [EquivalenceProperties.satisfies, EquivalenceProperties.Satisfies]

theorem reference_unionOrderings : reference.UnionOrderings where
  calculateUnion eqps schema out h o hne := by
    match eqps with
    | [] => cases h
    | [first] =>
      cases h
      simp
    | first :: second :: rest =>
      cases h
      constructor
      . intro hsatisfies eq heq
        obtain ⟨o', ho', hstart⟩ := hsatisfies
        obtain ⟨hmem, hne'⟩ := mem_ofOrderings.mp ho'
        obtain ⟨o₁, ho₁, rfl⟩ := List.mem_map.mp hmem
        cases heq with
        | head => exact ⟨o₁, ho₁, hstart.trans (LexOrdering.longest_prefix _ _)⟩
        | tail _ heq =>
          have hall := LexOrdering.longest_satisfies hne'
          rw [List.all_eq_true] at hall
          obtain ⟨o₂, ho₂, hstart₂⟩ := satisfies_iff.mp (hall eq heq)
          exact ⟨o₂, ho₂, hstart.trans hstart₂⟩
      . intro hall
        obtain ⟨o₁, ho₁, hstart⟩ := hall first (by simp)
        have hrest : ((second :: rest).all fun eq => eq.satisfies o) = true := by
          rw [List.all_eq_true]
          intro eq heq
          exact satisfies_iff.mpr (hall eq (List.mem_cons_of_mem _ heq))
        have hlongest := LexOrdering.prefix_longest
          (p := fun o => (second :: rest).all fun eq => eq.satisfies o) hstart hrest
        refine ⟨_, mem_ofOrderings.mpr ⟨List.mem_map_of_mem ho₁, ?_⟩, hlongest⟩
        intro hnil
        rw [hnil, List.prefix_nil] at hlongest
        exact hne hlongest

theorem rename_ordering {f : PhysicalColumn → Option PhysicalColumn} {names : List String}
    {k k' : String → Nat} (h : ∀ name ∈ names, f ⟨name, k name⟩ = some ⟨name, k' name⟩)
    : LexOrdering.rename f (names.map fun name => .asc ⟨name, k name⟩)
        =
      names.map fun name => .asc ⟨name, k' name⟩ := by
  induction names with
  | nil => rfl
  | cons name names ih =>
    rw [List.map_cons, List.map_cons, LexOrdering.rename]
    simp only [PhysicalSortExpr.asc] at ih ⊢
    rw [h name (by simp), ih (fun name' hname' => h name' (by simp [hname']))]

theorem output?_selectExprs {columns : List String} {schema : Schema} {name : String} (i : Nat)
    (h : name ∈ columns)
    : (selectExprs columns schema).output? ⟨name, i⟩ = some ⟨name, columns.idxOf name⟩ := by
  have hnames : ((selectExprs columns schema).map fun e => e.1.name) = columns := by
    simp [selectExprs, Function.comp_def]
  have hlt : columns.idxOf name < columns.length := List.idxOf_lt_length_of_mem h
  unfold NamedExprs.output?
  rw [hnames, if_pos h]
  simp [selectExprs, hlt]

theorem names_selectExprs {columns : List String} {schema : Schema} {metadata : Metadata}
    (h : columns ⊆ schema.names)
    : Schema.names ⟨(selectExprs columns schema).fields schema, metadata⟩ = columns := by
  rw [fields_selectExprs]
  unfold Schema.names
  dsimp only
  induction columns with
  | nil => rfl
  | cons name columns ih =>
    rw [List.cons_subset] at h
    obtain ⟨field, hfield⟩ := Schema.field?_isSome h.1
    rw [List.filterMap_cons_some hfield, List.map_cons, ih h.2, Schema.field?_name hfield]

theorem find?_joinPairs {names : List String} {left right : Schema} {name : String}
    (h : name ∈ names)
    : ((joinPairs names left right).find? fun p => p.2.name == name)
        =
      some (⟨name, left.names.idxOf name⟩, ⟨name, right.names.idxOf name⟩) := by
  unfold joinPairs
  induction names with
  | nil => simp at h
  | cons head names ih =>
    rw [List.map_cons, List.find?_cons]
    by_cases heq : head = name
    . simp [heq]
    . have hbeq : (head == name) = false := by simp [heq]
      have hmem : name ∈ names := by
        cases h with
        | head => exact absurd rfl heq
        | tail _ h => exact h
      rw [hbeq]
      exact ih hmem

theorem keyed_select {names columns : List String} {schema : Schema} {orderings : List LexOrdering}
    {partitionCount : Nat} (k : String → Nat) (hsubset : columns ⊆ schema.names)
    (hnames : names ⊆ columns)
    (h : ∀ o ∈ orderings, o = names.map fun name => .asc ⟨name, k name⟩)
    : (properties ⟨(selectExprs columns schema).fields schema, schema.metadata⟩
        (orderings.map (LexOrdering.rename (selectExprs columns schema).output?))
        partitionCount).Keyed names := by
  have hkeyed : ∀ o ∈ (EquivalenceProperties.ofOrderings
      (orderings.map (LexOrdering.rename (selectExprs columns schema).output?))).orderings,
        o = Schema.ordering ⟨(selectExprs columns schema).fields schema, schema.metadata⟩ names := by
    intro o ho
    obtain ⟨hmem, -⟩ := mem_ofOrderings.mp ho
    obtain ⟨o', ho', rfl⟩ := List.mem_map.mp hmem
    rw [h o' ho', Schema.ordering, names_selectExprs hsubset]
    apply rename_ordering
    intro name hname
    exact output?_selectExprs _ (hnames hname)
  exact ⟨hkeyed, fun o ho => hkeyed o (List.mem_of_mem_head? ho)⟩

theorem reference_keyOrderings : reference.KeyOrderings where
  newWithOrderings _ _ _ ho := mem_ofOrderings.mp ho
  outputOrdering _ _ h o ho := h o (List.mem_of_mem_head? ho)
  calculateUnion ordering eqps schema out h hall o ho := by
    match eqps with
    | [] => cases h
    | [first] =>
      cases h
      exact hall _ (by simp) o ho
    | first :: second :: rest =>
      cases h
      obtain ⟨hmem, hne⟩ := mem_ofOrderings.mp ho
      obtain ⟨o₁, ho₁, rfl⟩ := List.mem_map.mp hmem
      rw [hall first (by simp) o₁ ho₁] at hne ⊢
      have hstart := LexOrdering.longest_satisfies hne
      rw [List.all_eq_true] at hstart
      -- Who satisfies a prefix advertises the ordering itself.
      have hself : ((second :: rest).all fun eq => eq.satisfies ordering) = true := by
        rw [List.all_eq_true]
        intro eq heq
        obtain ⟨o₂, ho₂, -⟩ := List.any_eq_true.mp (hstart eq heq)
        have hordering := hall eq (List.mem_cons_of_mem _ heq) o₂ ho₂
        rw [hordering] at ho₂
        exact List.any_eq_true.mpr ⟨ordering, ho₂, by simp⟩
      exact (LexOrdering.longest_prefix _ _).eq_of_length_le
        (LexOrdering.prefix_longest (List.prefix_refl ordering) hself).length_le
  projection names columns input out h hsubset hnames hinput := by
    cases h
    exact keyed_select _ hsubset hnames hinput.orderings
  joinProjection names left right joined out hjoin h hnames hleft hright := by
    have hsubset : left.schema.names ⊆ joined.schema.names := by
      have hfields : joined.schema.fields = left.schema.fields ++ right.schema.fields := by
        rcases hjoin with hjoin | ⟨options, hjoin⟩
        . exact reference_schemas.hashJoin_schema _ _ _ _ hjoin
        . exact reference_schemas.sortMergeJoin_schema _ _ _ _ _ hjoin
      rw [Schema.names, Schema.names, hfields, List.map_append]
      exact List.subset_append_left _ _
    have hjoined : ∀ o ∈ joined.eqProperties.orderings, o = left.schema.ordering names := by
      intro o ho
      rcases hjoin with hjoin | ⟨options, hjoin⟩
      . obtain ⟨-, rfl⟩ := reference_hashJoin_eq_ok.mp hjoin
        obtain ⟨hmem, -⟩ := mem_ofOrderings.mp ho
        obtain ⟨o', ho', rfl⟩ := List.mem_map.mp hmem
        rw [hright.orderings o' ho']
        apply rename_ordering
        intro name hname
        rw [find?_joinPairs (hnames hname)]
        rfl
      . obtain ⟨-, rfl⟩ := reference_sortMergeJoin_eq_ok.mp hjoin
        exact hleft.orderings o (mem_ofOrderings.mp ho).1
    cases h
    exact keyed_select _ hsubset hnames hjoined
  aggregate names input schema out h hnames hinput := by
    cases h
    exact keyed_select _ (List.Subset.refl _) hnames hinput.orderings
  localLimit _ _ _ h := h

theorem head?_ofOrderings (orderings : List LexOrdering)
    : (EquivalenceProperties.ofOrderings orderings).orderings.head? ≠ some [] := by
  intro h
  exact (mem_ofOrderings.mp (List.mem_of_head? h)).2 rfl

theorem reference_noEmptyOrderings : reference.NoEmptyOrderings where
  empty _ := head?_ofOrderings []
  aggregate _ _ _ _ h := by
    cases h
    exact head?_ofOrderings _
  localLimit _ _ h := h

end DataFusion

def Index.constant {V : Type} (schema : Schema) (isOrdered : Bool) (batches : List (Batch V)) :
    Index V where
  name := "constant"
  indexSchema := schema
  tableName := "t"
  columnName := "c"
  supportsPredicate _ := .ok true
  isOrdered
  scan _ _ := .ok (.complete batches)

def idSchema : Schema := ⟨[⟨"id", .int32, false, []⟩], []⟩

def idIndex (isOrdered : Bool) (batches : List (List Nat)) : Index Nat :=
  .constant idSchema isOrdered (batches.map fun batch => batch.map fun id => [some id])

end IndexProvider
