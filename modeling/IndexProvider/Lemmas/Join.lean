import IndexProvider.Lemmas.Acceptance
import IndexProvider.Lemmas.Streaming

/-!
This module contains the choice between the two joins: when the sort-merge join that is chosen for
equally ordered inputs is one of the join key.
-/

namespace IndexProvider

open NamedTuple Sorting

variable {V : Type}

def Schema.keyColumns (schema : Schema) : List PhysicalColumn :=
  schema.fields.zipIdx.map fun (field, i) => ⟨field.name, i⟩

theorem keyColumns_eq {schema : Schema} (hnodup : schema.names.Nodup)
    : schema.keyColumns = schema.names.map fun name => ⟨name, schema.names.idxOf name⟩ :=
  zipIdx_map_idxOf Field.name (fun name i => (⟨name, i⟩ : PhysicalColumn)) hnodup

theorem idxOf_of_refersTo {schema : Schema} (hnodup : schema.names.Nodup) {name : String} {i : Nat}
    (h : PhysicalColumn.RefersTo schema ⟨name, i⟩)
    : schema.names.idxOf name = i := by
  unfold PhysicalColumn.RefersTo at h
  have hname : schema.names[i]? = some name := by
    rw [Schema.names, List.getElem?_map]
    exact h
  obtain ⟨hlt, hget⟩ := List.getElem?_eq_some_iff.mp hname
  rw [← hget]
  exact hnodup.idxOf_getElem i hlt

theorem map_fst_joinPairs {left : Schema} (right : Schema) (hnodup : left.names.Nodup)
    : (joinPairs left.names left right).map Prod.fst = left.keyColumns := by
  rw [keyColumns_eq hnodup]
  simp [joinPairs, Function.comp_def]

theorem map_snd_joinPairs {left right : Schema} {o : LexOrdering} (hleft : left.names.Nodup)
    (hright : right.names.Nodup) (hexprs : o.map PhysicalSortExpr.expr = left.keyColumns)
    (hrefers : ∀ e ∈ o, e.expr.RefersTo right)
    : (joinPairs left.names left right).map Prod.snd = left.keyColumns := by
  rw [keyColumns_eq hleft, joinPairs, List.map_map]
  apply List.map_congr_left
  intro name hname
  -- The ordering names the columns of both sides, so they have one schema order.
  have hmem : (⟨name, left.names.idxOf name⟩ : PhysicalColumn) ∈ o.map PhysicalSortExpr.expr := by
    rw [hexprs, keyColumns_eq hleft]
    exact List.mem_map_of_mem hname
  obtain ⟨e, he, hexpr⟩ := List.mem_map.mp hmem
  have href := hrefers e he
  rw [hexpr] at href
  rw [Function.comp_apply, idxOf_of_refersTo hright href]

theorem zip_options {on : JoinOn} {ordering : LexOrdering}
    (column : PhysicalColumn × PhysicalColumn → PhysicalColumn)
    (h : ordering.map PhysicalSortExpr.expr <+: on.map column)
    : (on.zip (ordering.map PhysicalSortExpr.options)).map (fun p => ⟨column p.1, p.2⟩)
        =
      ordering := by
  induction ordering generalizing on with
  | nil => simp
  | cons e ordering ih =>
    cases on with
    | nil => simp at h
    | cons p on =>
      rw [List.map_cons, List.map_cons, List.cons_prefix_cons] at h
      rw [List.map_cons, List.zip_cons_cons, List.map_cons, ih h.2, ← h.1]

def ExecutionPlan.OrderedByColumns (plan : ExecutionPlan V) : Prop :=
  ∀ o, plan.outputOrdering = some o → ∀ e ∈ o, e.expr.RefersTo plan.schema

section

variable [Ord V]

theorem mergeSorted_of_ordering {o : LexOrdering} {on : JoinOn} {ls rs : List (Row V)}
    (hleft : o.map PhysicalSortExpr.expr <+: on.map Prod.fst)
    (hright : o.map PhysicalSortExpr.expr <+: on.map Prod.snd) (hls : Sorted o.cmp ls)
    (hrs : Sorted o.cmp rs)
    : MergeSorted on (o.map PhysicalSortExpr.options) ls rs := by
  constructor
  . rw [zip_options Prod.fst hleft]
    exact hls
  . rw [zip_options Prod.snd hright]
    exact hrs

variable [DecidableEq V]

/--
A join is built, and if it is a sort-merge join, the ordering that both inputs advertise is one by all
join columns, pair by pair: a merge under its sort options joins on the key.
-/
def JoinsOnOrdering (df : DataFusion) (left right : ExecutionPlan V) : Prop :=
  ∃ plan, tryCreateIndexLookupJoin df left right = .ok plan ∧
    ∀ p l r on options, plan = .sortMergeJoin p l r on options →
      ∃ o, left.outputOrdering = some o ∧ right.outputOrdering = some o ∧
        o.map PhysicalSortExpr.expr = on.map Prod.fst ∧
          options = o.map PhysicalSortExpr.options ∧
            ∀ ls rs out : List (Row V), left.properties.Holds ls → right.properties.Holds rs →
              (MergeSorted on options ls rs → out.Perm (joinRows on ls rs)) →
                out.Perm (joinRows on ls rs)

theorem tryCreateIndexLookupJoin_sound_iff {df : DataFusion} (hdf : df.Schemas)
    {cols : List (String × DataType)} (hcols : cols ≠ []) (hnodup : (cols.map Prod.fst).Nodup)
    {left right : ExecutionPlan V} (hleft : left.schema.columns.Perm cols)
    (hright : right.schema.columns.Perm cols) (hrightordering : right.OrderedByColumns)
    : JoinsOnOrdering df left right
        ↔
      ∀ o, left.outputOrdering = some o → right.outputOrdering = some o →
        o.map PhysicalSortExpr.expr = left.schema.keyColumns := by
  have hleftnodup : left.schema.names.Nodup := Schema.names_nodup hleft hnodup
  have hrightnodup : right.schema.names.Nodup := Schema.names_nodup hright hnodup
  have hsubset : left.schema.names ⊆ right.schema.names :=
    ((Schema.names_perm hleft).trans (Schema.names_perm hright).symm).subset
  have hvalid := joinPairs_valid hcols hnodup hleft hright
  have hon : joinOn left.schema right.schema
      = .ok (joinPairs left.schema.names left.schema right.schema) :=
    (joinOn_eq_ok_iff hleftnodup).mpr ⟨hsubset, rfl⟩
  have hfst := map_fst_joinPairs right.schema hleftnodup
  constructor
  . intro hjoins o hlefto hrighto
    obtain ⟨plan, hplan, hmerge⟩ := hjoins
    obtain ⟨on, hon', hplan⟩ := tryCreateIndexLookupJoin_eq_ok.mp hplan
    rw [hon] at hon'
    cases hon'
    rw [bothSorted_eq_some.mpr ⟨o, hlefto, hrighto, rfl⟩] at hplan
    obtain ⟨p, -, rfl⟩ := hplan
    obtain ⟨o', hlefto', -, hexprs, -⟩ := hmerge _ _ _ _ _ rfl
    rw [hlefto] at hlefto'
    cases hlefto'
    rw [hexprs, hfst]
  . intro hordering
    unfold JoinsOnOrdering
    simp only [tryCreateIndexLookupJoin_eq_ok]
    cases hsorted : bothSorted left right with
    | none =>
      obtain ⟨p, hp⟩ := hdf.hashJoin_ok _ _ _ hvalid
      refine ⟨_, ⟨_, hon, p, hp, rfl⟩, ?_⟩
      intro _ _ _ _ _ heq
      cases heq
    | some options =>
      obtain ⟨o, hlefto, hrighto, rfl⟩ := bothSorted_eq_some.mp hsorted
      have hexprs := hordering o hlefto hrighto
      have hlength : (o.map PhysicalSortExpr.options).length
          = (joinPairs left.schema.names left.schema right.schema).length := by
        have hlengths := congrArg List.length (hexprs.trans hfst.symm)
        simpa using hlengths
      obtain ⟨p, hp⟩ := hdf.sortMergeJoin_ok _ _ _ _ hvalid hlength
      refine ⟨_, ⟨_, hon, p, hp, rfl⟩, ?_⟩
      intro _ _ _ _ _ heq
      cases heq
      refine ⟨o, hlefto, hrighto, hexprs.trans hfst.symm, rfl, ?_⟩
      intro ls rs out hls hrs hcontract
      apply hcontract
      have hsnd := map_snd_joinPairs hleftnodup hrightnodup hexprs (hrightordering o hrighto)
      apply mergeSorted_of_ordering _ _ (hls.outputOrdering o hlefto) (hrs.outputOrdering o hrighto)
      . rw [hexprs, hfst]
      . rw [hexprs, hsnd]

end

def pairSchema : Schema := ⟨[⟨"a", .int32, false, []⟩, ⟨"b", .int32, false, []⟩], []⟩

def pairPlan (ordering : LexOrdering) : ExecutionPlan Nat :=
  .source (DataFusion.properties pairSchema [ordering] 1) []

theorem pairPlan_orderedByColumns {ordering : LexOrdering}
    (h : ∀ e ∈ ordering, e.expr.RefersTo pairSchema)
    : (pairPlan ordering).OrderedByColumns := by
  intro o ho
  have hmem := List.mem_of_mem_head? ho
  obtain ⟨hmem, -⟩ := DataFusion.mem_ofOrderings.mp hmem
  rw [List.mem_singleton.mp hmem]
  exact h

theorem prefix_ordered_inputs_not_joined
    : (pairPlan [.asc ⟨"a", 0⟩]).schema.columns = [("a", .int32), ("b", .int32)] ∧
        (pairPlan [.asc ⟨"a", 0⟩]).OrderedByColumns ∧
          ¬ JoinsOnOrdering DataFusion.reference (pairPlan [.asc ⟨"a", 0⟩])
            (pairPlan [.asc ⟨"a", 0⟩]) := by
  refine ⟨rfl, pairPlan_orderedByColumns (by decide), ?_⟩
  intro h
  obtain ⟨plan, hplan, -⟩ := h
  cases hplan

theorem permuted_ordered_inputs_joined_iff
    : JoinsOnOrdering DataFusion.reference (pairPlan [.asc ⟨"b", 1⟩, .asc ⟨"a", 0⟩])
          (pairPlan [.asc ⟨"b", 1⟩, .asc ⟨"a", 0⟩])
        ↔
      ∀ o, (pairPlan [.asc ⟨"b", 1⟩, .asc ⟨"a", 0⟩]).outputOrdering = some o →
        (pairPlan [.asc ⟨"b", 1⟩, .asc ⟨"a", 0⟩]).outputOrdering = some o →
          o.map PhysicalSortExpr.expr
            = (pairPlan [.asc ⟨"b", 1⟩, .asc ⟨"a", 0⟩]).schema.keyColumns := by
  have hcolumns : (pairPlan [.asc ⟨"b", 1⟩, .asc ⟨"a", 0⟩]).schema.columns.Perm
      [("a", .int32), ("b", .int32)] := .refl _
  exact tryCreateIndexLookupJoin_sound_iff DataFusion.reference_schemas (by simp) (by decide)
    hcolumns hcolumns (pairPlan_orderedByColumns (by decide))

end IndexProvider
