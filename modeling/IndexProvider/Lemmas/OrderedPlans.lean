import IndexProvider.Lemmas.Acceptance
import IndexProvider.Lemmas.Join
import IndexProvider.Lemmas.Orderings
import IndexProvider.Lemmas.SequentialUnion

/-!
This module contains the operators over plans that have the orderings they advertise: which of them a join,
a limit, an aggregation and a union advertise, and when a union has them.
-/

namespace IndexProvider

open Std NamedTuple Sorting StreamingGroups Enumeration

variable {V : Type} [Ord V]

/--
The order of keys over the given columns.
-/
def LexOrdering.ascending (names : List String) : LexOrdering :=
  names.map fun name => .asc ⟨name, names.idxOf name⟩

def Index.Ordered (index : Index V) (filter : Expr) : Prop :=
  index.isOrdered = true → ∀ limit batches, index.scan [filter] limit = .ok (.complete batches) →
    Sorted (index.indexSchema.ordering index.indexSchema.names).cmp batches.flatten

/--
A hash join keeps the order of its right input only.
-/
structure DataFusion.ProbeOrderings (df : DataFusion) : Prop where
  hashJoin : ∀ left right on out, df.hashJoin left right on = .ok out → right.Keyed [] → out.Keyed []

theorem DataFusion.reference_probeOrderings : reference.ProbeOrderings where
  hashJoin left right on out h hright := by
    obtain ⟨-, rfl⟩ := reference_hashJoin_eq_ok.mp h
    have hnone : ∀ o ∈ (EquivalenceProperties.ofOrderings (right.eqProperties.orderings.map <|
        LexOrdering.rename fun col => (on.find? fun p => p.2.name == col.name).map Prod.fst)).orderings,
          o = [] := by
      intro o ho
      obtain ⟨hmem, -⟩ := mem_ofOrderings.mp ho
      obtain ⟨o', ho', rfl⟩ := List.mem_map.mp hmem
      rw [hright.orderings o' ho']
      rfl
    exact ⟨hnone, fun o ho => hnone o (List.mem_of_mem_head? ho)⟩

section

variable [DecidableEq V]

/--
A plan over the key columns that advertises no ordering but by the given ones of them, none at all if it
is not ordered, and that has what it advertises.
-/
structure ExecutionPlan.Sound (cols : List (String × DataType)) (names : List String) (ordered : Bool)
    (plan : ExecutionPlan V) : Prop extends plan.Ready cols names where
  aligned : names ≠ [] → plan.schema.columns = cols
  unordered : ordered = false → plan.properties.Keyed []
  honest : plan.AllHonest

end

section

variable {df : DataFusion} (hdf : df.Schemas) (hheaders : df.Headers) (horderings : df.KeyOrderings)
  (hunion : df.UnionOrderings) (hprobe : df.ProbeOrderings)
  {cols : List (String × DataType)} (hcols : cols ≠ []) (hnodup : (cols.map Prod.fst).Nodup)
  {names : List String} (hnames : names = [] ∨ names = cols.map Prod.fst)
  {limit : Option Nat} {plan left right : ExecutionPlan V} {ordered last : Bool}

omit [Ord V] in
include horderings in
theorem mem_orderings_of_outputOrdering {eq : EquivalenceProperties} {ordering o : LexOrdering}
    (hkeyed : ∀ o ∈ eq.orderings, o = ordering) (h : df.outputOrdering eq = some o)
    : o ∈ eq.orderings := by
  cases horders : eq.orderings with
  | nil =>
    -- Without any ordering the output ordering would have to be all of them.
    have hnone : ∀ ordering, ∀ o ∈ eq.orderings, o = ordering := by simp [horders]
    have hempty := horderings.outputOrdering [] eq (hnone _) o h
    have hone := horderings.outputOrdering [.asc ⟨"", 0⟩] eq (hnone _) o h
    rw [hempty] at hone
    cases hone
  | cons o' os =>
    have ho' : o' ∈ eq.orderings := by simp [horders]
    rw [horderings.outputOrdering ordering eq hkeyed o h, ← hkeyed o' ho']
    exact List.mem_cons_self

include horderings in
theorem holds_of_orderings {p : PlanProperties} {names : List String} {rows : List (Row V)}
    (houtput : p.outputOrdering = df.outputOrdering p.eqProperties) (hkeyed : p.Keyed names)
    (h : ∀ o ∈ p.eqProperties.orderings, Sorted o.cmp rows)
    : p.Holds rows := by
  refine ⟨h, ?_⟩
  intro o ho
  rw [houtput] at ho
  exact h o (mem_orderings_of_outputOrdering horderings hkeyed.orderings ho)

omit [Ord V] in
include hnames in
theorem ordering_eq_ascending {schema : Schema} (haligned : names ≠ [] → schema.columns = cols)
    : schema.ordering names = .ascending names := by
  rcases hnames with rfl | hnames
  . rfl
  . by_cases hne : names = []
    . rw [hne]
      rfl
    . rw [Schema.ordering, Schema.names_eq_columns, haligned hne, ← hnames]
      rfl

omit [Ord V] in
include hnames in
theorem names_subset : names ⊆ cols.map Prod.fst := by
  rcases hnames with rfl | rfl
  . exact List.nil_subset _
  . exact List.Subset.refl _

variable [DecidableEq V]

include hnames in
theorem ExecutionPlan.Sound.names_prefix (h : plan.Sound cols names ordered)
    : names <+: plan.schema.names := by
  rcases hnames with rfl | hnames
  . exact List.nil_prefix
  . by_cases hne : names = []
    . rw [hne]
      exact List.nil_prefix
    . rw [Schema.names_eq_columns, h.aligned hne, hnames]

include horderings hnodup in
theorem IndexScanExec.tryNew_sound {index : Index V} {filter : Expr}
    (hindex : index.indexSchema.columns.Perm cols)
    (haligned : names ≠ [] → index.indexSchema.columns = cols)
    (hnames : index.isOrdered = true → index.indexSchema.names = names)
    (hordered : index.Ordered filter)
    (h : IndexScanExec.tryNew df index [filter] limit index.indexSchema = .ok plan)
    : plan.Sound cols names index.isOrdered := by
  have hready := tryNew_ready horderings hnodup hindex hnames h
  refine ⟨hready, ?_, ?_, ?_⟩
  . cases h
    exact haligned
  . intro hunordered
    have hnone : index.isOrdered = true → index.indexSchema.names = [] := by simp [hunordered]
    exact (tryNew_ready horderings hnodup hindex hnone h).keyed
  . cases h
    refine ExecutionPlan.forall_nodes rfl ?_ (by simp)
    intro batches hbatches
    apply holds_of_orderings horderings rfl hready.keyed
    intro o ho
    obtain ⟨hmem, hne⟩ := horderings.newWithOrderings _ _ o ho
    rw [List.mem_singleton] at hmem
    cases hisOrdered : index.isOrdered with
    | false =>
      simp only [hisOrdered, Bool.false_eq_true, if_false] at hmem
      exact absurd hmem hne
    | true =>
      rw [hready.keyed.orderings o ho, ← hnames hisOrdered]
      exact hordered hisOrdered limit batches hbatches

namespace RecordFetchExec

include hdf horderings hnodup hnames in
theorem projectToPkSchema_sound {pkSchema : Schema} {projected : ExecutionPlan V}
    (hplan : plan.Sound cols names ordered) (hpk : pkSchema.columns.Perm cols)
    (haligned : names ≠ [] → pkSchema.columns = cols)
    (h : projectToPkSchema df plan pkSchema = .ok projected)
    : projected.Sound cols names ordered := by
  obtain ⟨projected', h', hready, hcolumns⟩ := projectToPkSchema_ready hdf horderings hnodup
    (names_subset hnames) hplan.toReady hpk
  rw [h] at h'
  cases h'
  refine ⟨hready, ?_, ?_, ?_⟩
  . intro hne
    exact hcolumns.trans (haligned hne)
  . intro hunordered
    obtain ⟨projected', h', hready, -⟩ := projectToPkSchema_ready hdf horderings hnodup
      (List.nil_subset _) ⟨hplan.columns, hplan.unordered hunordered⟩ hpk
    rw [h] at h'
    cases h'
    exact hready.keyed
  . rw [projectToPkSchema_eq_ok] at h
    split at h
    . rw [← h]
      exact hplan.honest
    . obtain ⟨-, p, -, rfl⟩ := h
      exact ExecutionPlan.forall_nodes rfl trivial hplan.honest

theorem ordering_prefix_joinPairs {left : Schema} (right : Schema) (hnames : names <+: left.names)
    : (left.ordering names).map PhysicalSortExpr.expr
          <+: (joinPairs left.names left right).map Prod.fst ∧
        (right.ordering names).map PhysicalSortExpr.expr
          <+: (joinPairs left.names left right).map Prod.snd := by
  simp only [Schema.ordering, joinPairs, List.map_map, Function.comp_def, PhysicalSortExpr.asc]
  exact ⟨hnames.map _, hnames.map _⟩

include hdf horderings hprobe hcols hnodup hnames in
theorem join_sound {pkSchema : Schema} {joined next : ExecutionPlan V}
    (hleft : left.Sound cols names last) (hright : right.Sound cols names ordered)
    (hpk : pkSchema.columns = left.schema.columns)
    (hjoin : tryCreateIndexLookupJoin df left right = .ok joined)
    (h : projectToPkSchema df joined pkSchema = .ok next)
    : next.Sound cols names ordered ∧ next.schema.columns = left.schema.columns := by
  have hpknames : pkSchema.names = left.schema.names := Schema.names_of_columns hpk
  have hleftnodup : left.schema.names.Nodup := Schema.names_nodup hleft.columns hnodup
  have hsubset : names ⊆ left.schema.names := (hleft.names_prefix hnames).subset
  have hcolumns := projectToPkSchema_join_columns hdf hleftnodup hpk hjoin h
  have hne := tryCreateIndexLookupJoin_projects hdf hcols hright.columns hpk hjoin
  rw [projectToPkSchema_eq_ok, if_neg hne, hpknames] at h
  obtain ⟨hjoinednames, p, hp, rfl⟩ := h
  have hinputs : ∀ node ∈ left.nodes ++ right.nodes, node.Honest :=
    List.forall_mem_append.mpr ⟨hleft.honest, hright.honest⟩
  have haligned : names ≠ [] → p.schema.columns = cols := fun hne =>
    hcolumns.trans (hleft.aligned hne)
  have hperm : p.schema.columns.Perm cols := by
    rw [show p.schema.columns = left.schema.columns from hcolumns]
    exact hleft.columns
  rw [tryCreateIndexLookupJoin_eq_ok] at hjoin
  obtain ⟨on, hon, hjoin⟩ := hjoin
  rw [joinOn_eq_ok_iff hleftnodup] at hon
  obtain ⟨-, rfl⟩ := hon
  refine ⟨?_, hcolumns⟩
  split at hjoin
  . next options hsorted =>
    obtain ⟨q, hq, rfl⟩ := hjoin
    obtain ⟨o, hlefto, hrighto, rfl⟩ := bothSorted_eq_some.mp hsorted
    refine ⟨⟨hperm, ?_⟩, haligned, ?_, ExecutionPlan.forall_nodes rfl trivial
      (ExecutionPlan.forall_nodes rfl ?_ hinputs)⟩
    . exact horderings.joinProjection names _ _ _ _ (.inr ⟨_, hq⟩) hp hsubset hleft.keyed
        hright.keyed
    . intro hunordered
      -- An unordered right input advertises at most the empty ordering, and so does the left one.
      have ho : o = [] := (hright.unordered hunordered).outputOrdering o hrighto
      have hnil : names = [] := by
        have hordering := hleft.keyed.outputOrdering o hlefto
        rw [ho] at hordering
        exact List.map_eq_nil_iff.mp hordering.symm
      have hleftkeyed := hleft.keyed
      rw [hnil] at hleftkeyed
      exact horderings.joinProjection [] _ _ _ _ (.inr ⟨_, hq⟩) hp (List.nil_subset _) hleftkeyed
        (hright.unordered hunordered)
    . intro ls rs hls hrs
      obtain ⟨hfst, hsnd⟩ := ordering_prefix_joinPairs right.schema (hleft.names_prefix hnames)
      apply mergeSorted_of_ordering _ _ (hls.outputOrdering o hlefto) (hrs.outputOrdering o hrighto)
      . rw [hleft.keyed.outputOrdering o hlefto]
        exact hfst
      . rw [hright.keyed.outputOrdering o hrighto]
        exact hsnd
  . obtain ⟨q, hq, rfl⟩ := hjoin
    refine ⟨⟨hperm, ?_⟩, haligned, ?_, ExecutionPlan.forall_nodes rfl trivial
      (ExecutionPlan.forall_nodes rfl trivial hinputs)⟩
    . exact horderings.joinProjection names _ _ _ _ (.inl hq) hp hsubset hleft.keyed hright.keyed
    . intro hunordered
      exact horderings.projection [] _ _ _ hp hjoinednames (List.nil_subset _)
        (hprobe.hashJoin _ _ _ _ hq (hright.unordered hunordered))

include hdf horderings in
theorem withLimit_sound (hplan : plan.Sound cols names ordered)
    : (withLimit df plan limit).Sound cols names ordered := by
  cases limit with
  | none => exact hplan
  | some n =>
    have hcolumns : (withLimit df plan (some n)).schema.columns = plan.schema.columns :=
      congrArg Schema.columns (withLimit_schema hdf plan (some n))
    refine ⟨⟨?_, ?_⟩, ?_, ?_, ?_⟩
    . rw [hcolumns]
      exact hplan.columns
    . exact horderings.localLimit _ _ _ hplan.keyed
    . intro hne
      exact hcolumns.trans (hplan.aligned hne)
    . intro hunordered
      exact horderings.localLimit _ _ _ (hplan.unordered hunordered)
    . exact ExecutionPlan.forall_nodes rfl trivial hplan.honest

include hdf horderings hnodup hnames in
theorem aggregate_sound {first union : ExecutionPlan V} {p : PlanProperties}
    (hfirst : first.Sound cols names last) (hcolumns : union.schema.columns = first.schema.columns)
    (hkeyed : union.properties.Keyed names) (hnone : ordered = false → union.properties.Keyed [])
    (hhonest : union.AllHonest)
    (hp : df.aggregate (groupExprs first.schema) union.properties first.schema = .ok p)
    : ExecutionPlan.Sound cols names ordered (.aggregate p (groupExprs first.schema) union) := by
  obtain ⟨hpcolumns, hpkeyed⟩ := aggregate_keyed hdf horderings hnodup (names_subset hnames)
    hfirst.columns hcolumns hkeyed hp
  refine ⟨⟨?_, hpkeyed⟩, ?_, ?_, ExecutionPlan.forall_nodes rfl trivial hhonest⟩
  . change p.schema.columns.Perm cols
    rw [hpcolumns]
    exact hfirst.columns
  . intro hne
    exact hpcolumns.trans (hfirst.aligned hne)
  . intro hunordered
    exact (aggregate_keyed hdf horderings hnodup (List.nil_subset _) hfirst.columns hcolumns
      (hnone hunordered) hp).2

include hunion in
theorem calculateUnion_none {eqps : List EquivalenceProperties} {eq out : EquivalenceProperties}
    {schema : Schema} (heq : eq ∈ eqps) (hnone : ∀ o ∈ eq.orderings, o = [])
    (h : df.calculateUnion eqps schema = .ok out)
    : ∀ o ∈ out.orderings, o = [] := by
  intro o ho
  by_contra hne
  obtain ⟨o', ho', hstart⟩ := (hunion.calculateUnion _ _ _ h o hne).mp ⟨o, ho, List.prefix_refl o⟩ eq heq
  rw [hnone o' ho', List.prefix_nil] at hstart
  exact hne hstart

omit [DecidableEq V] in
include hunion in
theorem sorted_of_calculateUnion {inputs : List (ExecutionPlan V)} {input : ExecutionPlan V}
    {schema : Schema} {out : EquivalenceProperties} {o : LexOrdering} {rows : List (Row V)}
    (h : df.calculateUnion (inputs.map fun input => input.properties.eqProperties) schema = .ok out)
    (ho : o ∈ out.orderings) (hinput : input ∈ inputs) (hholds : input.properties.Holds rows)
    : Sorted o.cmp rows := by
  by_cases hne : o = []
  . rw [hne]
    exact LexOrdering.sorted_nil _
  . obtain ⟨o', ho', hstart⟩ := (hunion.calculateUnion _ _ _ h o hne).mp ⟨o, ho, List.prefix_refl o⟩
      input.properties.eqProperties (List.mem_map_of_mem hinput)
    exact LexOrdering.sorted_of_prefix hstart (hholds.orderings o' ho')

/--
The rows of the inputs come in order, whatever their clean executions are.
-/
def InOrder (names : List String) (inputs : List (ExecutionPlan V)) : Prop :=
  ∀ streams, List.Forall₂ (ExecutionPlan.RunsSingle Step.Clean) inputs streams →
    streams.Pairwise fun s t => ∀ x ∈ s.flatten, ∀ y ∈ t.flatten,
      ((LexOrdering.ascending names).cmp x y).isLE

section

variable {first union : ExecutionPlan V} {rest : List (ExecutionPlan V)} {p : PlanProperties}
  (hinputs : ∀ input ∈ first :: rest, ∃ ordered, input.Sound cols names ordered)

include hnames hinputs horderings hunion in
theorem calculateUnion_keyed (hcolumns : p.schema.columns = first.schema.columns)
    (hderived : p.Derived df)
    (h : df.calculateUnion ((first :: rest).map fun input => input.properties.eqProperties) p.schema
      = .ok p.eqProperties)
    : p.Keyed names ∧
        ((∃ input ∈ first :: rest, input.properties.Keyed []) → p.Keyed []) := by
  have hkeyed : ∀ names, (∀ o ∈ p.eqProperties.orderings, o = p.schema.ordering names) →
      p.Keyed names := by
    intro names horders
    refine ⟨horders, ?_⟩
    rw [hderived]
    exact horderings.outputOrdering _ _ horders
  constructor
  . apply hkeyed
    apply horderings.calculateUnion _ _ _ _ h
    intro eq heq o ho
    obtain ⟨input, hinput, rfl⟩ := List.mem_map.mp heq
    obtain ⟨_, hfirst⟩ := hinputs first (by simp)
    obtain ⟨_, hsound⟩ := hinputs input hinput
    have haligned : names ≠ [] → p.schema.columns = cols := fun hne =>
      hcolumns.trans (hfirst.aligned hne)
    rw [hsound.keyed.orderings o ho, ordering_eq_ascending hnames haligned]
    exact ordering_eq_ascending hnames hsound.aligned
  . intro hnone
    obtain ⟨input, hinput, hnone⟩ := hnone
    apply hkeyed
    exact calculateUnion_none hunion (List.mem_map_of_mem hinput) hnone.orderings h

include hnames hinputs horderings hunion in
theorem calculateUnion_sequential_honest
    (h : df.calculateUnion ((first :: rest).map fun input => input.properties.eqProperties)
      first.schema = .ok p.eqProperties)
    (hp : p = .new df first.schema p.eqProperties 1)
    (horder : (∃ input ∈ first :: rest, input.properties.Keyed []) ∨ InOrder names (first :: rest))
    : (ExecutionPlan.sequentialUnion p (first :: rest)).Honest := by
  have hschema : p.schema = first.schema := by rw [hp]; rfl
  have hderived : p.Derived df := by rw [hp]; rfl
  have hkeyed := calculateUnion_keyed horderings hunion hnames hinputs
    (congrArg Schema.columns hschema) hderived (by rw [hschema]; exact h)
  intro streams hstreams
  apply holds_of_orderings horderings hderived hkeyed.1
  intro o ho
  rcases horder with hnone | horder
  . rw [(hkeyed.2 hnone).orderings o ho]
    exact LexOrdering.sorted_nil _
  . -- Every input has the ordering, and their streams come in this order.
    have hascending : o = .ascending names := by
      obtain ⟨_, hfirst⟩ := hinputs first (by simp)
      rw [hkeyed.1.orderings o ho, hschema]
      exact ordering_eq_ascending hnames hfirst.aligned
    rw [List.flatten_flatten]
    refine List.pairwise_flatten.mpr ⟨?_, ?_⟩
    . intro rows hrows
      obtain ⟨stream, hstream, rfl⟩ := List.mem_map.mp hrows
      obtain ⟨input, hinput, -, hholds⟩ := Collect.forall₂_of_mem_right hstreams hstream
      exact sorted_of_calculateUnion hunion h ho hinput hholds
    . rw [List.pairwise_map, hascending]
      exact horder streams (hstreams.imp fun _ _ h => h.1)

include hnames hinputs hdf hheaders horderings hunion in
theorem unionExec_sound {unionMode : UnionMode}
    (hsame : ∀ input ∈ rest, input.schema.columns = first.schema.columns)
    (horder : unionMode = .sequential →
      (∃ input ∈ first :: rest, input.properties.Keyed []) ∨ InOrder names (first :: rest))
    (h : unionExec df unionMode (first :: rest) = .ok union)
    : (union.properties.Keyed names ∧
          ((∃ input ∈ first :: rest, input.properties.Keyed []) → union.properties.Keyed [])) ∧
        union.AllHonest := by
  have hhonest : ∀ node ∈ ExecutionPlan.allNodes (first :: rest), node.Honest := by
    intro node hnode
    obtain ⟨input, hinput, hnode⟩ := ExecutionPlan.mem_allNodes.mp hnode
    obtain ⟨_, hsound⟩ := hinputs input hinput
    exact hsound.honest node hnode
  cases unionMode with
  | sequential =>
    obtain ⟨-, eq, heq, rfl⟩ := SequentialUnionExec.tryNew_eq_ok.mp h
    exact ⟨calculateUnion_keyed horderings hunion hnames hinputs rfl rfl heq,
      ExecutionPlan.forall_nodes rfl
        (calculateUnion_sequential_honest horderings hunion hnames hinputs heq rfl (horder rfl)) hhonest⟩
  | parallel =>
    rw [unionExec, UnionExec.tryNew_eq_ok] at h
    cases rest with
    | nil =>
      cases h
      obtain ⟨_, hfirst⟩ := hinputs first (by simp)
      refine ⟨⟨hfirst.keyed, ?_⟩, hfirst.honest⟩
      simp
    | cons second rest =>
      obtain ⟨p, hp, rfl⟩ := h
      obtain ⟨heq, hderived⟩ := hheaders.union _ _ _ _ hp
      have hcolumns : p.schema.columns = first.schema.columns := hdf.union_schema _ _ _ hp
      rw [← List.map_cons, ← List.map_cons, List.map_map] at heq
      have hkeyed := calculateUnion_keyed horderings hunion hnames hinputs hcolumns hderived heq
      refine ⟨hkeyed, ExecutionPlan.forall_nodes rfl ?_ hhonest⟩
      intro streams hstreams partition hpartition
      apply holds_of_orderings horderings hderived hkeyed.1
      intro o ho
      obtain ⟨partitions, hpartitions, hpartition⟩ := List.mem_flatten.mp hpartition
      obtain ⟨input, hinput, hholds⟩ := Collect.forall₂_of_mem_right hstreams hpartitions
      exact sorted_of_calculateUnion hunion heq ho hinput (hholds partition hpartition)

end

end RecordFetchExec

end

end IndexProvider
