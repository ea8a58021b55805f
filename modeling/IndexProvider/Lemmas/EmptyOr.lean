import IndexProvider.Lemmas.Acceptance
import IndexProvider.Lemmas.NamedKeys

/-!
This module contains trees with empty `Or` nodes: which of them have a plan, and whether this plan takes
the empty `Or` for the empty set.
-/

namespace IndexProvider

open NamedTuple Enumeration

variable {V : Type}

namespace IndexFilter

/--
The tree is an empty `Or`, below nothing but `And` nodes with a single child.
-/
inductive IsEmptyOr : IndexFilter V → Prop where
  | or : IsEmptyOr (.or [])
  | and {f} : IsEmptyOr f → IsEmptyOr (.and [f])

theorem IsEmptyOr.denote_eq {α : Type} {leaf : Index V → Expr → Set α} {f : IndexFilter V}
    (h : f.IsEmptyOr)
    : f.denote leaf = ∅ := by
  induction h with
  | or => rfl
  | and _ ih => simp [denote, denoteAll, ih]

end IndexFilter

section

variable {df : DataFusion} (hdf : df.Schemas) (hempty : df.NoEmptyOrderings)
  {cols : List (String × DataType)} (hcols : cols ≠ []) (hnodup : (cols.map Prod.fst).Nodup)
  {limit : Option Nat} {plan left right joined projected : ExecutionPlan V}

structure ExecutionPlan.Keyless (plan : ExecutionPlan V) : Prop where
  fields : plan.schema.fields = []
  outputOrdering : plan.outputOrdering ≠ some []

theorem ExecutionPlan.Keyless.names (h : plan.Keyless) : plan.schema.names = [] := by
  rw [Schema.names, h.fields, List.map_nil]

include hdf in
theorem ExecutionPlan.Keyless.not_joined_left (h : left.Keyless)
    : tryCreateIndexLookupJoin df left right ≠ .ok joined := by
  intro hjoin
  rw [tryCreateIndexLookupJoin_eq_ok] at hjoin
  obtain ⟨on, hon, hjoin⟩ := hjoin
  have hnil : on = [] := by
    rw [joinOn_eq_ok_iff (by simp [h.names])] at hon
    rw [hon.2, joinPairs, h.names, List.map_nil]
  subst hnil
  cases hsorted : bothSorted left right with
  | none =>
    rw [hsorted] at hjoin
    obtain ⟨p, hp, -⟩ := hjoin
    obtain ⟨e, he⟩ := hdf.hashJoin_nil left.properties right.properties
    rw [he] at hp
    cases hp
  | some options =>
    rw [hsorted] at hjoin
    obtain ⟨p, hp, -⟩ := hjoin
    obtain ⟨o, ho, -, hoptions⟩ := bothSorted_eq_some.mp hsorted
    have hlength : options.length ≠ ([] : JoinOn).length := by
      intro heq
      rw [List.length_nil, List.length_eq_zero_iff, hoptions, List.map_eq_nil_iff] at heq
      apply h.outputOrdering
      rw [ho, heq]
    obtain ⟨e, he⟩ := hdf.sortMergeJoin_options left.properties right.properties [] options hlength
    rw [he] at hp
    cases hp

include hcols in
theorem ExecutionPlan.Keyless.not_columns (h : plan.Keyless) : ¬ plan.schema.columns.Perm cols :=
  fun hperm => Schema.fields_ne_nil hcols hperm h.fields

include hdf in
theorem RecordFetchExec.withLimit_columns (h : plan.schema.columns.Perm cols) (limit : Option Nat)
    : (withLimit df plan limit).schema.columns.Perm cols := by
  rw [withLimit_schema hdf]
  exact h

include hdf hempty in
theorem ExecutionPlan.Keyless.withLimit (h : plan.Keyless) (limit : Option Nat)
    : (RecordFetchExec.withLimit df plan limit).Keyless := by
  constructor
  . rw [RecordFetchExec.withLimit_schema hdf]
    exact h.fields
  . cases limit with
    | none => exact h.outputOrdering
    | some n => exact hempty.localLimit _ _ h.outputOrdering

include hcols hnodup in
theorem ExecutionPlan.Keyless.not_joined_right (h : right.Keyless)
    (hleft : left.schema.columns.Perm cols)
    : tryCreateIndexLookupJoin df left right ≠ .ok joined := by
  intro hjoin
  rw [tryCreateIndexLookupJoin_eq_ok] at hjoin
  obtain ⟨on, hon, -⟩ := hjoin
  rw [joinOn_eq_ok_iff (Schema.names_nodup hleft hnodup), h.names, List.subset_nil] at hon
  apply Schema.fields_ne_nil hcols hleft
  exact List.map_eq_nil_iff.mp hon.1

include hcols in
theorem ExecutionPlan.Keyless.not_projected {pkSchema : Schema} (h : plan.Keyless)
    (hpk : pkSchema.columns.Perm cols)
    : RecordFetchExec.projectToPkSchema df plan pkSchema ≠ .ok projected := by
  intro hproject
  have hfields := Schema.fields_ne_nil hcols hpk
  rw [RecordFetchExec.projectToPkSchema_eq_ok, h.fields, if_neg (Ne.symm hfields), h.names,
    List.subset_nil] at hproject
  exact hfields (List.map_eq_nil_iff.mp hproject.1)

include hdf hcols hnodup in
theorem joinAll_columns {pkSchema : Schema} {plans : List (ExecutionPlan V)}
    (hleft : left.schema.columns.Perm cols) (hpk : pkSchema.columns = left.schema.columns)
    (hplans : ∀ plan ∈ plans, plan.schema.columns.Perm cols ∨ plan.Keyless)
    (h : RecordFetchExec.joinAll df pkSchema left plans = .ok joined)
    : joined.schema.columns = left.schema.columns ∧
        ∀ plan ∈ plans, plan.schema.columns.Perm cols := by
  induction plans generalizing left with
  | nil =>
    cases h
    simp
  | cons right plans ih =>
    rw [RecordFetchExec.joinAll_cons_eq_ok] at h
    obtain ⟨joinedOnce, hjoin, next, hproject, h⟩ := h
    rw [List.forall_mem_cons] at hplans
    have hright : right.schema.columns.Perm cols := by
      cases hplans.1 with
      | inl hright => exact hright
      | inr hkeyless => exact absurd hjoin (hkeyless.not_joined_right hcols hnodup hleft)
    have hnext : next.schema.columns = left.schema.columns :=
      projectToPkSchema_join_columns hdf (Schema.names_nodup hleft hnodup) hpk hjoin hproject
    have hnextcols : next.schema.columns.Perm cols := by
      rw [hnext]
      exact hleft
    obtain ⟨hjoined, hrest⟩ := ih hnextcols (hpk.trans hnext.symm) hplans.2 h
    exact ⟨hjoined.trans hnext, List.forall_mem_cons.mpr ⟨hright, hrest⟩⟩

/--
The plan of a tree has the key columns where the tree has no empty node, and no columns otherwise.
-/
def Shaped (cols : List (String × DataType)) (f : IndexFilter V) (plan : ExecutionPlan V) : Prop :=
  (f.NoEmptyNode ∧ plan.schema.columns.Perm cols) ∨ (¬ f.NoEmptyNode ∧ plan.Keyless)

theorem Shaped.columns_or {f : IndexFilter V} (h : Shaped cols f plan)
    : plan.schema.columns.Perm cols ∨ plan.Keyless :=
  h.imp And.right And.right

include hcols in
theorem Shaped.noEmptyNode {f : IndexFilter V} (h : Shaped cols f plan)
    (hplan : plan.schema.columns.Perm cols)
    : f.NoEmptyNode := by
  cases h with
  | inl h => exact h.1
  | inr h => exact absurd hplan (h.2.not_columns hcols)

include hdf hcols in
theorem Shaped.keyless_of_withLimit {f : IndexFilter V} (h : Shaped cols f plan)
    (hkeyless : (RecordFetchExec.withLimit df plan limit).Keyless)
    : plan.Keyless := by
  cases h with
  | inl h => exact absurd (RecordFetchExec.withLimit_columns hdf h.2 limit) (hkeyless.not_columns hcols)
  | inr h => exact h.2

include hcols in
theorem shaped_noEmptyNodes {filters : List (IndexFilter V)} {plans : List (ExecutionPlan V)}
    (h : List.Forall₂ (Shaped cols) filters plans)
    (hplans : ∀ plan ∈ plans, plan.schema.columns.Perm cols)
    : IndexFilter.NoEmptyNodes filters := by
  apply IndexFilter.noEmptyNodes_iff.mpr
  intro f hf
  obtain ⟨plan, hplan, hshaped⟩ := Collect.forall₂_of_mem_left h hf
  exact hshaped.noEmptyNode hcols (hplans plan hplan)

include hdf hempty hcols hnodup in
theorem buildAnd_shaped {filters : List (IndexFilter V)} {plans : List (ExecutionPlan V)}
    (hplans : List.Forall₂ (Shaped cols) filters plans)
    (h : RecordFetchExec.buildAnd df limit plans = .ok plan)
    : Shaped cols (.and filters) plan ∧ (plan.Keyless → ∃ f, filters = [f]) := by
  cases hplans with
  | nil => cases h
  | @cons f left filters plans hleft hplans =>
    rw [RecordFetchExec.buildAnd_eq_ok] at h
    obtain ⟨joined, hjoined, rfl⟩ := h
    cases hleft with
    | inl hleft =>
      have hrest : ∀ plan ∈ plans, plan.schema.columns.Perm cols ∨ plan.Keyless := by
        intro plan hplan
        obtain ⟨f, -, hshaped⟩ := Collect.forall₂_of_mem_right hplans hplan
        exact hshaped.columns_or
      obtain ⟨hcolumns, hall⟩ := joinAll_columns hdf hcols hnodup hleft.2 rfl hrest hjoined
      have hjoinedcols : joined.schema.columns.Perm cols := by
        rw [hcolumns]
        exact hleft.2
      have hperm := RecordFetchExec.withLimit_columns hdf hjoinedcols limit
      refine ⟨.inl ⟨⟨List.cons_ne_nil _ _, hleft.1, shaped_noEmptyNodes hcols hplans hall⟩, hperm⟩, ?_⟩
      intro hkeyless
      exact absurd hperm (hkeyless.not_columns hcols)
    | inr hleft =>
      -- A plan without columns cannot be joined, so it is the only one.
      cases hplans with
      | cons _ _ =>
        rw [RecordFetchExec.joinAll_cons_eq_ok] at hjoined
        obtain ⟨_, hjoin, -⟩ := hjoined
        exact absurd hjoin (hleft.2.not_joined_left hdf)
      | nil =>
        cases hjoined
        refine ⟨.inr ⟨?_, hleft.2.withLimit hdf hempty limit⟩, fun _ => ⟨f, rfl⟩⟩
        intro hf
        exact hleft.1 hf.2.1

variable [DecidableEq V]

include hdf hcols hnodup in
theorem buildOr_columns {unionMode : UnionMode} {first : ExecutionPlan V}
    {rest : List (ExecutionPlan V)} (hfirst : first.schema.columns.Perm cols)
    (h : RecordFetchExec.buildOr df unionMode limit (first :: rest) = .ok plan)
    : plan.schema.columns.Perm cols ∧ ∀ child ∈ rest, ¬ child.Keyless := by
  constructor
  . rw [RecordFetchExec.buildOr_columns hdf hnodup hfirst h]
    exact hfirst
  . rw [RecordFetchExec.buildOr_eq_ok] at h
    obtain ⟨normalized, hnormalized, _⟩ := h
    intro child hchild hkeyless
    obtain ⟨_, -, hproject⟩ :=
      Collect.forall₂_of_mem_left hnormalized (List.mem_cons_of_mem first hchild)
    exact absurd hproject (hkeyless.not_projected hcols hfirst)

include hdf hempty hcols hnodup in
theorem buildOr_shaped {unionMode : UnionMode} {filters : List (IndexFilter V)}
    {plans : List (ExecutionPlan V)} (hplans : List.Forall₂ (Shaped cols) filters plans)
    (h : RecordFetchExec.buildOr df unionMode limit plans = .ok plan)
    : Shaped cols (.or filters) plan ∧ (plan.Keyless → filters = [] ∨ ∃ p union,
        plan = RecordFetchExec.withLimit df (.aggregate p [] union) limit) := by
  cases hplans with
  | nil =>
    cases h
    refine ⟨.inr ⟨?_, ?_, hempty.empty _⟩, fun _ => .inl rfl⟩
    . intro hf
      exact hf.1 rfl
    . change (df.empty .empty).schema.fields = []
      rw [hdf.empty_schema]
      rfl
  | @cons f first filters plans hfirst hplans =>
    cases hfirst with
    | inl hfirst =>
      obtain ⟨hperm, hkeyed⟩ := buildOr_columns hdf hcols hnodup hfirst.2 h
      have hrest : ∀ plan ∈ plans, plan.schema.columns.Perm cols := by
        intro plan hplan
        obtain ⟨_, -, hshaped⟩ := Collect.forall₂_of_mem_right hplans hplan
        cases hshaped.columns_or with
        | inl hcolumns => exact hcolumns
        | inr hkeyless => exact absurd hkeyless (hkeyed plan hplan)
      refine ⟨.inl ⟨⟨List.cons_ne_nil _ _, hfirst.1, shaped_noEmptyNodes hcols hplans hrest⟩, hperm⟩, ?_⟩
      intro hkeyless
      exact absurd hperm (hkeyless.not_columns hcols)
    | inr hfirst =>
      rw [RecordFetchExec.buildOr_eq_ok] at h
      obtain ⟨_, -, union, -, p, hp, rfl⟩ := h
      have hgroups : RecordFetchExec.groupExprs first.schema = [] := by
        rw [RecordFetchExec.groupExprs, hfirst.2.fields]
        rfl
      rw [hgroups] at hp ⊢
      refine ⟨.inr ⟨?_, ?_⟩, fun _ => .inr ⟨p, union, rfl⟩⟩
      . intro hf
        exact hfirst.1 hf.2.1
      . apply ExecutionPlan.Keyless.withLimit hdf hempty
        constructor
        . change p.schema.fields = []
          rw [hdf.aggregate_schema _ _ _ _ hp]
          rfl
        . exact hempty.aggregate _ _ _ _ hp

theorem withLimit_fails (hplan : ∀ rows, ¬ plan.Emits rows)
    : ∀ rows, ¬ (RecordFetchExec.withLimit df plan limit).Emits rows := by
  intro rows hrows
  cases limit with
  | none => exact hplan rows hrows
  | some n =>
    obtain ⟨rows, hrows, -⟩ := hrows
    exact hplan rows hrows

include hdf hempty hcols hnodup in
theorem buildScanExec_shaped {unionMode : UnionMode} {f : IndexFilter V} (hcolumns : f.KeyColumns cols)
    (h : RecordFetchExec.buildScanExec df unionMode f limit = .ok plan)
    : Shaped cols f plan ∧ (plan.Keyless → f.IsEmptyOr ∨ ∀ rows, ¬ plan.Emits rows) := by
  induction f generalizing limit plan with
  | single index filter =>
    rw [RecordFetchExec.buildScanExec_single] at h
    cases h
    have hperm := hcolumns (index, filter) (by simp [IndexFilter.leaves])
    refine ⟨.inl ⟨trivial, hperm⟩, ?_⟩
    intro hkeyless
    exact absurd hperm (hkeyless.not_columns hcols)
  | and filters ih =>
    rw [RecordFetchExec.buildScanExec_and_eq_ok] at h
    obtain ⟨plans, hplans, h⟩ := h
    have hshaped : List.Forall₂ (Shaped cols) filters plans := by
      apply Collect.forall₂_imp_of_mem hplans
      intro child hchild plan hplan
      exact (ih child hchild (hcolumns.and hchild) hplan).1
    obtain ⟨hand, hone⟩ := buildAnd_shaped hdf hempty hcols hnodup hshaped h
    refine ⟨hand, ?_⟩
    intro hkeyless
    obtain ⟨f, rfl⟩ := hone hkeyless
    cases hplans with
    | @cons _ child _ _ hchild hnil =>
      cases hnil
      cases h
      have hchildkeyless : child.Keyless := by
        cases hshaped with
        | cons hshaped _ => exact hshaped.keyless_of_withLimit hdf hcols hkeyless
      cases (ih f (by simp) (hcolumns.and (by simp)) hchild).2 hchildkeyless with
      | inl hor => exact .inl (.and hor)
      | inr hfails => exact .inr (withLimit_fails hfails)
  | or filters ih =>
    rw [RecordFetchExec.buildScanExec_or_eq_ok] at h
    obtain ⟨plans, hplans, h⟩ := h
    have hshaped : List.Forall₂ (Shaped cols) filters plans := by
      apply Collect.forall₂_imp_of_mem hplans
      intro child hchild plan hplan
      exact (ih child hchild (hcolumns.or hchild) hplan).1
    obtain ⟨hor, hgroups⟩ := buildOr_shaped hdf hempty hcols hnodup hshaped h
    refine ⟨hor, ?_⟩
    intro hkeyless
    rcases hgroups hkeyless with rfl | ⟨p, union, rfl⟩
    . exact .inl .or
    . refine .inr (withLimit_fails ?_)
      intro rows hrows
      exact hrows.1 rfl

theorem buildScanExec_isEmptyOr {unionMode : UnionMode} {f : IndexFilter V} (h : f.IsEmptyOr)
    (limit : Option Nat)
    : ∃ plan, RecordFetchExec.buildScanExec df unionMode f limit = .ok plan ∧
        ∀ rows, plan.Emits rows ↔ rows = [] := by
  induction h generalizing limit with
  | or => exact ⟨_, rfl, fun rows => by rfl⟩
  | @and f _ ih =>
    obtain ⟨plan, hplan, hemits⟩ := ih none
    refine ⟨RecordFetchExec.withLimit df plan limit, ?_, ?_⟩
    . rw [RecordFetchExec.buildScanExec_and_eq_ok]
      exact ⟨[plan], .cons hplan .nil, rfl⟩
    . intro rows
      cases limit with
      | none => exact hemits rows
      | some n =>
        constructor
        . intro hrows
          obtain ⟨rows, hrows, rfl⟩ := hrows
          rw [(hemits rows).mp hrows, List.take_nil]
        . intro hrows
          exact ⟨[], (hemits []).mpr rfl, by rw [hrows, List.take_nil]⟩

end

/--
The plan produces exactly the keys in `D`, as far as the limit asks for them: whatever it emits has the
key columns.
-/
structure ExecutionPlan.YieldsKeys [DecidableEq V] (cols : List (String × DataType)) (D : Set (Row V))
    (limit : Option Nat) (plan : ExecutionPlan V) : Prop where
  emits : ∃ rows, plan.Emits rows
  columns : ∀ rows, plan.Emits rows → rows ≠ [] → plan.schema.columns.Perm cols
  keys : ∀ rows, plan.Emits rows →
    Enumerates D limit (rows.map (select (cols.map Prod.fst) plan.schema.names))

def IndexFilter.Yields [DecidableEq V] (df : DataFusion) (keys : Index V → Expr → Set (Row V))
    (cols : List (String × DataType)) (unionMode : UnionMode) (limit : Option Nat)
    (f : IndexFilter V) : Prop :=
  ∃ plan, RecordFetchExec.buildScanExec df unionMode f limit = .ok plan ∧
    plan.YieldsKeys cols (f.denote keys) limit

section

variable [DecidableEq V] {df : DataFusion} {merge : Metadata → Metadata → Metadata} {schema : Schema}
  {keys : Index V → Expr → Set (Row V)} {unionMode : UnionMode} {limit : Option Nat}
  {f : IndexFilter V}

theorem IndexFilter.yields_of_isEmptyOr {cols : List (String × DataType)} (h : f.IsEmptyOr)
    : f.Yields df keys cols unionMode limit := by
  have hplanned : ∃ plan, RecordFetchExec.buildScanExec df unionMode f limit = .ok plan ∧
      ∀ rows, plan.Emits rows ↔ rows = [] := buildScanExec_isEmptyOr h limit
  obtain ⟨plan, hplan, hemits⟩ := hplanned
  refine ⟨plan, hplan, ⟨[], (hemits []).mpr rfl⟩, ?_, ?_⟩
  . intro rows hrows hne
    exact absurd ((hemits rows).mp hrows) hne
  . intro rows hrows
    rw [(hemits rows).mp hrows, h.denote_eq]
    apply Enumerates.of_mem_iff List.nodup_nil
    simp

theorem IndexFilter.yields_of_noEmptyNode (hdf : df.Schemas) (hheaders : df.Headers)
    (horderings : df.KeyOrderings) (hmerge : df.JoinMetadata merge) (hfields : schema.fields ≠ [])
    (hnodup : schema.names.Nodup) (hf : f.NoEmptyNode)
    (hschema : ∀ leaf ∈ f.leaves, leaf.1.indexSchema = schema)
    (hscans : ∀ leaf ∈ f.leaves, ∀ limit,
      leaf.1.Scans schema.columns (keys leaf.1 leaf.2) leaf.2 limit)
    : f.Yields df keys schema.columns unionMode limit := by
  obtain ⟨plan, hplan⟩ := accepted_of_leaves hdf hheaders horderings hmerge hfields hnodup hf hschema
    unionMode limit
  have hcols : schema.columns ≠ [] := fun hnil => hfields (List.map_eq_nil_iff.mp hnil)
  rw [Schema.names_eq_columns] at hnodup
  have hproduces := RecordFetchExec.buildScanExec_produces hdf hnodup hcols hf
    (fun leaf hleaf limit' _ => hscans leaf hleaf limit') hplan
  exact ⟨plan, hplan, hproduces.emits, fun _ _ _ => hproduces.columns, hproduces.keys⟩

theorem IndexFilter.of_yields (hdf : df.Schemas) (hempty : df.NoEmptyOrderings)
    (hfields : schema.fields ≠ []) (hnodup : schema.names.Nodup)
    (hschema : ∀ leaf ∈ f.leaves, leaf.1.indexSchema = schema)
    (h : f.Yields df keys schema.columns unionMode limit)
    : f.NoEmptyNode ∨ f.IsEmptyOr := by
  obtain ⟨plan, hplan, hyields⟩ := h
  have hcols : schema.columns ≠ [] := fun hnil => hfields (List.map_eq_nil_iff.mp hnil)
  rw [Schema.names_eq_columns] at hnodup
  have hcolumns : f.KeyColumns schema.columns := by
    intro leaf hleaf
    rw [hschema leaf hleaf]
  obtain ⟨hshaped, hkeyless⟩ := buildScanExec_shaped hdf hempty hcols hnodup hcolumns hplan
  cases hshaped with
  | inl hshaped => exact .inl hshaped.1
  | inr hshaped =>
    cases hkeyless hshaped.2 with
    | inl hor => exact .inr hor
    | inr hfails =>
      obtain ⟨rows, hemits⟩ := hyields.emits
      exact absurd hemits (hfails rows)

/--
A tree is planned and yields the keys it stands for, in both union modes and with any limit, exactly if
it has no empty node or is an empty `Or` itself.
-/
theorem RecordFetchExec.empty_or_planned_iff (hdf : df.Schemas) (hheaders : df.Headers)
    (horderings : df.KeyOrderings) (hmerge : df.JoinMetadata merge) (hempty : df.NoEmptyOrderings)
    (hfields : schema.fields ≠ []) (hnodup : schema.names.Nodup)
    (hschema : ∀ leaf ∈ f.leaves, leaf.1.indexSchema = schema)
    (hscans : ∀ leaf ∈ f.leaves, ∀ limit,
      leaf.1.Scans schema.columns (keys leaf.1 leaf.2) leaf.2 limit)
    : ((∀ unionMode limit, f.Yields df keys schema.columns unionMode limit)
          ↔ f.NoEmptyNode ∨ f.IsEmptyOr) ∧
        ∀ unionMode limit, limit ≠ some 0 →
          (f.Yields df keys schema.columns unionMode limit ↔ f.NoEmptyNode ∨ f.IsEmptyOr) := by
  have hyields : ∀ unionMode limit, f.NoEmptyNode ∨ f.IsEmptyOr →
      f.Yields df keys schema.columns unionMode limit := by
    intro unionMode limit h
    cases h with
    | inl hf =>
      exact IndexFilter.yields_of_noEmptyNode hdf hheaders horderings hmerge hfields hnodup hf hschema
        hscans
    | inr hor => exact IndexFilter.yields_of_isEmptyOr hor
  have hcondition : ∀ unionMode limit, f.Yields df keys schema.columns unionMode limit →
      f.NoEmptyNode ∨ f.IsEmptyOr := by
    intro unionMode limit h
    exact IndexFilter.of_yields hdf hempty hfields hnodup hschema h
  refine ⟨⟨?_, fun h unionMode limit => hyields unionMode limit h⟩, ?_⟩
  . intro h
    exact hcondition .parallel none (h .parallel none)
  . intro unionMode limit _
    exact ⟨hcondition unionMode limit, hyields unionMode limit⟩

end

def idLeaf : IndexFilter Nat := .single (idIndex false [[1]]) (.literal .null)

def idKey : Index Nat → Expr → Set (Row Nat) := fun _ _ => {[some 1]}

theorem idLeaf_scans
    : ∀ leaf ∈ idLeaf.leaves, ∀ limit,
        leaf.1.Scans idSchema.columns (idKey leaf.1 leaf.2) leaf.2 limit := by
  intro leaf hleaf limit
  cases List.mem_singleton.mp hleaf
  refine ⟨.refl _, _, rfl, by decide, ?_⟩
  apply Enumerates.of_mem_iff (List.nodup_singleton _)
  intro key
  exact List.mem_singleton

-- `x AND OR()` stands for no key and has no plan; the plan of `OR() OR x` fails and yields no key of `x`.
theorem emptyOr_not_planned
    : ¬ (IndexFilter.and [idLeaf, .or []]).Yields DataFusion.reference idKey idSchema.columns
          .parallel none ∧
        ¬ (IndexFilter.or [.or [], idLeaf]).Yields DataFusion.reference idKey idSchema.columns
            .parallel none := by
  constructor
  . intro h
    obtain ⟨plan, hplan, -⟩ := h
    cases hplan
  . intro h
    obtain ⟨plan, hplan, hyields⟩ := h
    cases hplan
    obtain ⟨rows, hrows⟩ := hyields.emits
    exact hrows.1 rfl

theorem idOrEmpty_not_always_planned
    : ¬ ∀ unionMode limit, (IndexFilter.or [idLeaf, .or []]).Yields DataFusion.reference idKey
          idSchema.columns unionMode limit := by
  intro h
  have hiff := (RecordFetchExec.empty_or_planned_iff (f := .or [idLeaf, .or []])
    DataFusion.reference_schemas DataFusion.reference_headers DataFusion.reference_keyOrderings
    DataFusion.reference_joinMetadata DataFusion.reference_noEmptyOrderings (by decide) (by decide)
    (fun leaf hleaf => by cases List.mem_singleton.mp hleaf; rfl) idLeaf_scans).1
  rcases hiff.mp h with hf | hor
  . exact hf.2.2.1.1 rfl
  . cases hor

end IndexProvider
