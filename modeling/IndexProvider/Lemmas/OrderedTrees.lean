import IndexProvider.Lemmas.OrderedPlans

/-!
This module contains the trees whose plans have the orderings they advertise: in Parallel mode all of them,
and in Sequential mode those whose unions are in sequence, as far as they advertise an order.
-/

namespace IndexProvider

open Std NamedTuple Sorting StreamingGroups Enumeration

variable {V : Type} [Ord V] [DecidableEq V]

section

variable {df : DataFusion} (hdf : df.Schemas) (hheaders : df.Headers) (horderings : df.KeyOrderings)
  (hunion : df.UnionOrderings) (hprobe : df.ProbeOrderings)
  {cols : List (String × DataType)} (hcols : cols ≠ []) (hnodup : (cols.map Prod.fst).Nodup)
  {names : List String} (hnames : names = [] ∨ names = cols.map Prod.fst)
  {limit : Option Nat} {plan left right : ExecutionPlan V} {ordered last : Bool}

namespace RecordFetchExec

include hdf horderings hprobe hcols hnodup hnames in
theorem joinAll_sound {pkSchema : Schema} {filters : List (IndexFilter V)}
    {plans : List (ExecutionPlan V)} {joined : ExecutionPlan V} (hleft : left.Sound cols names last)
    (hplans : List.Forall₂ (fun f plan => ExecutionPlan.Sound cols names f.isOrdered plan) filters plans)
    (hpk : pkSchema.columns = left.schema.columns) (h : joinAll df pkSchema left plans = .ok joined)
    : joined.Sound cols names (IndexFilter.lastOrdered last filters) := by
  induction hplans generalizing left last with
  | nil =>
    cases h
    exact hleft
  | cons hright _ ih =>
    rw [joinAll_cons_eq_ok] at h
    obtain ⟨joinedOnce, hjoin, next, hproject, h⟩ := h
    obtain ⟨hnext, hcolumns⟩ := join_sound hdf horderings hprobe hcols hnodup hnames hleft hright hpk
      hjoin hproject
    exact ih hnext (hpk.trans hcolumns.symm) h

include hdf horderings hprobe hcols hnodup hnames in
theorem buildAnd_sound {filters : List (IndexFilter V)} {plans : List (ExecutionPlan V)}
    (hplans : List.Forall₂ (fun f plan => ExecutionPlan.Sound cols names f.isOrdered plan) filters plans)
    (h : buildAnd df limit plans = .ok plan)
    : plan.Sound cols names (IndexFilter.lastOrdered false filters) := by
  cases hplans with
  | nil => cases h
  | cons hleft hplans =>
    rw [buildAnd_eq_ok] at h
    obtain ⟨joined, hjoined, rfl⟩ := h
    have hsound := joinAll_sound hdf horderings hprobe hcols hnodup hnames hleft hplans rfl hjoined
    exact withLimit_sound hdf horderings hsound

include hnodup in
theorem mem_of_runs {D : Set (Row V)} (hplan : plan.Produces cols D limit)
    (hcolumns : plan.schema.columns = cols) {stream : RecordStream V}
    (hruns : plan.RunsSingle Step.Clean stream)
    : ∀ row ∈ stream.flatten, row ∈ D := by
  intro row hrow
  obtain ⟨partitions, hruns, hmerges⟩ := hruns
  have hemits := hruns.emits fun _ h => h
  have hmem : row ∈ allRows partitions := hmerges.perm.subset hrow
  have hplannames : plan.schema.names = cols.map Prod.fst := by rw [Schema.names_eq_columns, hcolumns]
  have hkey := (hplan.keys _ hemits).sound _ (List.mem_map_of_mem hmem)
  have hwidth := hplan.width _ hemits row hmem
  rw [hplannames] at hkey hwidth
  rwa [select_self hnodup hwidth] at hkey

include hnodup in
theorem inOrder_of_pairwise {Ds : List (Set (Row V))} {inputs : List (ExecutionPlan V)}
    (hinputs : List.Forall₂ (fun D input =>
      ExecutionPlan.Produces cols D limit input ∧ input.schema.columns = cols) Ds inputs)
    (hDs : Ds.Pairwise fun D E => ∀ x ∈ D, ∀ y ∈ E, ((LexOrdering.ascending names).cmp x y).isLE)
    : InOrder names inputs := by
  intro streams hstreams
  have hmem : List.Forall₂ (fun (D : Set (Row V)) (stream : RecordStream V) =>
      ∀ row ∈ stream.flatten, row ∈ D) Ds streams := by
    apply Collect.forall₂_trans _ hinputs hstreams
    intro D input stream hinput hruns
    exact mem_of_runs hnodup hinput.1 hinput.2 hruns
  induction hmem generalizing inputs with
  | nil => exact .nil
  | cons hhead htail ih =>
    cases hinputs with
    | cons _ hinputs =>
      cases hstreams with
      | cons _ hstreams =>
        rw [List.pairwise_cons] at hDs ⊢
        refine ⟨?_, ih hinputs hDs.2 hstreams⟩
        intro stream hstream x hx y hy
        obtain ⟨E, hE, hstream⟩ := Collect.forall₂_of_mem_right htail hstream
        exact hDs.1 E hE x (hhead x hx) y (hstream y hy)

theorem unordered_input {filters : List (IndexFilter V)} {inputs : List (ExecutionPlan V)}
    (hinputs : List.Forall₂ (fun f input => ExecutionPlan.Sound cols names f.isOrdered input)
      filters inputs)
    (h : IndexFilter.allOrdered filters = false)
    : ∃ input ∈ inputs, input.properties.Keyed [] := by
  rw [← Bool.not_eq_true, IndexFilter.allOrdered_iff] at h
  push Not at h
  obtain ⟨f, hf, hunordered⟩ := h
  obtain ⟨input, hinput, hsound⟩ := Collect.forall₂_of_mem_left hinputs hf
  exact ⟨input, hinput, hsound.unordered (Bool.eq_false_iff.mpr hunordered)⟩

include hnodup in
theorem unordered_or_inOrder {filters : List (IndexFilter V)} {inputs : List (ExecutionPlan V)}
    (hne : inputs ≠ [])
    (hinputs : List.Forall₂ (fun f input => ExecutionPlan.Sound cols names f.isOrdered input)
      filters inputs)
    (horder : names ≠ [] → IndexFilter.allOrdered filters = true →
      ∃ Ds, List.Forall₂ (fun D input =>
          ExecutionPlan.Produces cols D limit input ∧ input.schema.columns = cols) Ds inputs ∧
        Ds.Pairwise fun D E => ∀ x ∈ D, ∀ y ∈ E, ((LexOrdering.ascending names).cmp x y).isLE)
    : (∃ input ∈ inputs, input.properties.Keyed []) ∨ InOrder names inputs := by
  by_cases hall : IndexFilter.allOrdered filters = true
  . by_cases hnil : names = []
    . obtain ⟨input, hinput⟩ := List.exists_mem_of_ne_nil inputs hne
      obtain ⟨f, -, hsound⟩ := Collect.forall₂_of_mem_right hinputs hinput
      have hkeyed := hsound.keyed
      rw [hnil] at hkeyed
      exact .inl ⟨input, hinput, hkeyed⟩
    . obtain ⟨Ds, hproduces, hDs⟩ := horder hnil hall
      exact .inr (inOrder_of_pairwise hnodup hproduces hDs)
  . exact .inl (unordered_input hinputs (Bool.eq_false_iff.mpr hall))

include hdf hheaders horderings hunion hnodup hnames in
theorem buildOr_sound {unionMode : UnionMode} {filters : List (IndexFilter V)}
    {plans : List (ExecutionPlan V)} (hne : plans ≠ [])
    (hplans : List.Forall₂ (fun f plan => ExecutionPlan.Sound cols names f.isOrdered plan) filters plans)
    (horder : unionMode = .sequential → names ≠ [] → IndexFilter.allOrdered filters = true →
      ∃ Ds, List.Forall₂ (fun D plan => ExecutionPlan.Produces cols D limit plan) Ds plans ∧
        Ds.Pairwise fun D E => ∀ x ∈ D, ∀ y ∈ E, ((LexOrdering.ascending names).cmp x y).isLE)
    (h : buildOr df unionMode limit plans = .ok plan)
    : plan.Sound cols names (IndexFilter.allOrdered filters) := by
  match plans, hne with
  | first :: rest, _ =>
    rw [buildOr_eq_ok] at h
    obtain ⟨normalized, hnormalized, union, hunionExec, p, hp, rfl⟩ := h
    obtain ⟨_, -, hfirst⟩ := Collect.forall₂_of_mem_right hplans (List.mem_cons_self)
    have hinputs : List.Forall₂ (fun f input => ExecutionPlan.Sound cols names f.isOrdered input)
        filters normalized := by
      apply Collect.forall₂_trans _ hplans hnormalized
      intro f plan projected hplan hproject
      exact projectToPkSchema_sound hdf horderings hnodup hnames hplan hfirst.columns hfirst.aligned
        hproject
    have hcolumns : ∀ input ∈ normalized, input.schema.columns = first.schema.columns := by
      intro input hinput
      obtain ⟨plan, hplan, hproject⟩ := Collect.forall₂_of_mem_right hnormalized hinput
      obtain ⟨_, -, hsound⟩ := Collect.forall₂_of_mem_right hplans hplan
      exact projectToPkSchema_columns hdf hnodup hsound.columns hfirst.columns hproject
    have hnormalizedne := Collect.forall₂_ne_nil hnormalized (List.cons_ne_nil first rest)
    have hordered : unionMode = .sequential →
        (∃ input ∈ normalized, input.properties.Keyed []) ∨ InOrder names normalized := by
      intro hmode
      have hproduced : names ≠ [] → IndexFilter.allOrdered filters = true →
          ∃ Ds, List.Forall₂ (fun D input =>
              ExecutionPlan.Produces cols D limit input ∧ input.schema.columns = cols) Ds normalized ∧
            Ds.Pairwise fun D E =>
              ∀ x ∈ D, ∀ y ∈ E, ((LexOrdering.ascending names).cmp x y).isLE := by
        intro hnil hall
        obtain ⟨Ds, hproduces, hDs⟩ := horder hmode hnil hall
        refine ⟨Ds, ?_, hDs⟩
        apply Collect.forall₂_trans _ hproduces hnormalized
        intro D plan projected hplan hproject
        obtain ⟨hprojected, hcolumns⟩ := hplan.projectToPkSchema hdf hnodup hfirst.columns hproject
        exact ⟨hprojected, hcolumns.trans (hfirst.aligned hnil)⟩
      exact unordered_or_inOrder hnodup hnormalizedne hinputs hproduced
    have hsound : ∀ input ∈ normalized, ∃ ordered, input.Sound cols names ordered := by
      intro input hinput
      obtain ⟨f, -, hsound⟩ := Collect.forall₂_of_mem_right hinputs hinput
      exact ⟨_, hsound⟩
    obtain ⟨first', rest', rfl⟩ := List.exists_cons_of_ne_nil hnormalizedne
    have hhead := hcolumns first' List.mem_cons_self
    have hsame : ∀ input ∈ rest', input.schema.columns = first'.schema.columns := by
      intro input hinput
      rw [hcolumns input (List.mem_cons_of_mem _ hinput), hhead]
    obtain ⟨⟨hkeyed, hnone⟩, hhonest⟩ := unionExec_sound hdf hheaders horderings hunion hnames hsound
      hsame hordered hunionExec
    have hunioncolumns := (unionExec_concatenates hdf hunionExec).columns.trans hhead
    apply withLimit_sound hdf horderings
    exact aggregate_sound hdf horderings hnodup hnames hfirst hunioncolumns hkeyed
      (fun hfalse => hnone (unordered_input hinputs hfalse)) hhonest hp

include hdf hheaders horderings hunion hprobe hcols hnodup hnames in
theorem buildScanExec_sound {unionMode : UnionMode} {keys : Index V → Expr → Set (Row V)}
    {f : IndexFilter V} (hf : f.NoEmptyNode)
    (hleaves : ∀ leaf ∈ f.leaves, leaf.1.indexSchema.columns.Perm cols ∧
      (names ≠ [] → leaf.1.indexSchema.columns = cols) ∧
        (leaf.1.isOrdered = true → leaf.1.indexSchema.names = names) ∧ leaf.1.Ordered leaf.2)
    (hscans : unionMode = .sequential → ∀ leaf ∈ f.leaves, ∀ limit', limit' = none ∨ limit' = limit →
      leaf.1.Scans cols (keys leaf.1 leaf.2) leaf.2 limit')
    (hsequenced : unionMode = .sequential → names ≠ [] →
      f.Sequenced keys fun x y => ((LexOrdering.ascending names).cmp x y).isLE)
    (h : buildScanExec df unionMode f limit = .ok plan)
    : plan.Sound cols names f.isOrdered := by
  induction f generalizing limit plan with
  | single index filter =>
    obtain ⟨hcolumns, haligned, hnames, hordered⟩ :=
      hleaves (index, filter) (by simp [IndexFilter.leaves])
    rw [buildScanExec_single] at h
    exact IndexScanExec.tryNew_sound horderings hnodup hcolumns haligned hnames hordered h
  | and filters ih =>
    rw [buildScanExec_and_eq_ok] at h
    obtain ⟨plans, hplans, h⟩ := h
    apply buildAnd_sound hdf horderings hprobe hcols hnodup hnames _ h
    apply Collect.forall₂_imp_of_mem hplans
    intro child hchild plan hplan
    apply ih child hchild (IndexFilter.noEmptyNodes_iff.mp hf.2 child hchild)
      (IndexFilter.forall_allLeaves.mp hleaves child hchild) _ _ hplan
    . intro hmode leaf hleaf limit' hlimit
      exact IndexFilter.forall_allLeaves.mp (hscans hmode) child hchild leaf hleaf limit'
        (.inl (or_self_iff.mp hlimit))
    . intro hmode hne
      exact IndexFilter.allSequenced_iff.mp (hsequenced hmode hne) child hchild
  | or filters ih =>
    rw [buildScanExec_or_eq_ok] at h
    obtain ⟨plans, hplans, h⟩ := h
    have hchild : List.Forall₂ (fun f plan => ExecutionPlan.Sound cols names f.isOrdered plan)
        filters plans := by
      apply Collect.forall₂_imp_of_mem hplans
      intro child hchild plan hplan
      exact ih child hchild (IndexFilter.noEmptyNodes_iff.mp hf.2 child hchild)
        (IndexFilter.forall_allLeaves.mp hleaves child hchild)
        (fun hmode => IndexFilter.forall_allLeaves.mp (hscans hmode) child hchild)
        (fun hmode hne => IndexFilter.allSequenced_iff.mp (hsequenced hmode hne).1 child hchild) hplan
    apply buildOr_sound hdf hheaders horderings hunion hnodup hnames
      (Collect.forall₂_ne_nil hplans hf.1) hchild _ h
    intro hmode hne hordered
    refine ⟨filters.map (IndexFilter.denote keys), ?_, (hsequenced hmode hne).2 hordered⟩
    rw [List.forall₂_map_left_iff]
    apply Collect.forall₂_imp_of_mem hplans
    intro child hchild plan hplan
    exact buildScanExec_produces hdf hnodup hcols (IndexFilter.noEmptyNodes_iff.mp hf.2 child hchild)
      (IndexFilter.forall_allLeaves.mp (hscans hmode) child hchild) hplan

include hdf hheaders horderings hunion hprobe hcols hnodup in
theorem buildScanExec_honest {unionMode : UnionMode} {keys : Index V → Expr → Set (Row V)}
    {f : IndexFilter V} (hf : f.NoEmptyNode)
    (hleaves : ∀ leaf ∈ f.leaves, leaf.1.Ordered leaf.2 ∧ ∀ limit', limit' = none ∨ limit' = limit →
      leaf.1.Scans cols (keys leaf.1 leaf.2) leaf.2 limit')
    (haligned : (∃ leaf ∈ f.leaves, leaf.1.isOrdered = true) →
      ∀ leaf ∈ f.leaves, leaf.1.indexSchema.columns = cols)
    (hsequenced : unionMode = .sequential →
      f.Sequenced keys fun x y => ((LexOrdering.ascending (cols.map Prod.fst)).cmp x y).isLE)
    (h : buildScanExec df unionMode f limit = .ok plan)
    : plan.AllHonest := by
  have hscans : ∀ leaf ∈ f.leaves, ∀ limit', limit' = none ∨ limit' = limit →
      leaf.1.Scans cols (keys leaf.1 leaf.2) leaf.2 limit' := fun leaf hleaf => (hleaves leaf hleaf).2
  by_cases hany : ∃ leaf ∈ f.leaves, leaf.1.isOrdered = true
  . have hsound : plan.Sound cols (cols.map Prod.fst) f.isOrdered := by
      apply buildScanExec_sound hdf hheaders horderings hunion hprobe hcols hnodup (.inr rfl) hf _
        (fun _ => hscans) (fun hmode _ => hsequenced hmode) h
      intro leaf hleaf
      have hcolumns := haligned hany leaf hleaf
      refine ⟨.of_eq hcolumns, fun _ => hcolumns, ?_, (hleaves leaf hleaf).1⟩
      intro _
      rw [Schema.names_eq_columns, hcolumns]
    exact hsound.honest
  . -- Without ordered indexes, the columns may come in any order: no plan advertises anything.
    have hsound : plan.Sound cols [] f.isOrdered := by
      apply buildScanExec_sound hdf hheaders horderings hunion hprobe hcols hnodup (.inl rfl) hf _
        (fun _ => hscans) (fun _ hne => absurd rfl hne) h
      intro leaf hleaf
      refine ⟨(hscans leaf hleaf none (.inl rfl)).columns, fun hne => absurd rfl hne, ?_,
        (hleaves leaf hleaf).1⟩
      intro hordered
      exact absurd ⟨leaf, hleaf, hordered⟩ hany
    exact hsound.honest

end RecordFetchExec

end

end IndexProvider
