import IndexProvider.Lemmas.DefaultPredicates

/-!
This module contains what more indexes change for a provider: filters that were answered are answered by
the same indexes as before, and fewer filters are left over.
-/

namespace IndexProvider

variable {V : Type}

theorem IndexFilter.allLeaves_sublist {trees trees' : List (IndexFilter V)}
    (h : trees.Sublist trees')
    : (allLeaves trees).Sublist (allLeaves trees') := by
  induction h with
  | slnil => exact List.Sublist.refl _
  | cons tree _ ih => exact ih.trans (List.sublist_append_right _ _)
  | cons_cons tree _ ih => exact (List.Sublist.refl _).append ih

namespace IndexedTableProvider

variable {provider provider' : IndexedTableProvider V} {filters : List Expr}

/--
The second provider has the indexes of the first one, and others after them.
-/
def Extends (provider' provider : IndexedTableProvider V) : Prop :=
  ∃ indexes added, provider.indexes = .ok indexes ∧ provider'.indexes = .ok (indexes ++ added)

theorem PicksFirst.extends {index : Index V} {expr : Expr} (h : provider'.Extends provider)
    (hpicks : provider.PicksFirst index expr)
    : provider'.PicksFirst index expr := by
  obtain ⟨indexes, added, hindexes, hindexes'⟩ := h
  obtain ⟨before, after, hpicked, hbefore, hindex⟩ := hpicks
  rw [hindexes, Except.ok.injEq] at hpicked
  refine ⟨before, after ++ added, ?_, hbefore, hindex⟩
  rw [hindexes', hpicked, List.append_assoc, List.cons_append]

theorem Extends.findIndexForExpr_eq_some (h : provider'.Extends provider) {expr : Expr}
    {filter : IndexFilter V} (hfind : provider.findIndexForExpr expr = .ok (some filter))
    : provider'.findIndexForExpr expr = .ok (some filter) := by
  obtain ⟨index, rfl, hpicks⟩ := IndexedTableProvider.findIndexForExpr_eq_some hfind
  exact (hpicks.extends h).find

theorem Extends.buildIndexFilter_eq_some (h : provider'.Extends provider)
    : ∀ {expr : Expr} {tree : IndexFilter V},
        provider.buildIndexFilter expr = .ok (some tree)
          →
        provider'.buildIndexFilter expr = .ok (some tree)
  | .binaryExpr left op right, tree, hbuilt => by
    unfold buildIndexFilter at hbuilt ⊢
    split at hbuilt
    . exact h.findIndexForExpr_eq_some hbuilt
    . simp only [Collect.bind_eq_ok] at hbuilt ⊢
      obtain ⟨lFilter, hl, rFilter, hr, hbuilt⟩ := hbuilt
      cases lFilter with
      | none => simp at hbuilt
      | some l =>
        cases rFilter with
        | none => simp at hbuilt
        | some r => exact ⟨_, h.buildIndexFilter_eq_some hl, _, h.buildIndexFilter_eq_some hr, hbuilt⟩
  | .column _, _, hbuilt => h.findIndexForExpr_eq_some hbuilt
  | .literal _, _, hbuilt => h.findIndexForExpr_eq_some hbuilt
  | .node _ _, _, hbuilt => h.findIndexForExpr_eq_some hbuilt

/--
What is built for the same filters with more indexes: every tree there was, and some that there were not.
-/
abbrev Grown : List (Option (IndexFilter V)) → List (Option (IndexFilter V)) → Prop :=
  List.Forall₂ (fun built built' => ∀ tree, built = some tree → built' = some tree)

theorem Built.grown (h : provider'.Extends provider) {built built' : List (Option (IndexFilter V))}
    (hbuilt : Built provider filters built) (hbuilt' : Built provider' filters built')
    : Grown built built' := by
  induction hbuilt generalizing built' with
  | nil =>
    cases hbuilt'
    exact .nil
  | @cons filter b filters built hfilter _ ih =>
    cases hbuilt' with
    | cons hfilter' hbuilt' =>
      refine .cons ?_ (ih hbuilt')
      rintro tree rfl
      rw [h.buildIndexFilter_eq_some hfilter] at hfilter'
      cases hfilter'
      rfl

theorem Grown.trees_sublist {built built' : List (Option (IndexFilter V))} (h : Grown built built')
    : built.reduceOption.Sublist built'.reduceOption := by
  induction h with
  | nil => exact List.Sublist.refl _
  | @cons b b' built built' hgrown _ ih =>
    cases b with
    | some tree =>
      rw [hgrown tree rfl, List.reduceOption_cons_of_some, List.reduceOption_cons_of_some]
      exact ih.cons_cons _
    | none =>
      rw [List.reduceOption_cons_of_none]
      cases b' with
      | none => rwa [List.reduceOption_cons_of_none]
      | some tree =>
        rw [List.reduceOption_cons_of_some]
        exact ih.cons _

theorem Grown.remaining_sublist {built built' : List (Option (IndexFilter V))}
    (h : Grown built built')
    : (reported .unsupported filters (List.zipWith (fun _ => report) filters built')).Sublist
        (reported .unsupported filters (List.zipWith (fun _ => report) filters built)) := by
  induction h generalizing filters with
  | nil => exact List.Sublist.refl _
  | @cons b b' built built' hgrown _ ih =>
    cases filters with
    | nil => exact List.Sublist.refl _
    | cons filter filters =>
      simp only [List.zipWith_cons_cons, reported_cons]
      cases b with
      | some tree =>
        rw [hgrown tree rfl]
        exact ih
      | none =>
        cases b' with
        | none => exact ih.cons_cons _
        | some tree => exact ih.cons _

theorem Grown.reports {built built' : List (Option (IndexFilter V))} (h : Grown built built')
    : List.Forall₂ (fun r r' => r = .exact → r' = .exact)
        (List.zipWith (fun _ => report) filters built)
        (List.zipWith (fun _ => report) filters built') := by
  induction h generalizing filters with
  | nil => cases filters <;> exact .nil
  | @cons b b' built built' hgrown _ ih =>
    cases filters with
    | nil => exact .nil
    | cons filter filters =>
      refine .cons ?_ ih
      intro hexact
      cases b with
      | none => cases hexact
      | some tree =>
        rw [hgrown tree rfl]
        rfl

theorem analyzed_built {indexed : IndexFilters V} {remaining : List Expr}
    {reports : List TableProviderFilterPushDown}
    (hreports : provider.supportsFiltersIndexPushdown filters = .ok reports)
    (hanalyze : provider.analyzeAndOptimizeFilters filters = .ok (indexed, remaining))
    : ∃ built, Built provider filters built ∧ indexed = rootFilters built.reduceOption ∧
        reports = List.zipWith (fun _ => report) filters built ∧
          remaining = reported .unsupported filters reports := by
  rw [supportsFiltersIndexPushdown_eq, Collect.map_eq_ok] at hreports
  obtain ⟨built, hbuilt, rfl⟩ := hreports
  have hbuilt : Built provider filters built := Collect.mapM_eq_ok.mp hbuilt
  rw [hbuilt.analyze] at hanalyze
  cases hanalyze
  exact ⟨built, hbuilt, rfl, rfl, rfl⟩

/--
Added indexes leave every filter that was answered to the indexes that answered it, and only take filters
off those left to evaluate: what was reported `Exact` still is.
-/
theorem added_indexes_extend_pushdown (h : provider'.Extends provider)
    {reports reports' : List TableProviderFilterPushDown} {indexed indexed' : IndexFilters V}
    {remaining remaining' : List Expr}
    (hreports : provider.supportsFiltersIndexPushdown filters = .ok reports)
    (hreports' : provider'.supportsFiltersIndexPushdown filters = .ok reports')
    (hanalyze : provider.analyzeAndOptimizeFilters filters = .ok (indexed, remaining))
    (hanalyze' : provider'.analyzeAndOptimizeFilters filters = .ok (indexed', remaining'))
    : List.Forall₂ (fun r r' => r = .exact → r' = .exact) reports reports' ∧
        (∀ filter ∈ filters, ∀ tree, provider.buildIndexFilter filter = .ok (some tree) →
          provider'.buildIndexFilter filter = .ok (some tree)) ∧
          (IndexFilter.allLeaves indexed).Sublist (IndexFilter.allLeaves indexed') ∧
            remaining'.Sublist remaining := by
  obtain ⟨built, hbuilt, rfl, rfl, rfl⟩ := analyzed_built hreports hanalyze
  obtain ⟨built', hbuilt', rfl, rfl, rfl⟩ := analyzed_built hreports' hanalyze'
  have hgrown := hbuilt.grown h hbuilt'
  refine ⟨hgrown.reports, fun filter _ tree => h.buildIndexFilter_eq_some, ?_, hgrown.remaining_sublist⟩
  rw [IndexFilter.allLeaves_rootFilters, IndexFilter.allLeaves_rootFilters]
  exact IndexFilter.allLeaves_sublist hgrown.trees_sublist

def activeThenRemote : List Expr := [.column ⟨none, "active"⟩, .column ⟨none, "remote"⟩]

theorem activeAndRemote_extended
    : ∃ reports reports' indexed indexed' remaining remaining',
        (staffProvider ["active"]).supportsFiltersIndexPushdown activeThenRemote = .ok reports ∧
          (staffProvider ["active", "remote"]).supportsFiltersIndexPushdown activeThenRemote
            = .ok reports' ∧
          (staffProvider ["active"]).analyzeAndOptimizeFilters activeThenRemote
            = .ok (indexed, remaining) ∧
          (staffProvider ["active", "remote"]).analyzeAndOptimizeFilters activeThenRemote
            = .ok (indexed', remaining') ∧
          reports = [.exact, .unsupported] ∧ reports' = [.exact, .exact] ∧
          remaining = [.column ⟨none, "remote"⟩] ∧ remaining' = [] ∧
          List.Forall₂ (fun r r' => r = .exact → r' = .exact) reports reports' ∧
          (IndexFilter.allLeaves indexed).Sublist (IndexFilter.allLeaves indexed') ∧
          remaining'.Sublist remaining := by
  have hextends : (staffProvider ["active", "remote"]).Extends (staffProvider ["active"]) :=
    ⟨[columnIndex "active"], [columnIndex "remote"], rfl, rfl⟩
  have hreports : (staffProvider ["active"]).supportsFiltersIndexPushdown activeThenRemote
      = .ok [.exact, .unsupported] := rfl
  have hreports' : (staffProvider ["active", "remote"]).supportsFiltersIndexPushdown activeThenRemote
      = .ok [.exact, .exact] := rfl
  have hanalyze : (staffProvider ["active"]).analyzeAndOptimizeFilters activeThenRemote
      = .ok ([.single (columnIndex "active") (.column ⟨none, "active"⟩)],
        [.column ⟨none, "remote"⟩]) := rfl
  have hanalyze' : (staffProvider ["active", "remote"]).analyzeAndOptimizeFilters activeThenRemote
      = .ok ([.and [.single (columnIndex "active") (.column ⟨none, "active"⟩),
          .single (columnIndex "remote") (.column ⟨none, "remote"⟩)]], []) := rfl
  obtain ⟨hexact, -, hleaves, hremaining⟩ :=
    added_indexes_extend_pushdown hextends hreports hreports' hanalyze hanalyze'
  exact ⟨_, _, _, _, _, _, hreports, hreports', hanalyze, hanalyze', rfl, rfl, rfl, rfl, hexact, hleaves,
    hremaining⟩

end IndexedTableProvider

end IndexProvider
