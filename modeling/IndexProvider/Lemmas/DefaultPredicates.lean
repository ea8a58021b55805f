import IndexProvider.Lemmas.Columns
import IndexProvider.Lemmas.Scan

/-!
This module contains the filter analysis of providers whose indexes keep the default `supports_predicate`:
it never fails, and it answers what refers to indexed columns only.
-/

namespace IndexProvider

variable {V : Type}

/--
`expr_to_columns` returns the columns an expression refers to.
-/
def ExprToColumns.Collects (exprToColumns : ExprToColumns) : Prop :=
  ∀ expr, ∃ cols, exprToColumns expr = .ok cols ∧ ∀ col, col ∈ cols ↔ col ∈ expr.columns

def Expr.OnColumn (columnName : String) (expr : Expr) : Prop :=
  expr.columns ≠ [] ∧ ∀ col ∈ expr.columns, col.name = columnName

instance (columnName : String) (expr : Expr) : Decidable (expr.OnColumn columnName) :=
  inferInstanceAs (Decidable (_ ∧ _))

theorem Expr.OnColumn.unique {columnName columnName' : String} {expr : Expr}
    (h : expr.OnColumn columnName) (h' : expr.OnColumn columnName')
    : columnName = columnName' := by
  obtain ⟨col, hcol⟩ := List.exists_mem_of_ne_nil _ h.1
  rw [← h.2 col hcol, h'.2 col hcol]

theorem Index.defaultSupportsPredicate_eq {exprToColumns : ExprToColumns}
    (hcollects : exprToColumns.Collects) (columnName : String) (predicate : Expr)
    : defaultSupportsPredicate exprToColumns columnName predicate
        =
      .ok (decide (predicate.OnColumn columnName)) := by
  obtain ⟨cols, hcols, hmem⟩ := hcollects predicate
  have hempty : cols = [] ↔ predicate.columns = [] := by
    simp only [List.eq_nil_iff_forall_not_mem, hmem]
  unfold defaultSupportsPredicate
  rw [hcols]
  refine congrArg Except.ok ?_
  rw [Bool.eq_iff_iff, decide_eq_true_iff]
  simp [Expr.OnColumn, hmem, hempty]

theorem IndexFilter.allLeaves_rootFilters (trees : List (IndexFilter V))
    : allLeaves (IndexedTableProvider.rootFilters trees) = allLeaves trees := by
  match trees with
  | [] => rfl
  | [_] => rfl
  | _ :: _ :: _ => simp [IndexedTableProvider.rootFilters, allLeaves, leaves]

namespace IndexedTableProvider

theorem reported_map (filters : List Expr) (P : Expr → Prop) [DecidablePred P]
    : reported .exact filters (filters.map fun filter => if P filter then .exact else .unsupported)
          = filters.filter P ∧
        reported .unsupported filters (filters.map fun filter => if P filter then .exact else .unsupported)
          = filters.filter fun filter => ¬ P filter := by
  induction filters with
  | nil => exact ⟨rfl, rfl⟩
  | cons filter filters ih =>
    rw [List.map_cons, reported_cons, reported_cons, ih.1, ih.2]
    by_cases h : P filter
    . simp [h]
    . simp [h]

theorem PicksFirst.find {provider : IndexedTableProvider V} {index : Index V} {expr : Expr}
    (h : provider.PicksFirst index expr)
    : provider.findIndexForExpr expr = .ok (some (.single index expr)) := by
  obtain ⟨before, after, hindexes, hbefore, hindex⟩ := h
  have hgo : findIndexForExpr.go expr (before ++ index :: after) = .ok (some (.single index expr)) := by
    clear hindexes
    induction before with
    | nil =>
      rw [List.nil_append, findIndexForExpr.go, hindex]
      rfl
    | cons earlier before ih =>
      rw [List.forall_mem_cons] at hbefore
      rw [List.cons_append, findIndexForExpr.go, hbefore.1]
      exact ih hbefore.2
  unfold findIndexForExpr
  rw [hindexes]
  exact hgo

theorem PicksFirst.unique {provider : IndexedTableProvider V} {index index' : Index V} {expr : Expr}
    (h : provider.PicksFirst index expr) (h' : provider.PicksFirst index' expr)
    : index = index' := by
  have hfind := h.find.symm.trans h'.find
  cases hfind
  rfl

section

variable {provider : IndexedTableProvider V} {indexes : List (Index V)}
  (hindexes : provider.indexes = .ok indexes)
  (htotal : ∀ index ∈ indexes, ∀ expr, ∃ supported, index.supportsPredicate expr = .ok supported)
include hindexes htotal

theorem findIndexForExpr_total (expr : Expr) : ∃ found, provider.findIndexForExpr expr = .ok found := by
  unfold findIndexForExpr
  rw [hindexes]
  change ∃ found, findIndexForExpr.go expr indexes = .ok found
  clear hindexes
  induction indexes with
  | nil => exact ⟨none, rfl⟩
  | cons index indexes ih =>
    rw [List.forall_mem_cons] at htotal
    obtain ⟨supported, hsupported⟩ := htotal.1 expr
    rw [findIndexForExpr.go, hsupported]
    cases supported with
    | true => exact ⟨_, rfl⟩
    | false => exact ih htotal.2

theorem buildIndexFilter_total (expr : Expr) : ∃ built, provider.buildIndexFilter expr = .ok built := by
  induction expr using Expr.induction with
  | column col => exact findIndexForExpr_total hindexes htotal _
  | literal value => exact findIndexForExpr_total hindexes htotal _
  | node kind args _ => exact findIndexForExpr_total hindexes htotal _
  | binaryExpr left op right ihl ihr =>
    obtain ⟨lFilter, hl⟩ := ihl
    obtain ⟨rFilter, hr⟩ := ihr
    unfold buildIndexFilter
    split
    . exact findIndexForExpr_total hindexes htotal _
    . rw [hl, hr]
      cases lFilter with
      | none => exact ⟨none, rfl⟩
      | some l => cases rFilter <;> exact ⟨_, rfl⟩

end

variable {provider : IndexedTableProvider V} {exprToColumns : ExprToColumns} {indexes : List (Index V)}

theorem UsesDefault.supports_iff (hcollects : exprToColumns.Collects)
    (hdefault : provider.UsesDefault exprToColumns) (hindexes : provider.indexes = .ok indexes)
    {expr : Expr}
    : provider.Supports expr ↔ ∃ index ∈ indexes, expr.OnColumn index.columnName := by
  have hsupports : ∀ index ∈ indexes, index.supportsPredicate expr = .ok true
      ↔ expr.OnColumn index.columnName := by
    intro index hindex
    rw [hdefault indexes hindexes index hindex, Index.defaultSupportsPredicate_eq hcollects]
    simp
  unfold Supports
  simp only [hindexes, Except.ok.injEq, exists_eq_left']
  constructor
  . intro h
    obtain ⟨index, hindex, h⟩ := h
    exact ⟨index, hindex, (hsupports index hindex).mp h⟩
  . intro h
    obtain ⟨index, hindex, h⟩ := h
    exact ⟨index, hindex, (hsupports index hindex).mpr h⟩

theorem UsesDefault.picksFirst (hcollects : exprToColumns.Collects)
    (hdefault : provider.UsesDefault exprToColumns) (hindexes : provider.indexes = .ok indexes)
    (hnodup : (indexes.map Index.columnName).Nodup) {index : Index V} (hindex : index ∈ indexes)
    {expr : Expr} (hcolumn : expr.OnColumn index.columnName)
    : provider.PicksFirst index expr := by
  have hsupports : ∀ index ∈ indexes, index.supportsPredicate expr
      = .ok (decide (expr.OnColumn index.columnName)) := by
    intro index hindex
    rw [hdefault indexes hindexes index hindex, Index.defaultSupportsPredicate_eq hcollects]
  obtain ⟨before, after, rfl⟩ := List.append_of_mem hindex
  refine ⟨before, after, hindexes, ?_, ?_⟩
  . intro earlier hearlier
    rw [hsupports earlier (List.mem_append_left _ hearlier), Except.ok.injEq, decide_eq_false_iff_not]
    intro hearlier_column
    rw [List.map_append, List.nodup_append] at hnodup
    exact hnodup.2.2 earlier.columnName (List.mem_map_of_mem hearlier) index.columnName (by simp)
      (hearlier_column.unique hcolumn)
  . rw [hsupports index hindex, decide_eq_true hcolumn]

theorem UsesDefault.onColumn (hcollects : exprToColumns.Collects)
    (hdefault : provider.UsesDefault exprToColumns) (hindexes : provider.indexes = .ok indexes)
    {index : Index V} {expr : Expr} (h : provider.PicksFirst index expr)
    : index ∈ indexes ∧ expr.OnColumn index.columnName := by
  obtain ⟨before, after, hpicked, -, hindex⟩ := h
  have hmem : index ∈ indexes := by
    rw [hindexes, Except.ok.injEq] at hpicked
    simp [hpicked]
  rw [hdefault indexes hindexes index hmem, Index.defaultSupportsPredicate_eq hcollects,
    Except.ok.injEq, decide_eq_true_iff] at hindex
  exact ⟨hmem, hindex⟩

theorem UsesDefault.exists_built (hcollects : exprToColumns.Collects)
    (hdefault : provider.UsesDefault exprToColumns) (hindexes : provider.indexes = .ok indexes)
    (filters : List Expr)
    : ∃ built, Built provider filters built ∧
        List.zipWith (fun _ => report) filters built
          =
        filters.map fun filter =>
          if ∀ leaf ∈ filter.leaves, ∃ index ∈ indexes, leaf.OnColumn index.columnName then
            .exact
          else
            .unsupported := by
  have htotal : ∀ index ∈ indexes, ∀ expr, ∃ supported,
      index.supportsPredicate expr = .ok supported := by
    intro index hindex expr
    rw [hdefault indexes hindexes index hindex]
    exact ⟨_, Index.defaultSupportsPredicate_eq hcollects _ _⟩
  induction filters with
  | nil => exact ⟨[], .nil, rfl⟩
  | cons filter filters ih =>
    obtain ⟨b, hb⟩ := buildIndexFilter_total hindexes htotal filter
    obtain ⟨built, hbuilt, hreports⟩ := ih
    have hreport := report_eq_exact_iff hb
    simp only [hdefault.supports_iff hcollects hindexes] at hreport
    refine ⟨b :: built, .cons hb hbuilt, ?_⟩
    rw [List.zipWith_cons_cons, hreports, List.map_cons]
    simp only [← hreport]
    cases b with
    | none => rfl
    | some tree => rfl

theorem UsesDefault.supportsFiltersIndexPushdown_eq (hcollects : exprToColumns.Collects)
    (hdefault : provider.UsesDefault exprToColumns) (hindexes : provider.indexes = .ok indexes)
    (filters : List Expr)
    : provider.supportsFiltersIndexPushdown filters
        =
      .ok (filters.map fun filter =>
        if ∀ leaf ∈ filter.leaves, ∃ index ∈ indexes, leaf.OnColumn index.columnName then
          .exact
        else
          .unsupported) := by
  obtain ⟨built, hbuilt, hreports⟩ := hdefault.exists_built hcollects hindexes filters
  rw [IndexedTableProvider.supportsFiltersIndexPushdown_eq, Collect.mapM_eq_ok.mpr hbuilt, ← hreports]
  rfl

/--
With the default `supports_predicate`, the pushdown and the analysis never fail: the filters all of whose
leaves refer to columns, and each to those of one index only, are reported as `Exact` and handed to indexes
on these columns, and all others are reported as `Unsupported` and left over.
-/
theorem default_pushdown_negotiated (hcollects : exprToColumns.Collects)
    (hdefault : provider.UsesDefault exprToColumns) (hindexes : provider.indexes = .ok indexes)
    (filters : List Expr)
    : provider.supportsFiltersIndexPushdown filters
          = .ok (filters.map fun filter =>
              if ∀ leaf ∈ filter.leaves, ∃ index ∈ indexes, leaf.OnColumn index.columnName then
                .exact
              else
                .unsupported) ∧
        ∃ indexed,
          provider.analyzeAndOptimizeFilters filters
              = .ok (indexed, filters.filter fun filter =>
                  ¬ ∀ leaf ∈ filter.leaves, ∃ index ∈ indexes, leaf.OnColumn index.columnName) ∧
            ∀ leaf ∈ IndexFilter.allLeaves indexed, leaf.1 ∈ indexes ∧ leaf.2.OnColumn leaf.1.columnName := by
  obtain ⟨built, hbuilt, hreports⟩ := hdefault.exists_built hcollects hindexes filters
  refine ⟨hdefault.supportsFiltersIndexPushdown_eq hcollects hindexes filters,
    rootFilters built.reduceOption, ?_, ?_⟩
  . rw [hbuilt.analyze, hreports, (reported_map filters _).2]
  . rw [IndexFilter.allLeaves_rootFilters, IndexFilter.forall_allLeaves]
    intro tree htree leaf hleaf
    obtain ⟨_, -, hrepresents⟩ := Collect.forall₂_of_mem_left hbuilt.represents htree
    exact hdefault.onColumn hcollects hindexes (hrepresents.picks_first leaf hleaf)

theorem collectColumns_collects : collectColumns.Collects := fun _ => ⟨_, rfl, fun _ => Iff.rfl⟩

theorem activeOrNotRemote_pushed
    : (staffProvider ["active", "remote"]).supportsFiltersIndexPushdown
            [activeOrNotRemote, .binaryExpr (.column ⟨none, "active"⟩) .eq (.column ⟨none, "remote"⟩)]
          = .ok [.exact, .unsupported] ∧
        ∃ indexed : IndexFilters Nat,
          (staffProvider ["active", "remote"]).analyzeAndOptimizeFilters
              [activeOrNotRemote, .binaryExpr (.column ⟨none, "active"⟩) .eq (.column ⟨none, "remote"⟩)]
            = .ok (indexed,
                [.binaryExpr (.column ⟨none, "active"⟩) .eq (.column ⟨none, "remote"⟩)]) := by
  obtain ⟨hpushdown, indexed, hanalyze, -⟩ := default_pushdown_negotiated collectColumns_collects
    (staffProvider_usesDefault ["active", "remote"]) rfl
    [activeOrNotRemote, .binaryExpr (.column ⟨none, "active"⟩) .eq (.column ⟨none, "remote"⟩)]
  refine ⟨?_, indexed, ?_⟩
  . rw [hpushdown]
    decide
  . rw [hanalyze]
    congr 2

end IndexedTableProvider

end IndexProvider
