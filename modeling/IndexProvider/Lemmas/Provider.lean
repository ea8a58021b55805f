import IndexProvider.Library.Collect
import IndexProvider.Impl.Provider

/-!
This module relates the two readers of the filter analysis: the pushdown negotiation, after which
DataFusion drops every filter reported `Exact`, and the scan, which plans what was dropped.
-/

namespace IndexProvider

variable {V : Type}

def Expr.leaves : Expr → List Expr
  | .binaryExpr left op right =>
    if op = .and ∨ op = .or then
      leaves left ++ leaves right
    else
      [.binaryExpr left op right]
  | expr => [expr]

mutual

/--
The expression an `IndexFilter` was built from: the predicate of a leaf, `AND` for a binary `And`
and `OR` for a binary `Or`.
-/
def IndexFilter.erase : IndexFilter V → Option Expr
  | .single _ filter => some filter
  | .and filters =>
    match eraseAll filters with
    | some [l, r] => some (.binaryExpr l .and r)
    | _ => none
  | .or filters =>
    match eraseAll filters with
    | some [l, r] => some (.binaryExpr l .or r)
    | _ => none

def IndexFilter.eraseAll : List (IndexFilter V) → Option (List Expr)
  | [] => some []
  | f :: fs =>
    match erase f, eraseAll fs with
    | some expr, some exprs => some (expr :: exprs)
    | _, _ => none

end

namespace IndexedTableProvider

def Supports (provider : IndexedTableProvider V) (expr : Expr) : Prop :=
  ∃ indexes, provider.indexes = .ok indexes ∧
    ∃ index ∈ indexes, index.supportsPredicate expr = .ok true

def PicksFirst (provider : IndexedTableProvider V) (index : Index V) (expr : Expr) : Prop :=
  ∃ before after, provider.indexes = .ok (before ++ index :: after) ∧
    (∀ earlier ∈ before, earlier.supportsPredicate expr = .ok false) ∧
      index.supportsPredicate expr = .ok true

theorem PicksFirst.supports {provider : IndexedTableProvider V} {index : Index V} {expr : Expr}
    (h : provider.PicksFirst index expr)
    : provider.Supports expr := by
  obtain ⟨before, after, hindexes, -, hindex⟩ := h
  exact ⟨_, hindexes, index, by simp, hindex⟩

theorem findIndexForExpr.go_eq_some {expr : Expr} {filter : IndexFilter V}
    : ∀ {indexes : List (Index V)},
        go expr indexes = .ok (some filter)
          →
        ∃ before index after,
          indexes = before ++ index :: after ∧
            (∀ earlier ∈ before, earlier.supportsPredicate expr = .ok false) ∧
              index.supportsPredicate expr = .ok true ∧ filter = .single index expr
  | [], h => by simp [go] at h
  | index :: indexes, h => by
    simp only [go, Collect.bind_eq_ok] at h
    obtain ⟨supported, hsupported, h⟩ := h
    cases supported with
    | true =>
      simp only [if_true, Collect.pure_eq_ok, Option.some.injEq] at h
      exact ⟨[], index, indexes, rfl, by simp, hsupported, h.symm⟩
    | false =>
      simp only [Bool.false_eq_true, if_false] at h
      obtain ⟨before, found, after, rfl, hbefore, hfound, hfilter⟩ := go_eq_some h
      refine ⟨index :: before, found, after, rfl, ?_, hfound, hfilter⟩
      intro earlier hearlier
      cases hearlier with
      | head => exact hsupported
      | tail _ hearlier => exact hbefore earlier hearlier

theorem findIndexForExpr.go_eq_none {expr : Expr}
    : ∀ {indexes : List (Index V)},
        go expr indexes = .ok none
          →
        ∀ index ∈ indexes, index.supportsPredicate expr = .ok false
  | [], _ => by simp
  | index :: indexes, h => by
    simp only [go, Collect.bind_eq_ok] at h
    obtain ⟨supported, hsupported, h⟩ := h
    cases supported with
    | true => simp at h
    | false =>
      simp only [Bool.false_eq_true, if_false] at h
      intro other hother
      cases hother with
      | head => exact hsupported
      | tail _ hother => exact go_eq_none h other hother

theorem findIndexForExpr_eq_some {provider : IndexedTableProvider V} {expr : Expr}
    {filter : IndexFilter V}
    (h : provider.findIndexForExpr expr = .ok (some filter))
    : ∃ index, filter = .single index expr ∧ provider.PicksFirst index expr := by
  simp only [findIndexForExpr, Collect.bind_eq_ok] at h
  obtain ⟨indexes, hindexes, h⟩ := h
  obtain ⟨before, index, after, rfl, hbefore, hindex, hfilter⟩ := findIndexForExpr.go_eq_some h
  exact ⟨index, hfilter, before, after, hindexes, hbefore, hindex⟩

theorem findIndexForExpr_eq_none {provider : IndexedTableProvider V} {expr : Expr}
    (h : provider.findIndexForExpr expr = .ok none)
    : ¬ provider.Supports expr := by
  simp only [findIndexForExpr, Collect.bind_eq_ok] at h
  obtain ⟨indexes, hindexes, h⟩ := h
  rintro ⟨indexes', hindexes', index, hmem, hindex⟩
  rw [hindexes] at hindexes'
  cases hindexes'
  have := findIndexForExpr.go_eq_none h index hmem
  rw [this] at hindex
  cases hindex

theorem combine?_eq_some {op : Operator} {combine : IndexFilter V → IndexFilter V → IndexFilter V}
    (h : combine? op = some combine)
    : (op = .and ∧ combine = fun l r => .and [l, r]) ∨
        (op = .or ∧ combine = fun l r => .or [l, r]) := by
  cases op <;> simp_all [combine?]

theorem combine?_eq_none {op : Operator} (h : combine? (V := V) op = none)
    : ¬ (op = .and ∨ op = .or) := by
  cases op <;> simp_all [combine?]

/--
What an index tree says about the expression it was built from: nothing of the expression is lost or
changed, and every leaf is paired with the first index that supports it.
-/
structure Represents (provider : IndexedTableProvider V) (filter : IndexFilter V) (expr : Expr) :
    Prop where
  erase_eq : filter.erase = some expr
  leaves_eq : filter.leaves.map Prod.snd = expr.leaves
  picks_first : ∀ leaf ∈ filter.leaves, provider.PicksFirst leaf.1 leaf.2
  no_empty_node : filter.NoEmptyNode

theorem Represents.supports {provider : IndexedTableProvider V} {filter : IndexFilter V}
    {expr : Expr} (h : provider.Represents filter expr)
    : ∀ leaf ∈ expr.leaves, provider.Supports leaf := by
  intro leaf hleaf
  rw [← h.leaves_eq] at hleaf
  obtain ⟨pair, hpair, rfl⟩ := List.mem_map.mp hleaf
  exact (h.picks_first pair hpair).supports

theorem Represents.single {provider : IndexedTableProvider V} {index : Index V} {expr : Expr}
    (hleaf : expr.leaves = [expr]) (h : provider.PicksFirst index expr)
    : provider.Represents (.single index expr) expr where
  erase_eq := rfl
  leaves_eq := by simp [IndexFilter.leaves, hleaf]
  picks_first := by simpa [IndexFilter.leaves] using h
  no_empty_node := trivial

theorem Represents.combine {provider : IndexedTableProvider V} {l r : IndexFilter V}
    {left right : Expr} {op : Operator} {combine : IndexFilter V → IndexFilter V → IndexFilter V}
    (hop : combine? op = some combine)
    (hl : provider.Represents l left) (hr : provider.Represents r right)
    : provider.Represents (combine l r) (.binaryExpr left op right) := by
  have hleaves : ∀ leaf ∈ l.leaves ++ r.leaves, provider.PicksFirst leaf.1 leaf.2 := by
    intro leaf hleaf
    cases List.mem_append.mp hleaf with
    | inl hleaf => exact hl.picks_first leaf hleaf
    | inr hleaf => exact hr.picks_first leaf hleaf
  rcases combine?_eq_some hop with ⟨rfl, rfl⟩ | ⟨rfl, rfl⟩
  all_goals
    constructor
    . simp [IndexFilter.erase, IndexFilter.eraseAll, hl.erase_eq, hr.erase_eq]
    . simp [IndexFilter.leaves, IndexFilter.allLeaves, Expr.leaves, hl.leaves_eq, hr.leaves_eq]
    . simpa [IndexFilter.leaves, IndexFilter.allLeaves] using hleaves
    . simp [IndexFilter.NoEmptyNode, IndexFilter.NoEmptyNodes, hl.no_empty_node, hr.no_empty_node]

theorem represents_of_findIndexForExpr {provider : IndexedTableProvider V} {expr : Expr}
    {filter : IndexFilter V} (hleaf : expr.leaves = [expr])
    (h : provider.findIndexForExpr expr = .ok (some filter))
    : provider.Represents filter expr := by
  obtain ⟨index, rfl, hindex⟩ := findIndexForExpr_eq_some h
  exact .single hleaf hindex

theorem buildIndexFilter_eq_some {provider : IndexedTableProvider V}
    : ∀ {expr : Expr} {filter : IndexFilter V},
        provider.buildIndexFilter expr = .ok (some filter)
          →
        provider.Represents filter expr
  | .binaryExpr left op right, filter, h => by
    unfold buildIndexFilter at h
    split at h
    . next hop => exact represents_of_findIndexForExpr (by simp [Expr.leaves, combine?_eq_none hop]) h
    . next combine hop =>
      simp only [Collect.bind_eq_ok] at h
      obtain ⟨lFilter, hl, rFilter, hr, h⟩ := h
      cases lFilter with
      | none => simp at h
      | some l =>
        cases rFilter with
        | none => simp at h
        | some r =>
          simp only [Collect.pure_eq_ok, Option.some.injEq] at h
          rw [← h]
          exact .combine hop (buildIndexFilter_eq_some hl) (buildIndexFilter_eq_some hr)
  | .column _, _, h => represents_of_findIndexForExpr rfl h
  | .literal _, _, h => represents_of_findIndexForExpr rfl h
  | .node _ _, _, h => represents_of_findIndexForExpr rfl h

theorem buildIndexFilter_eq_none {provider : IndexedTableProvider V}
    : ∀ {expr : Expr},
        provider.buildIndexFilter expr = .ok none
          →
        ∃ leaf ∈ expr.leaves, ¬ provider.Supports leaf
  | .binaryExpr left op right, h => by
    unfold buildIndexFilter at h
    split at h
    . next hop =>
      exact ⟨_, by simp [Expr.leaves, combine?_eq_none hop], findIndexForExpr_eq_none h⟩
    . next combine hop =>
      have hleaves : (Expr.binaryExpr left op right).leaves = left.leaves ++ right.leaves := by
        rcases combine?_eq_some hop with ⟨rfl, -⟩ | ⟨rfl, -⟩ <;> simp [Expr.leaves]
      simp only [Collect.bind_eq_ok] at h
      obtain ⟨lFilter, hl, rFilter, hr, h⟩ := h
      cases lFilter with
      | none =>
        obtain ⟨leaf, hmem, hleaf⟩ := buildIndexFilter_eq_none hl
        exact ⟨leaf, by simp [hleaves, hmem], hleaf⟩
      | some l =>
        cases rFilter with
        | none =>
          obtain ⟨leaf, hmem, hleaf⟩ := buildIndexFilter_eq_none hr
          exact ⟨leaf, by simp [hleaves, hmem], hleaf⟩
        | some r => simp at h
  | .column _, h => ⟨_, by simp [Expr.leaves], findIndexForExpr_eq_none h⟩
  | .literal _, h => ⟨_, by simp [Expr.leaves], findIndexForExpr_eq_none h⟩
  | .node _ _, h => ⟨_, by simp [Expr.leaves], findIndexForExpr_eq_none h⟩

/-!
Both readers are the collected results of `buildIndexFilter`, looked at filter by filter.
-/

def report (built : Option (IndexFilter V)) : TableProviderFilterPushDown :=
  if built.isSome then .exact else .unsupported

def pair (expr : Expr) (built : Option (IndexFilter V)) : Option (IndexFilter V) × Option Expr :=
  match built with
  | some filter => (some filter, none)
  | none => (none, some expr)

theorem supportsFiltersIndexPushdown_eq (provider : IndexedTableProvider V) (filters : List Expr)
    : provider.supportsFiltersIndexPushdown filters
        =
      (fun built => List.zipWith (fun _ => report) filters built) <$>
        filters.mapM provider.buildIndexFilter := by
  rw [← Collect.mapM_map_comm]
  unfold supportsFiltersIndexPushdown
  congr
  funext filter
  cases provider.buildIndexFilter filter with
  | error e => rfl
  | ok built => cases built <;> rfl

theorem analyzeAndOptimizeFilters_eq (provider : IndexedTableProvider V) (filters : List Expr)
    : provider.analyzeAndOptimizeFilters filters
        =
      (fun built =>
        (rootFilters ((List.zipWith pair filters built).map Prod.fst).reduceOption,
          ((List.zipWith pair filters built).map Prod.snd).reduceOption)) <$>
        filters.mapM provider.buildIndexFilter := by
  have hpairs : filters.mapM (analyzeAndOptimizeFilters.splitFilter provider)
      = (fun built => List.zipWith pair filters built) <$>
          filters.mapM provider.buildIndexFilter := by
    rw [← Collect.mapM_map_comm]
    congr
    funext expr
    unfold analyzeAndOptimizeFilters.splitFilter
    cases provider.buildIndexFilter expr with
    | error e => rfl
    | ok built => cases built <;> rfl
  unfold analyzeAndOptimizeFilters
  rw [hpairs]
  cases filters.mapM provider.buildIndexFilter with
  | error e => rfl
  | ok built =>
    simp only [Functor.map, Except.map, bind, Except.bind, pure, Except.pure, List.unzip_fst,
      List.unzip_snd]

def reported (r : TableProviderFilterPushDown) (filters : List Expr)
    (reports : List TableProviderFilterPushDown) : List Expr :=
  ((filters.zip reports).filter (fun p => p.2 = r)).map Prod.fst

/--
What the pushdown negotiation and the scan agree on: `reports` is the answer of
`supportsFiltersIndexPushdown`, `indexed` and `remaining` that of `analyzeAndOptimizeFilters`.
-/
structure Negotiated (provider : IndexedTableProvider V) (filters : List Expr)
    (reports : List TableProviderFilterPushDown) (indexed : IndexFilters V)
    (remaining : List Expr) : Prop where
  length_eq : reports.length = filters.length
  exact_iff : ∀ (i : Nat) (filter : Expr) (r : TableProviderFilterPushDown),
    filters[i]? = some filter → reports[i]? = some r →
      (r = .exact ↔ ∀ leaf ∈ filter.leaves, provider.Supports leaf)
  exact_or_unsupported : ∀ r ∈ reports, r = .exact ∨ r = .unsupported
  remaining_eq : remaining = reported .unsupported filters reports
  trees : ∃ trees, List.Forall₂ provider.Represents trees (reported .exact filters reports) ∧
    (trees.length < 2 → indexed = trees) ∧ (2 ≤ trees.length → indexed = [.and trees])
  exact_only : provider.analyzeAndOptimizeFilters (reported .exact filters reports)
    = .ok (indexed, [])

abbrev Built (provider : IndexedTableProvider V) :
    List Expr → List (Option (IndexFilter V)) → Prop :=
  List.Forall₂ (fun filter built => provider.buildIndexFilter filter = .ok built)

theorem report_eq_exact_iff {provider : IndexedTableProvider V} {filter : Expr}
    {built : Option (IndexFilter V)} (h : provider.buildIndexFilter filter = .ok built)
    : report built = .exact ↔ ∀ leaf ∈ filter.leaves, provider.Supports leaf := by
  cases built with
  | none =>
    obtain ⟨leaf, hmem, hleaf⟩ := buildIndexFilter_eq_none h
    constructor
    . intro hreport
      simp [report] at hreport
    . intro hsupports
      exact absurd (hsupports leaf hmem) hleaf
  | some tree =>
    constructor
    . intro _
      exact (buildIndexFilter_eq_some h).supports
    . intro _
      rfl

theorem report_eq_exact_or_unsupported (built : Option (IndexFilter V))
    : report built = .exact ∨ report built = .unsupported := by
  cases built with
  | none => exact .inr rfl
  | some _ => exact .inl rfl

theorem reported_cons (r : TableProviderFilterPushDown) (filter : Expr) (filters : List Expr)
    (report : TableProviderFilterPushDown) (reports : List TableProviderFilterPushDown)
    : reported r (filter :: filters) (report :: reports)
        =
      if report = r then filter :: reported r filters reports else reported r filters reports := by
  unfold reported
  by_cases h : report = r
  . simp [h]
  . simp [h]

theorem rootFilters_of_length_lt {trees : List (IndexFilter V)} (h : trees.length < 2)
    : rootFilters trees = trees := by
  match trees with
  | [] => rfl
  | [_] => rfl
  | _ :: _ :: _ =>
    simp only [List.length_cons] at h
    omega

theorem rootFilters_of_le_length {trees : List (IndexFilter V)} (h : 2 ≤ trees.length)
    : rootFilters trees = [.and trees] := by
  match trees with
  | [] => simp at h
  | [_] => simp at h
  | _ :: _ :: _ => rfl

theorem reduceOption_pair_some (exprs : List Expr) (trees : List (IndexFilter V))
    : ((List.zipWith pair exprs (trees.map some)).map Prod.snd).reduceOption = [] := by
  induction exprs generalizing trees with
  | nil => rfl
  | cons expr exprs ih =>
    cases trees with
    | nil => rfl
    | cons tree trees => exact ih trees

section Bookkeeping

variable {provider : IndexedTableProvider V} {filters : List Expr}
  {built : List (Option (IndexFilter V))} (h : Built provider filters built)
include h

theorem Built.indexed_eq
    : ((List.zipWith pair filters built).map Prod.fst).reduceOption = built.reduceOption := by
  induction h with
  | nil => rfl
  | @cons filter b filters built _ _ ih => cases b <;> simp [pair, List.reduceOption] at ih ⊢ <;> exact ih

theorem Built.remaining_eq
    : ((List.zipWith pair filters built).map Prod.snd).reduceOption
        =
      reported .unsupported filters (List.zipWith (fun _ => report) filters built) := by
  induction h with
  | nil => rfl
  | @cons filter b filters built _ _ ih =>
    cases b with
    | none => simpa [pair, report, reported_cons, List.reduceOption_cons_of_some] using ih
    | some _ => simpa [pair, report, reported_cons, List.reduceOption_cons_of_none] using ih

theorem Built.represents
    : List.Forall₂ provider.Represents built.reduceOption
        (reported .exact filters (List.zipWith (fun _ => report) filters built)) := by
  induction h with
  | nil => exact .nil
  | @cons filter b filters built hfilter _ ih =>
    cases b with
    | none => simpa [report, reported_cons, List.reduceOption_cons_of_none] using ih
    | some tree =>
      simp only [List.zipWith_cons_cons, reported_cons, List.reduceOption_cons_of_some]
      exact .cons (buildIndexFilter_eq_some hfilter) ih

theorem Built.exacts
    : Built provider (reported .exact filters (List.zipWith (fun _ => report) filters built))
        (built.reduceOption.map some) := by
  induction h with
  | nil => exact .nil
  | @cons filter b filters built hfilter _ ih =>
    cases b with
    | none => simpa [report, reported_cons, List.reduceOption_cons_of_none] using ih
    | some tree =>
      simp only [List.zipWith_cons_cons, reported_cons, List.reduceOption_cons_of_some]
      exact .cons hfilter ih

theorem Built.analyze
    : provider.analyzeAndOptimizeFilters filters
        =
      .ok (rootFilters built.reduceOption,
        reported .unsupported filters (List.zipWith (fun _ => report) filters built)) := by
  rw [analyzeAndOptimizeFilters_eq, Collect.mapM_eq_ok.mpr h]
  simp only [Functor.map, Except.map, h.indexed_eq, h.remaining_eq]

theorem Built.getElem?_exact_iff
    : ∀ (i : Nat) (filter : Expr) (r : TableProviderFilterPushDown),
        filters[i]? = some filter
          →
        (List.zipWith (fun _ => report) filters built)[i]? = some r
          →
        (r = .exact ↔ ∀ leaf ∈ filter.leaves, provider.Supports leaf) := by
  induction h with
  | nil => simp
  | @cons head b filters built hhead _ ih =>
    intro i filter r hfilter hr
    cases i with
    | zero =>
      simp only [List.getElem?_cons_zero, List.zipWith_cons_cons, Option.some.injEq] at hfilter hr
      rw [← hfilter, ← hr]
      exact report_eq_exact_iff hhead
    | succ i => exact ih i filter r hfilter hr

theorem Built.negotiated
    : Negotiated provider filters (List.zipWith (fun _ => report) filters built)
        (rootFilters built.reduceOption)
        (reported .unsupported filters (List.zipWith (fun _ => report) filters built)) where
  length_eq := by simp [List.length_zipWith, h.length_eq]
  exact_iff := h.getElem?_exact_iff
  exact_or_unsupported := by
    intro r hr
    rw [← List.map_uncurry_zip_eq_zipWith] at hr
    obtain ⟨⟨filter, b⟩, -, rfl⟩ := List.mem_map.mp hr
    exact report_eq_exact_or_unsupported b
  remaining_eq := rfl
  trees := by
    exact ⟨built.reduceOption, h.represents, rootFilters_of_length_lt, rootFilters_of_le_length⟩
  exact_only := by
    have hexacts := h.exacts
    rw [hexacts.analyze]
    have hindexed : (built.reduceOption.map some).reduceOption = built.reduceOption := by
      simp [List.reduceOption]
    rw [hindexed, ← hexacts.remaining_eq]
    rw [reduceOption_pair_some]

end Bookkeeping

/--
Negotiating the pushdown and analysing for the scan fail together, and otherwise agree on every
filter.
-/
theorem pushdown_negotiated (provider : IndexedTableProvider V) (filters : List Expr)
    : match provider.supportsFiltersIndexPushdown filters,
          provider.analyzeAndOptimizeFilters filters with
      | .ok reports, .ok (indexed, remaining) =>
        provider.Negotiated filters reports indexed remaining
      | .error e, .error e' => e = e'
      | _, _ => False := by
  cases hbuilt : filters.mapM provider.buildIndexFilter with
  | error e =>
    have hpushdown : provider.supportsFiltersIndexPushdown filters = .error e := by
      rw [supportsFiltersIndexPushdown_eq, Collect.map_eq_error]
      exact hbuilt
    have hanalyze : provider.analyzeAndOptimizeFilters filters = .error e := by
      rw [analyzeAndOptimizeFilters_eq, Collect.map_eq_error]
      exact hbuilt
    rw [hpushdown, hanalyze]
  | ok built =>
    have hpushdown : provider.supportsFiltersIndexPushdown filters
        = .ok (List.zipWith (fun _ => report) filters built) := by
      rw [supportsFiltersIndexPushdown_eq, hbuilt]
      rfl
    have h : Built provider filters built := Collect.mapM_eq_ok.mp hbuilt
    rw [hpushdown, h.analyze]
    exact h.negotiated

end IndexedTableProvider

end IndexProvider
