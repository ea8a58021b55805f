import IndexProvider.Lemmas.AddedIndexes

/-!
This module contains what becomes of the filter analysis when filters are split at `AND` into filters of
their own.
-/

namespace IndexProvider

open Collect

variable {V : Type}

def Expr.splitConjunction : Expr → List Expr
  | .binaryExpr left .and right => splitConjunction left ++ splitConjunction right
  | expr => [expr]

theorem IndexFilter.allLeaves_append (trees trees' : List (IndexFilter V))
    : allLeaves (trees ++ trees') = allLeaves trees ++ allLeaves trees' := by
  induction trees with
  | nil => rfl
  | cons tree trees ih => rw [List.cons_append, allLeaves, allLeaves, ih, List.append_assoc]

namespace IndexedTableProvider

variable {expr : Expr} {exprs filters : List Expr} {built : Option (IndexFilter V)}
  {builts : List (Option (IndexFilter V))}

-- What is left over of expressions for which no tree was built.
def leftOver (exprs : List Expr) (builts : List (Option (IndexFilter V))) : List Expr :=
  reported .unsupported exprs (List.zipWith (fun _ => report) exprs builts)

/--
What is built for the parts of an expression. If there is a tree for the expression, there is one for each
part, and they have the same leaves.
-/
structure SplitOf (parts : List Expr) (built : Option (IndexFilter V))
    (builts : List (Option (IndexFilter V))) : Prop where
  length_eq : parts.length = builts.length
  trees : ∀ tree, built = some tree →
    ∃ trees, builts = trees.map some ∧ IndexFilter.allLeaves trees = tree.leaves

theorem buildIndexFilter_and (provider : IndexedTableProvider V) (left right : Expr)
    : provider.buildIndexFilter (.binaryExpr left .and right)
        =
      (provider.buildIndexFilter left >>= fun l => provider.buildIndexFilter right >>= fun r =>
        pure (match l, r with
          | some l, some r => some (.and [l, r])
          | _, _ => none)) := by
  rw [buildIndexFilter]
  simp only [combine?]
  cases provider.buildIndexFilter left with
  | error e => rfl
  | ok l =>
    cases provider.buildIndexFilter right with
    | error e => rfl
    | ok r => cases l <;> cases r <;> rfl

theorem splitOf_singleton (expr : Expr) (built : Option (IndexFilter V))
    : SplitOf [expr] built [built] := by
  refine ⟨rfl, ?_⟩
  rintro tree rfl
  exact ⟨[tree], rfl, List.append_nil _⟩

theorem SplitOf.and {lparts rparts : List Expr} {l r : Option (IndexFilter V)}
    {ls rs : List (Option (IndexFilter V))} (hl : SplitOf lparts l ls) (hr : SplitOf rparts r rs)
    : SplitOf (lparts ++ rparts)
        (match l, r with
          | some l, some r => some (.and [l, r])
          | _, _ => none)
        (ls ++ rs) := by
  refine ⟨?_, ?_⟩
  . rw [List.length_append, List.length_append, hl.length_eq, hr.length_eq]
  . intro tree htree
    cases l with
    | none => cases htree
    | some l =>
      cases r with
      | none => cases htree
      | some r =>
        cases htree
        obtain ⟨ltrees, rfl, hlleaves⟩ := hl.trees l rfl
        obtain ⟨rtrees, rfl, hrleaves⟩ := hr.trees r rfl
        refine ⟨ltrees ++ rtrees, List.map_append.symm, ?_⟩
        rw [IndexFilter.allLeaves_append, hlleaves, hrleaves]
        simp [IndexFilter.leaves, IndexFilter.allLeaves]

theorem buildIndexFilter_unsplit (provider : IndexedTableProvider V)
    (h : expr.splitConjunction = [expr])
    : Agrees (SplitOf expr.splitConjunction) (provider.buildIndexFilter expr)
        (expr.splitConjunction.mapM provider.buildIndexFilter) := by
  rw [h, List.mapM_cons]
  cases provider.buildIndexFilter expr with
  | error e => rfl
  | ok built => exact splitOf_singleton expr built

/--
The analysis of an expression fails with the first of its parts that cannot be analysed.
-/
theorem buildIndexFilter_split (provider : IndexedTableProvider V) (expr : Expr)
    : Agrees (SplitOf expr.splitConjunction) (provider.buildIndexFilter expr)
        (expr.splitConjunction.mapM provider.buildIndexFilter) := by
  induction expr using Expr.induction with
  | column col => exact buildIndexFilter_unsplit provider rfl
  | literal value => exact buildIndexFilter_unsplit provider rfl
  | node kind args _ => exact buildIndexFilter_unsplit provider rfl
  | binaryExpr left op right ihl ihr =>
    by_cases hop : op = .and
    . subst hop
      rw [Expr.splitConjunction, List.mapM_append, buildIndexFilter_and]
      apply ihl.bind
      intro l ls hl
      apply ihr.bind
      intro r rs hr
      exact hl.and hr
    . apply buildIndexFilter_unsplit provider
      cases op <;> first | exact absurd rfl hop | rfl

theorem leftOver_append (h : exprs.length = builts.length) (filters : List Expr)
    (builts' : List (Option (IndexFilter V)))
    : leftOver (exprs ++ filters) (builts ++ builts') = leftOver exprs builts ++ leftOver filters builts' := by
  simp [leftOver, reported, List.zipWith_append h, List.zip_append, h]

theorem leftOver_sublist (exprs : List Expr) (builts : List (Option (IndexFilter V)))
    : (leftOver exprs builts).Sublist exprs := by
  induction exprs generalizing builts with
  | nil => exact List.Sublist.refl _
  | cons expr exprs ih =>
    cases builts with
    | nil => exact List.nil_sublist _
    | cons built builts =>
      unfold leftOver at ih ⊢
      rw [List.zipWith_cons_cons, reported_cons]
      split
      . exact (ih builts).cons_cons _
      . exact (ih builts).cons _

theorem leftOver_trees (exprs : List Expr) (trees : List (IndexFilter V))
    : leftOver exprs (trees.map some) = [] := by
  induction exprs generalizing trees with
  | nil => rfl
  | cons expr exprs ih =>
    cases trees with
    | nil => rfl
    | cons tree trees => exact ih trees

/--
What is built for filters and for their parts: nothing that was answered is lost.
-/
structure SplitAll (filters : List Expr) (builts builts' : List (Option (IndexFilter V))) : Prop where
  leaves : (IndexFilter.allLeaves builts.reduceOption).Sublist
    (IndexFilter.allLeaves builts'.reduceOption)
  left_over : (leftOver (filters.flatMap Expr.splitConjunction) builts').Sublist
    ((leftOver filters builts).flatMap Expr.splitConjunction)

theorem SplitOf.cons (h : SplitOf expr.splitConjunction built builts)
    {rest rest' : List (Option (IndexFilter V))} (hrest : SplitAll filters rest rest')
    : SplitAll (expr :: filters) (built :: rest) (builts ++ rest') := by
  have hleft : leftOver ((expr :: filters).flatMap Expr.splitConjunction) (builts ++ rest')
      = leftOver expr.splitConjunction builts
        ++ leftOver (filters.flatMap Expr.splitConjunction) rest' := by
    rw [List.flatMap_cons, leftOver_append h.length_eq]
  cases built with
  | none =>
    have hcons : leftOver (expr :: filters) (none :: rest) = expr :: leftOver filters rest := rfl
    refine ⟨?_, ?_⟩
    . rw [List.reduceOption_cons_of_none, List.reduceOption_append, IndexFilter.allLeaves_append]
      exact hrest.leaves.trans (List.sublist_append_right _ _)
    . rw [hleft, hcons, List.flatMap_cons]
      exact (leftOver_sublist _ _).append hrest.left_over
  | some tree =>
    have hcons : leftOver (expr :: filters) (some tree :: rest) = leftOver filters rest := rfl
    obtain ⟨trees, rfl, htrees⟩ := h.trees tree rfl
    have hreduce : (trees.map some).reduceOption = trees := by simp [List.reduceOption]
    refine ⟨?_, ?_⟩
    . rw [List.reduceOption_cons_of_some, List.reduceOption_append, IndexFilter.allLeaves_append,
        IndexFilter.allLeaves, hreduce, htrees]
      exact (List.Sublist.refl _).append hrest.leaves
    . rw [hleft, hcons, leftOver_trees, List.nil_append]
      exact hrest.left_over

theorem mapM_buildIndexFilter_split (provider : IndexedTableProvider V) (filters : List Expr)
    : Agrees (SplitAll filters) (filters.mapM provider.buildIndexFilter)
        ((filters.flatMap Expr.splitConjunction).mapM provider.buildIndexFilter) := by
  induction filters with
  | nil => exact ⟨List.Sublist.refl _, List.Sublist.refl _⟩
  | cons filter filters ih =>
    rw [List.mapM_cons, List.flatMap_cons, List.mapM_append]
    apply (buildIndexFilter_split provider filter).bind
    intro built builts hbuilt
    apply ih.bind
    intro rest rest' hrest
    exact hbuilt.cons hrest

/--
Filters may be split into conjuncts before they are pushed down: the analysis fails as before, or hands out
every leaf that it handed out before, and leaves over no more than the conjuncts of what it left over.
-/
theorem split_filters_extend_analysis (provider : IndexedTableProvider V) (filters : List Expr)
    : Agrees
        (fun analysis split : IndexFilters V × List Expr =>
          (IndexFilter.allLeaves analysis.1).Sublist (IndexFilter.allLeaves split.1) ∧
            split.2.Sublist (analysis.2.flatMap Expr.splitConjunction))
        (provider.analyzeAndOptimizeFilters filters)
        (provider.analyzeAndOptimizeFilters (filters.flatMap Expr.splitConjunction)) := by
  have hsplit := mapM_buildIndexFilter_split provider filters
  cases hbuilts : filters.mapM provider.buildIndexFilter with
  | error e =>
    cases hbuilts' : (filters.flatMap Expr.splitConjunction).mapM provider.buildIndexFilter with
    | error e' =>
      rw [hbuilts, hbuilts'] at hsplit
      rw [analyzeAndOptimizeFilters_eq, analyzeAndOptimizeFilters_eq, hbuilts, hbuilts']
      exact hsplit
    | ok builts' =>
      rw [hbuilts, hbuilts'] at hsplit
      exact hsplit.elim
  | ok builts =>
    cases hbuilts' : (filters.flatMap Expr.splitConjunction).mapM provider.buildIndexFilter with
    | error e' =>
      rw [hbuilts, hbuilts'] at hsplit
      exact hsplit.elim
    | ok builts' =>
      rw [hbuilts, hbuilts'] at hsplit
      have hbuilt : Built provider filters builts := Collect.mapM_eq_ok.mp hbuilts
      have hbuilt' : Built provider _ builts' := Collect.mapM_eq_ok.mp hbuilts'
      rw [hbuilt.analyze, hbuilt'.analyze]
      refine ⟨?_, hsplit.left_over⟩
      rw [IndexFilter.allLeaves_rootFilters, IndexFilter.allLeaves_rootFilters]
      exact hsplit.leaves

end IndexedTableProvider

end IndexProvider
