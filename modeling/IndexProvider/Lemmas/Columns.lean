import IndexProvider.Lemmas.Provider
import IndexProvider.Semantics.Expr

/-!
This module contains what an index gets to see of the table: the predicate of a leaf depends on the
column of its index only.
-/

namespace IndexProvider

variable {V W : Type}

namespace Expr

theorem mem_allColumns {col : Column} {args : List Expr}
    : col ∈ allColumns args ↔ ∃ arg ∈ args, col ∈ arg.columns := by
  induction args with
  | nil => simp [allColumns]
  | cons arg args ih => simp [allColumns, ih]

theorem allDetermined_iff {args : List Expr}
    : AllDetermined args ↔ ∀ arg ∈ args, arg.Determined := by
  induction args with
  | nil => simp [AllDetermined]
  | cons arg args ih => simp [AllDetermined, ih]

theorem evalAll_eq_map (sem : ExprSemantics W) (row : TableRow W) (args : List Expr)
    : evalAll sem row args = args.map (eval sem row) := by
  induction args with
  | nil => rfl
  | cons arg args ih => rw [evalAll, ih, List.map_cons]

theorem eval_congr {sem : ExprSemantics W} {row row' : TableRow W} {expr : Expr}
    (hexpr : expr.Determined) (h : ∀ col ∈ expr.columns, row col.name = row' col.name)
    : expr.eval sem row = expr.eval sem row' := by
  induction expr using Expr.induction with
  | column col => exact h col (by simp [columns])
  | literal value => rfl
  | binaryExpr left op right ihl ihr =>
    rw [columns, List.forall_mem_append] at h
    rw [eval, eval, ihl hexpr.1 h.1, ihr hexpr.2 h.2]
  | node kind args ih =>
    have hargs : args.map (eval sem row) = args.map (eval sem row') := by
      apply List.map_congr_left
      intro arg harg
      apply ih arg harg (allDetermined_iff.mp hexpr.2 arg harg)
      intro col hcol
      exact h col (mem_allColumns.mpr ⟨arg, harg, hcol⟩)
    rw [eval, eval, evalAll_eq_map, evalAll_eq_map, hargs, hexpr.1]
    simp

theorem determined_of_mem_leaves {expr leaf : Expr} (hexpr : expr.Determined)
    (h : leaf ∈ expr.leaves)
    : leaf.Determined := by
  induction expr using Expr.induction with
  | column col =>
    rw [List.mem_singleton.mp h]
    exact hexpr
  | literal value =>
    rw [List.mem_singleton.mp h]
    exact hexpr
  | binaryExpr left op right ihl ihr =>
    unfold leaves at h
    split at h
    . cases List.mem_append.mp h with
      | inl h => exact ihl hexpr.1 h
      | inr h => exact ihr hexpr.2 h
    . rw [List.mem_singleton.mp h]
      exact hexpr
  | node kind args _ =>
    rw [List.mem_singleton.mp h]
    exact hexpr

theorem truth_of_mem_leaves {R : Type} {truthOf : Expr → R → Option Bool} {row : R} {expr leaf : Expr}
    (h : leaf ∈ expr.leaves)
    : leaf.truth truthOf row = truthOf leaf row := by
  induction expr using Expr.induction with
  | column col =>
    rw [List.mem_singleton.mp h]
    rfl
  | literal value =>
    rw [List.mem_singleton.mp h]
    rfl
  | binaryExpr left op right ihl ihr =>
    unfold leaves at h
    split at h
    . cases List.mem_append.mp h with
      | inl h => exact ihl h
      | inr h => exact ihr h
    . next hop =>
      rw [List.mem_singleton.mp h]
      cases op <;> simp [truth] at hop ⊢
  | node kind args _ =>
    rw [List.mem_singleton.mp h]
    rfl

theorem truth_congr {R : Type} {truthOf : Expr → R → Option Bool} {row row' : R} {expr : Expr}
    (h : ∀ leaf ∈ expr.leaves, truthOf leaf row = truthOf leaf row')
    : expr.truth truthOf row = expr.truth truthOf row' := by
  induction expr using Expr.induction with
  | column col => exact h _ (List.mem_singleton_self _)
  | literal value => exact h _ (List.mem_singleton_self _)
  | binaryExpr left op right ihl ihr =>
    unfold leaves at h
    split at h
    . next hop =>
      rw [List.forall_mem_append] at h
      rcases hop with rfl | rfl
      . rw [truth, truth, ihl h.1, ihr h.2]
      . rw [truth, truth, ihl h.1, ihr h.2]
    . have hleaf := h _ (List.mem_singleton_self _)
      cases op <;> simp [truth] at * <;> assumption
  | node kind args _ => exact h _ (List.mem_singleton_self _)

end Expr

/--
Every column an expression refers to is collected.
-/
def ExprToColumns.CollectsAll (exprToColumns : ExprToColumns) : Prop :=
  ∀ expr cols, exprToColumns expr = .ok cols → ∀ col ∈ expr.columns, col ∈ cols

def IndexedTableProvider.UsesDefault (provider : IndexedTableProvider V)
    (exprToColumns : ExprToColumns) : Prop :=
  ∀ indexes, provider.indexes = .ok indexes → ∀ index ∈ indexes,
    index.supportsPredicate = Index.defaultSupportsPredicate exprToColumns index.columnName

section

variable {exprToColumns : ExprToColumns} (hcollects : exprToColumns.CollectsAll)
  {provider : IndexedTableProvider V} {columnName : String} {predicate : Expr}

theorem Index.defaultSupportsPredicate_eq_true
    : defaultSupportsPredicate exprToColumns columnName predicate = .ok true
        ↔
      ∃ cols, exprToColumns predicate = .ok cols ∧ cols ≠ [] ∧ ∀ col ∈ cols, col.name = columnName := by
  simp [defaultSupportsPredicate, Collect.bind_eq_ok, pure, Except.pure]

include hcollects in
theorem Index.columns_of_supports
    (h : defaultSupportsPredicate exprToColumns columnName predicate = .ok true)
    : ∀ col ∈ predicate.columns, col.name = columnName := by
  obtain ⟨cols, hcols, -, hnames⟩ := defaultSupportsPredicate_eq_true.mp h
  intro col hcol
  exact hnames col (hcollects predicate cols hcols col hcol)

end

/--
The predicate of a leaf has the same truth value on rows that agree on the column of its index, so the
whole expression has the same truth value on rows that agree on the columns of all indexes of the tree.
-/
theorem IndexedTableProvider.leaf_depends_on_column {exprToColumns : ExprToColumns}
    (hcollects : exprToColumns.CollectsAll) {provider : IndexedTableProvider V}
    (hdefault : provider.UsesDefault exprToColumns) {expr : Expr} (hexpr : expr.Determined)
    {tree : IndexFilter V} (h : provider.buildIndexFilter expr = .ok (some tree))
    (sem : ExprSemantics W)
    : (∀ leaf ∈ tree.leaves, ∀ row row' : TableRow W,
          row leaf.1.columnName = row' leaf.1.columnName →
            leaf.2.truthOn sem row = leaf.2.truthOn sem row') ∧
        ∀ row row' : TableRow W,
          (∀ leaf ∈ tree.leaves, row leaf.1.columnName = row' leaf.1.columnName) →
            expr.truthOn sem row = expr.truthOn sem row' := by
  have hrepresents := buildIndexFilter_eq_some h
  have hleaf : ∀ leaf ∈ tree.leaves, leaf.2 ∈ expr.leaves := by
    intro leaf hleaf
    rw [← hrepresents.leaves_eq]
    exact List.mem_map_of_mem hleaf
  have heval : ∀ leaf ∈ tree.leaves, ∀ row row' : TableRow W,
      row leaf.1.columnName = row' leaf.1.columnName →
        leaf.2.eval sem row = leaf.2.eval sem row' := by
    intro leaf hmem row row' hrow
    obtain ⟨before, after, hindexes, -, hsupports⟩ := hrepresents.picks_first leaf hmem
    rw [hdefault _ hindexes leaf.1 (by simp)] at hsupports
    apply Expr.eval_congr (Expr.determined_of_mem_leaves hexpr (hleaf leaf hmem))
    intro col hcol
    rw [Index.columns_of_supports hcollects hsupports col hcol]
    exact hrow
  constructor
  . intro leaf hmem row row' hrow
    unfold Expr.truthOn
    rw [Expr.truth_of_mem_leaves (hleaf leaf hmem), Expr.truth_of_mem_leaves (hleaf leaf hmem),
      heval leaf hmem row row' hrow]
  . intro row row' hrow
    apply Expr.truth_congr
    intro filter hfilter
    rw [← hrepresents.leaves_eq] at hfilter
    obtain ⟨leaf, hmem, rfl⟩ := List.mem_map.mp hfilter
    rw [heval leaf hmem row row' (hrow leaf hmem)]

def truthSemantics : ExprSemantics (Option Bool) where
  literal _ := none
  binary
    | .and, a, b => Kleene.and a b
    | .or, a, b => Kleene.or a b
    | _, _, _ => none
  node
    | .not, [a] => a.map (!·)
    | .isNull, [a] => some a.isNone
    | _, _ => none
  contextual _ _ row := row "remote"
  truth := id

def collectColumns : ExprToColumns := fun expr => .ok expr.columns

theorem collectColumns_collectsAll : collectColumns.CollectsAll := by
  intro expr cols h col hcol
  cases h
  exact hcol

def columnIndex (columnName : String) : Index Nat where
  name := columnName
  indexSchema := .empty
  tableName := "t"
  columnName
  supportsPredicate := Index.defaultSupportsPredicate collectColumns columnName
  isOrdered := false
  scan _ _ := .ok (.complete [])

def activeOrNotRemote : Expr :=
  .binaryExpr (.node .isNull [.column ⟨none, "active"⟩]) .or
    (.node .not [.column ⟨some "t", "remote"⟩])

def staffProvider (columnNames : List String) : IndexedTableProvider Nat where
  indexes := .ok (columnNames.map columnIndex)

theorem staffProvider_usesDefault (columnNames : List String)
    : (staffProvider columnNames).UsesDefault collectColumns := by
  intro indexes h index hindex
  cases h
  obtain ⟨columnName, -, rfl⟩ := List.mem_map.mp hindex
  rfl

def staffRow (active remote other : Option Bool) : TableRow (Option Bool) := fun columnName =>
  if columnName = "active" then
    active
  else if columnName = "remote" then
    remote
  else
    other

-- The rows of each equation agree on the columns of the indexes in question and on no other.
theorem activeOrNotRemote_depends_on_columns
    : ∃ tree, (staffProvider ["active", "remote"]).buildIndexFilter activeOrNotRemote
          = .ok (some tree) ∧
        (∀ leaf ∈ tree.leaves, leaf.1.columnName = "active" →
          leaf.2.truthOn truthSemantics (staffRow (some false) none none)
            = leaf.2.truthOn truthSemantics (staffRow (some false) (some true) (some true))) ∧
          (∀ leaf ∈ tree.leaves, leaf.1.columnName = "remote" →
            leaf.2.truthOn truthSemantics (staffRow none (some true) none)
              = leaf.2.truthOn truthSemantics (staffRow (some false) (some true) (some true))) ∧
            activeOrNotRemote.truthOn truthSemantics (staffRow (some false) none (some false))
              = activeOrNotRemote.truthOn truthSemantics (staffRow (some false) none (some true)) := by
  have hdetermined : activeOrNotRemote.Determined := ⟨⟨rfl, trivial, trivial⟩, rfl, trivial, trivial⟩
  have htree : ∃ tree, (staffProvider ["active", "remote"]).buildIndexFilter activeOrNotRemote
        = .ok (some tree) ∧
      ∀ leaf ∈ tree.leaves, leaf.1.columnName = "active" ∨ leaf.1.columnName = "remote" :=
    ⟨_, rfl, by decide⟩
  obtain ⟨tree, htree, hcolumns⟩ := htree
  obtain ⟨hleaf, hexpr⟩ := IndexedTableProvider.leaf_depends_on_column collectColumns_collectsAll
    (staffProvider_usesDefault _) hdetermined htree truthSemantics
  refine ⟨tree, htree, ?_, ?_, ?_⟩
  . intro leaf hmem hcolumn
    apply hleaf leaf hmem
    rw [hcolumn]
    rfl
  . intro leaf hmem hcolumn
    apply hleaf leaf hmem
    rw [hcolumn]
    rfl
  . apply hexpr
    intro leaf hmem
    rcases hcolumns leaf hmem with hcolumn | hcolumn <;> rw [hcolumn] <;> rfl

end IndexProvider
