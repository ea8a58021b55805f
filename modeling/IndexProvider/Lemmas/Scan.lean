import IndexProvider.Lemmas.Relational

/-!
This module contains the keys of whole index trees: the plan built for a tree produces the keys the
tree denotes.
-/

namespace IndexProvider

open NamedTuple Enumeration

variable {V : Type}

namespace IndexFilter

theorem noEmptyNodes_iff {filters : List (IndexFilter V)}
    : NoEmptyNodes filters ↔ ∀ f ∈ filters, f.NoEmptyNode := by
  induction filters with
  | nil => simp [NoEmptyNodes]
  | cons f fs ih => simp [NoEmptyNodes, ih]

theorem forall_allLeaves {filters : List (IndexFilter V)} {P : Index V × Expr → Prop}
    : (∀ leaf ∈ allLeaves filters, P leaf) ↔ ∀ f ∈ filters, ∀ leaf ∈ f.leaves, P leaf := by
  induction filters with
  | nil => simp [allLeaves]
  | cons f fs ih => rw [allLeaves, List.forall_mem_append, ih, List.forall_mem_cons]

theorem allLeaves_head? {first : IndexFilter V} {rest : List (IndexFilter V)}
    {leaf : Index V × Expr} (h : first.leaves.head? = some leaf)
    : (allLeaves (first :: rest)).head? = some leaf := by
  rw [allLeaves, List.head?_append, h, Option.some_or]

end IndexFilter

structure Index.Scans (cols : List (String × DataType)) (D : Set (Row V)) (index : Index V)
    (filter : Expr) (limit : Option Nat) : Prop where
  columns : index.indexSchema.columns.Perm cols
  scan : ∃ batches, index.scan [filter] limit = .ok (.complete batches) ∧
    (∀ row ∈ batches.flatten, row.length = index.indexSchema.names.length) ∧
      Enumerates D limit
        (batches.flatten.map (select (cols.map Prod.fst) index.indexSchema.names))

section

variable [DecidableEq V] {df : DataFusion} {cols : List (String × DataType)} {limit : Option Nat}

theorem IndexScanExec.tryNew_emits {index : Index V} {filter : Expr} {batches : List (Batch V)}
    {plan : ExecutionPlan V} (hscan : index.scan [filter] limit = .ok (.complete batches))
    (h : IndexScanExec.tryNew df index [filter] limit index.indexSchema = .ok plan)
    (rows : List (Row V))
    : plan.Emits rows ↔ rows = batches.flatten := by
  cases h
  constructor
  . intro hrows
    obtain ⟨batches', hbatches', rfl⟩ := hrows
    rw [hscan] at hbatches'
    cases hbatches'
    rfl
  . intro hrows
    exact ⟨batches, hscan, hrows⟩

theorem IndexScanExec.tryNew_produces {D : Set (Row V)} {index : Index V} {filter : Expr}
    {plan : ExecutionPlan V} (hindex : index.Scans cols D filter limit)
    (h : IndexScanExec.tryNew df index [filter] limit index.indexSchema = .ok plan)
    : plan.Produces cols D limit := by
  obtain ⟨batches, hbatches, hwidth, hkeys⟩ := hindex.scan
  have hemits := IndexScanExec.tryNew_emits hbatches h
  cases h
  constructor
  . exact hindex.columns
  . exact ⟨_, (hemits _).mpr rfl⟩
  . intro rows hrows
    rw [(hemits rows).mp hrows]
    exact hwidth
  . intro rows hrows
    rw [(hemits rows).mp hrows]
    exact hkeys

theorem RecordFetchExec.buildScanExec_produces (hdf : df.Schemas)
    (hnodup : (cols.map Prod.fst).Nodup) (hcols : cols ≠ []) {unionMode : UnionMode}
    {keys : Index V → Expr → Set (Row V)} {f : IndexFilter V} (hf : f.NoEmptyNode)
    (hleaves : ∀ leaf ∈ f.leaves, ∀ limit', limit' = none ∨ limit' = limit →
      leaf.1.Scans cols (keys leaf.1 leaf.2) leaf.2 limit')
    {plan : ExecutionPlan V} (h : buildScanExec df unionMode f limit = .ok plan)
    : plan.Produces cols (f.denote keys) limit := by
  induction f generalizing limit plan with
  | single index filter =>
    rw [buildScanExec_single] at h
    exact IndexScanExec.tryNew_produces
      (hleaves (index, filter) (by simp [IndexFilter.leaves]) limit (.inr rfl)) h
  | and filters ih =>
    rw [buildScanExec_and_eq_ok] at h
    obtain ⟨plans, hplans, h⟩ := h
    have hchildren : List.Forall₂ (fun D plan => plan.Produces cols D none)
        (filters.map (IndexFilter.denote keys)) plans := by
      rw [List.forall₂_map_left_iff]
      apply Collect.forall₂_imp_of_mem hplans
      intro child hchild plan hplan
      apply ih child hchild (IndexFilter.noEmptyNodes_iff.mp hf.2 child hchild) _ hplan
      intro leaf hleaf limit' hlimit
      -- The limit of an `And` is not passed on.
      exact IndexFilter.forall_allLeaves.mp hleaves child hchild leaf hleaf limit'
        (.inl (or_self_iff.mp hlimit))
    have hdenote : IndexFilter.denote keys (.and filters)
        = {x | ∀ D ∈ filters.map (IndexFilter.denote keys), x ∈ D} := by
      ext x
      simp [IndexFilter.denote, IndexFilter.mem_denoteAll]
    rw [hdenote]
    exact buildAnd_produces hdf hnodup hcols hchildren h
  | or filters ih =>
    rw [buildScanExec_or_eq_ok] at h
    obtain ⟨plans, hplans, h⟩ := h
    have hchildren : List.Forall₂ (fun D plan => plan.Produces cols D limit)
        (filters.map (IndexFilter.denote keys)) plans := by
      rw [List.forall₂_map_left_iff]
      apply Collect.forall₂_imp_of_mem hplans
      intro child hchild plan hplan
      exact ih child hchild (IndexFilter.noEmptyNodes_iff.mp hf.2 child hchild)
        (IndexFilter.forall_allLeaves.mp hleaves child hchild) hplan
    have hdenote : IndexFilter.denote keys (.or filters)
        = {x | ∃ D ∈ filters.map (IndexFilter.denote keys), x ∈ D} := by
      ext x
      simp [IndexFilter.denote, IndexFilter.mem_denoteAny]
    have hne := Collect.forall₂_ne_nil hplans hf.1
    rw [hdenote]
    exact buildOr_produces hdf hnodup hcols hne hchildren h

theorem RecordFetchExec.buildScanExec_emitsPart_le {unionMode : UnionMode} {f : IndexFilter V} {n : Nat}
    (hf : ∀ index filter, f ≠ .single index filter) {plan : ExecutionPlan V}
    (h : buildScanExec df unionMode f (some n) = .ok plan) {rows : List (Row V)}
    (hrows : plan.EmitsPart rows)
    : rows.length ≤ n := by
  have hlimit : ∀ input : ExecutionPlan V, (withLimit df input (some n)).EmitsPart rows →
      rows.length ≤ n := by
    intro input hrows
    obtain ⟨rows, -, rfl⟩ := hrows
    exact List.length_take_le n rows
  cases f with
  | single index filter => exact absurd rfl (hf index filter)
  | and filters =>
    rw [buildScanExec_and_eq_ok] at h
    obtain ⟨plans, -, h⟩ := h
    cases plans with
    | nil => cases h
    | cons left plans =>
      rw [buildAnd_eq_ok] at h
      obtain ⟨joined, -, rfl⟩ := h
      exact hlimit _ hrows
  | or filters =>
    rw [buildScanExec_or_eq_ok] at h
    obtain ⟨plans, -, h⟩ := h
    cases plans with
    | nil =>
      cases h
      rw [show rows = [] from hrows]
      exact Nat.zero_le n
    | cons first rest =>
      rw [buildOr_eq_ok] at h
      obtain ⟨_, -, _, -, _, -, rfl⟩ := h
      exact hlimit _ hrows

end

end IndexProvider
