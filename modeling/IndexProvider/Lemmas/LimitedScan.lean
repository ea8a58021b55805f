import IndexProvider.Lemmas.FilteredScan

/-!
This module contains table scans with a limit: pushing the limit down to the indexes loses no rows
and invents none.
-/

namespace IndexProvider

open Enumeration

variable {V R : Type} [DecidableEq V] {df : DataFusion} {merge : Metadata → Metadata → Metadata}
  {createPhysicalExpr : CreatePhysicalExpr R} {remaining : List Expr} {schema : Schema} {mapper : RecordFetcher V R} {table : Table V R}
  {leaf : Expr → R → Option Bool} {f : IndexFilter V} {n : Nat}

def Table.answerRows (table : Table V R) (leaf : Expr → R → Option Bool) (f : IndexFilter V)
    (remaining : List Expr) : List R :=
  table.rows.filter fun row =>
    f.selects leaf row && remaining.all fun filter => filter.truth leaf row = some true

omit [DecidableEq V] in
theorem Table.mem_answerRows {row : R}
    : row ∈ table.answerRows leaf f remaining ↔ row ∈ table.answers leaf f remaining := by
  simp only [answerRows, answers, List.mem_filter, Bool.and_eq_true, List.all_eq_true,
    decide_eq_true_eq, Set.mem_ofPred_eq]

omit [DecidableEq V] in
theorem Table.answerRows_nodup : (table.answerRows leaf f remaining).Nodup :=
  table.keys_nodup.of_map.filter _

/--
A scan with a limit returns answers only, each at most once, and as many of them as the limit asks
for. It returns no more than that either, unless a single index answers the query by itself. Where
the indexes share the key schema of the table, the scan can be planned.
-/
theorem IndexedTableProvider.limited_scan_complete (provider : IndexedTableProvider V)
    (hdf : df.Schemas) (hheaders : df.Headers) (horderings : df.KeyOrderings)
    (hmerge : df.JoinMetadata merge)
    (hfetch : ∀ leaf' ∈ f.leaves.head?, table.FetchedBy leaf'.1.indexSchema.columns mapper)
    (hplans : createPhysicalExpr.Plans leaf schema remaining) (hf : f.NoEmptyNode)
    (hexact : ∀ leaf' ∈ f.leaves, table.Exact leaf leaf'.1 leaf'.2)
    (hlimited : ∀ leaf' ∈ f.leaves, table.Limited leaf n leaf'.1 leaf'.2)
    : ((∀ leaf' ∈ f.leaves, leaf'.1.indexSchema = table.keySchema) →
          ∃ plan, provider.createExecutionPlanWithIndexes df createPhysicalExpr [f] remaining
            (some n) schema mapper = .ok plan) ∧
        ∀ plan, provider.createExecutionPlanWithIndexes df createPhysicalExpr [f] remaining (some n)
            schema mapper = .ok plan →
          (∃ rows, plan.Returns rows) ∧
            ∀ rows, plan.Returns rows →
              rows.Nodup ∧ rows ⊆ table.answerRows leaf f remaining ∧
                min n (table.answerRows leaf f remaining).length ≤ rows.length ∧
                  ((remaining ≠ [] ∨ ∀ index filter, f ≠ .single index filter) →
                    rows.length = min n (table.answerRows leaf f remaining).length) := by
  constructor
  . intro hschema
    obtain ⟨input, hinput⟩ := IndexFilter.accepted_of_leaves hdf hheaders horderings hmerge
      table.fields_ne_nil table.names_nodup hf hschema provider.unionMode
      (if remaining = [] then some n else none)
    exact ⟨_, (createExecutionPlanWithIndexes_eq_ok hplans).mpr ⟨input, hinput, rfl⟩⟩
  . intro plan hplan
    have hanswers : ∀ leaf' ∈ f.leaves, table.Answers leaf (some n) leaf'.1 leaf'.2 := by
      intro leaf' hleaf'
      refine ⟨hexact leaf' hleaf', ?_⟩
      intro n' hn
      cases hn
      exact hlimited leaf' hleaf'
    obtain ⟨hreturns, hrun⟩ :=
      createExecutionPlanWithIndexes_returns hdf hfetch hplans hf hanswers hplan
    refine ⟨hreturns, ?_⟩
    intro rows hrows
    obtain ⟨henumerates, hlength⟩ := hrun rows hrows
    have hsubset : rows ⊆ table.answerRows leaf f remaining := by
      intro row hrow
      exact Table.mem_answerRows.mpr (henumerates.sound row hrow)
    have hmin := henumerates.min_le_length Table.answerRows_nodup fun row hrow =>
      Table.mem_answerRows.mp hrow
    refine ⟨henumerates.nodup, hsubset, hmin, ?_⟩
    intro hroot
    have hle := hlength hroot n rfl
    have hle' := (List.subperm_of_subset henumerates.nodup hsubset).length_le
    omega

def activeOrRemote : IndexFilter Nat :=
  .or [
    .single (employees.index employeePredicate fun _ => true) (.column ⟨none, "active"⟩),
    .single (employees.index employeePredicate fun _ => true) (.column ⟨none, "remote"⟩)
  ]

theorem activeOrRemote_limited
    : ∃ plan, employeeProvider.createExecutionPlanWithIndexes DataFusion.reference
          (.ofTruth employeePredicate) [activeOrRemote] [] (some 2) idSchema
          (employees.fetcher idSchema) = .ok plan ∧
        (∃ rows, plan.Returns rows) ∧
          ∀ rows, plan.Returns rows →
            rows.Nodup ∧ rows.length = 2 ∧
              rows ⊆ [(1, some true, none), (2, none, some true), (3, some false, some true)] := by
  have hleaves : ∀ leaf ∈ activeOrRemote.leaves, ∃ supports,
      leaf.1 = employees.index employeePredicate supports := by
    intro leaf hleaf
    simp only [activeOrRemote, IndexFilter.leaves, IndexFilter.allLeaves, List.singleton_append,
      List.append_nil, List.mem_cons, List.not_mem_nil, or_false] at hleaf
    rcases hleaf with rfl | rfl
    . exact ⟨_, rfl⟩
    . exact ⟨_, rfl⟩
  have hschema : ∀ leaf ∈ activeOrRemote.leaves, leaf.1.indexSchema = employees.keySchema := by
    intro leaf hleaf
    obtain ⟨_, h⟩ := hleaves leaf hleaf
    rw [h]
    rfl
  have hexact : ∀ leaf ∈ activeOrRemote.leaves,
      employees.Exact employeePredicate leaf.1 leaf.2 := by
    intro leaf hleaf
    obtain ⟨_, h⟩ := hleaves leaf hleaf
    rw [h]
    exact Table.index_exact
  have hlimited : ∀ leaf ∈ activeOrRemote.leaves,
      employees.Limited employeePredicate 2 leaf.1 leaf.2 := by
    intro leaf hleaf
    obtain ⟨_, h⟩ := hleaves leaf hleaf
    rw [h]
    exact Table.index_limited 2
  have hfetch : ∀ leaf ∈ activeOrRemote.leaves.head?,
      employees.FetchedBy leaf.1.indexSchema.columns (employees.fetcher idSchema) := by
    intro leaf hleaf
    cases hleaf
    exact (Table.fetcher_fetches idSchema).fetchedBy
  have hf : activeOrRemote.NoEmptyNode := by
    simp [activeOrRemote, IndexFilter.NoEmptyNode, IndexFilter.NoEmptyNodes]
  obtain ⟨hplan, hrun⟩ := employeeProvider.limited_scan_complete DataFusion.reference_schemas
    DataFusion.reference_headers DataFusion.reference_keyOrderings
    DataFusion.reference_joinMetadata hfetch
    (CreatePhysicalExpr.ofTruth_plans employeePredicate idSchema []) hf hexact hlimited
  obtain ⟨plan, hplan⟩ := hplan hschema
  obtain ⟨hreturns, hrun⟩ := hrun plan hplan
  refine ⟨plan, hplan, hreturns, ?_⟩
  intro rows hrows
  obtain ⟨hnodup, hsubset, -, hlength⟩ := hrun rows hrows
  exact ⟨hnodup, hlength (.inr (by simp [activeOrRemote])), hsubset⟩

end IndexProvider
