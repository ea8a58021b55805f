import IndexProvider.Lemmas.FilteredScan

/-!
This module contains the planning of what the filter analysis accepts: over one index schema it never
fails.
-/

namespace IndexProvider

variable {V R : Type}

def IndexedTableProvider.SharesSchema (provider : IndexedTableProvider V) (schema : Schema) : Prop :=
  ∀ indexes, provider.indexes = .ok indexes → ∀ index ∈ indexes, index.indexSchema = schema

theorem IndexedTableProvider.SharesSchema.leaves {provider : IndexedTableProvider V} {schema : Schema}
    (h : provider.SharesSchema schema) {f : IndexFilter V}
    (hpicks : ∀ leaf ∈ f.leaves, provider.PicksFirst leaf.1 leaf.2)
    : ∀ leaf ∈ f.leaves, leaf.1.indexSchema = schema := by
  intro leaf hleaf
  obtain ⟨before, after, hindexes, -, -⟩ := hpicks leaf hleaf
  exact h _ hindexes leaf.1 (by simp)

/--
Where the indexes share one schema of uniquely named key columns, the analysis yields at most one root,
whose tree has no empty node, and this root can be planned in both union modes and with any limit.
-/
theorem IndexedTableProvider.analyzed_filters_planned {df : DataFusion}
    {merge : Metadata → Metadata → Metadata} (hdf : df.Schemas) (hheaders : df.Headers)
    (horderings : df.KeyOrderings) (hmerge : df.JoinMetadata merge)
    {provider : IndexedTableProvider V} {schema : Schema} (hschema : provider.SharesSchema schema)
    (hfields : schema.fields ≠ []) (hnodup : schema.names.Nodup) {filters : List Expr}
    {indexed : IndexFilters V} {remaining : List Expr}
    (h : provider.analyzeAndOptimizeFilters filters = .ok (indexed, remaining)) (hne : indexed ≠ [])
    : ∃ root, indexed = [root] ∧ root.NoEmptyNode ∧
        ∀ (limit : Option Nat) (mapper : RecordFetcher V R) (tableSchema : Schema)
          (unionMode : UnionMode),
          ∃ exec, RecordFetchExec.tryNew df indexed limit mapper tableSchema unionMode = .ok exec := by
  obtain ⟨root, rfl, hroot, hpicks, -⟩ := analyzeAndOptimizeFilters_eq_ok (R := R) h hne
  refine ⟨root, rfl, hroot, ?_⟩
  intro limit mapper tableSchema unionMode
  obtain ⟨input, hinput⟩ := IndexFilter.accepted_of_leaves hdf hheaders horderings hmerge hfields
    hnodup hroot (hschema.leaves hpicks) unionMode limit
  refine ⟨⟨[root], limit, mapper, input, tableSchema, unionMode⟩, ?_⟩
  simp only [RecordFetchExec.tryNew, hinput]
  rfl

-- The columns are looked up by name, so a join doubles the first of two columns with one name.
def doubledSchema : Schema := ⟨[⟨"id", .int32, false, []⟩, ⟨"id", .int32, true, []⟩], []⟩

def doubledProvider : IndexedTableProvider Nat where
  indexes := .ok [.constant doubledSchema false []]

def aOrBAndC : Expr :=
  .binaryExpr (.column ⟨none, "a"⟩) .or
    (.binaryExpr (.column ⟨none, "b"⟩) .and (.column ⟨none, "c"⟩))

theorem doubledProvider_sharesSchema : doubledProvider.SharesSchema doubledSchema := by
  intro indexes h index hindex
  cases h
  rw [List.mem_singleton.mp hindex]
  rfl

theorem doubledProvider_rejected
    : doubledProvider.SharesSchema doubledSchema ∧ doubledSchema.fields ≠ [] ∧
        ∃ root, doubledProvider.analyzeAndOptimizeFilters [aOrBAndC] = .ok ([root], []) ∧
          ∀ (mapper : RecordFetcher Nat Nat) (tableSchema : Schema),
            ∃ e, RecordFetchExec.tryNew DataFusion.reference [root] none mapper tableSchema .sequential
              = .error e := by
  refine ⟨doubledProvider_sharesSchema, by decide, _, rfl, ?_⟩
  intro mapper tableSchema
  exact ⟨_, rfl⟩

def orderedAndNot : IndexedTableProvider Nat where
  indexes := .ok [
    { idIndex true [[1]] with supportsPredicate := fun expr => .ok (expr matches .column ⟨_, "a"⟩) },
    idIndex false [[2]]
  ]

theorem orderedAndNot_planned
    : ∃ indexed, orderedAndNot.analyzeAndOptimizeFilters [aOrBAndC] = .ok (indexed, []) ∧
        ∃ root, indexed = [root] ∧ root.NoEmptyNode ∧
          ∀ (limit : Option Nat) (mapper : RecordFetcher Nat Nat) (tableSchema : Schema)
            (unionMode : UnionMode), ∃ exec,
              RecordFetchExec.tryNew DataFusion.reference indexed limit mapper tableSchema unionMode
                = .ok exec := by
  have hschema : orderedAndNot.SharesSchema idSchema := by
    intro indexes h index hindex
    cases h
    simp only [List.mem_cons, List.not_mem_nil, or_false] at hindex
    rcases hindex with rfl | rfl <;> rfl
  have hanalyze : ∃ indexed,
      orderedAndNot.analyzeAndOptimizeFilters [aOrBAndC] = .ok (indexed, []) ∧ indexed ≠ [] :=
    ⟨_, rfl, List.cons_ne_nil _ _⟩
  obtain ⟨indexed, hanalyze, hne⟩ := hanalyze
  refine ⟨indexed, hanalyze, ?_⟩
  exact IndexedTableProvider.analyzed_filters_planned DataFusion.reference_schemas
    DataFusion.reference_headers DataFusion.reference_keyOrderings DataFusion.reference_joinMetadata
    hschema (by decide) (by decide) hanalyze hne

end IndexProvider
