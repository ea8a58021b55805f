import IndexProvider.Lemmas.FilteredScan

/-!
This module contains fetchers that return records without the key of their row: what they return is what a
fetcher of whole rows returns, with the keys taken off.
-/

namespace IndexProvider

open NamedTuple Enumeration

variable {V R S : Type}

theorem Expr.truth_record {leaf : Expr → S → Option Bool} {record : R → S} {row : R} (expr : Expr)
    : expr.truth (fun expr row => leaf expr (record row)) row = expr.truth leaf (record row) := by
  induction expr using Expr.induction with
  | binaryExpr left op right ihl ihr =>
    cases op with
    | and => rw [Expr.truth, Expr.truth, ihl, ihr]
    | or => rw [Expr.truth, Expr.truth, ihl, ihr]
    | _ => rfl
  | _ => rfl

section Records

variable [DecidableEq V] {table : Table V R} {record : R → S}

omit [DecidableEq V] in
theorem Table.FetchedAs.mapM {mapper : RecordFetcher V S} (h : table.FetchedAs record mapper)
    {schema : Schema} (hcolumns : schema.columns = table.keySchema.columns) {parts : List (List R)}
    (hparts : ∀ part ∈ parts, part ⊆ table.rows)
    : (parts.map (List.map table.key)).mapM (mapper.fetch schema)
        =
      .ok (parts.map (List.map record)) := by
  rw [Collect.mapM_eq_ok, List.forall₂_map_left_iff, List.forall₂_map_right_iff, List.forall₂_same]
  intro part hpart
  exact h schema hcolumns part (hparts part hpart)

namespace RecordFetchExec

variable {exec : RecordFetchExec V S}

/--
The fetch of whole rows for the keys of a fetch of records.
-/
def overTable (exec : RecordFetchExec V S) (table : Table V R) : RecordFetchExec V R where
  indexes := exec.indexes
  limit := exec.limit
  recordFetcher := table.fetcher exec.schema
  input := exec.input
  schema := exec.schema
  unionMode := exec.unionMode

/--
The keys that the input emits are those of rows of the table, in the order of the key columns.
-/
structure KeyedBy (exec : RecordFetchExec V S) (table : Table V R) : Prop where
  columns : exec.input.schema.columns = table.keySchema.columns
  keys : ∀ keys, exec.input.Emits keys → ∃ rows ⊆ table.rows, rows.map table.key = keys

theorem KeyedBy.parts (h : exec.KeyedBy table) {batches : List (Batch V)}
    (hemits : exec.input.Emits batches.flatten)
    : ∃ parts : List (List R), (∀ part ∈ parts, part ⊆ table.rows) ∧
        (batches.filter fun batch => batch.length > 0) = parts.map (List.map table.key) := by
  obtain ⟨rows, hsubset, hkeys⟩ := h.keys _ hemits
  obtain ⟨parts, rfl, rfl⟩ := Collect.exists_parts hkeys.symm
  refine ⟨parts.filter fun part => (part.map table.key).length > 0, ?_, ?_⟩
  . intro part hpart row hrow
    exact hsubset (List.mem_flatten.mpr ⟨part, List.mem_of_mem_filter hpart, hrow⟩)
  . rw [List.filter_map]
    rfl

/--
A fetch of records returns the records of the rows that the fetch of whole rows returns.
-/
theorem returns_iff_overTable (hfetch : table.FetchedAs record exec.recordFetcher)
    (h : exec.KeyedBy table) (out : List S)
    : exec.Returns out ↔ ∃ rows, (exec.overTable table).Returns rows ∧ out = rows.map record := by
  have hrows : table.FetchedAs id (exec.overTable table).recordFetcher :=
    Table.fetcher_fetches exec.schema
  constructor
  . intro hout
    obtain ⟨batches, fetched, hemits, hfetched, rfl⟩ := hout
    obtain ⟨parts, hsubset, hparts⟩ := h.parts hemits
    refine ⟨parts.flatten, ⟨batches, parts, hemits, ?_, rfl⟩, ?_⟩
    . rw [hparts]
      have hmapM := hrows.mapM h.columns hsubset
      rw [List.map_id_fun, List.map_id] at hmapM
      exact hmapM
    . rw [hparts, hfetch.mapM h.columns hsubset, Except.ok.injEq] at hfetched
      rw [← hfetched, List.map_flatten]
  . intro hout
    obtain ⟨rows, ⟨batches, fetched, hemits, hfetched, rfl⟩, rfl⟩ := hout
    obtain ⟨parts, hsubset, hparts⟩ := h.parts hemits
    have hmapM := hrows.mapM h.columns hsubset
    rw [List.map_id_fun, List.map_id] at hmapM
    rw [hparts] at hfetched
    rw [hmapM.symm.trans hfetched |> Except.ok.inj |>.symm]
    refine ⟨batches, parts.map (List.map record), hemits, ?_, ?_⟩
    . rw [hparts]
      exact hfetch.mapM h.columns hsubset
    . rw [List.map_flatten]

end RecordFetchExec

namespace TablePlan

def exec : TablePlan V S → RecordFetchExec V S
  | recordFetch exec => exec
  | filter _ exec _ => exec

/--
The scan of whole rows for the keys of a scan of records.
-/
def overTable (record : R → S) (plan : TablePlan V S) (table : Table V R) : TablePlan V R :=
  match plan with
  | recordFetch exec => .recordFetch (exec.overTable table)
  | filter predicate exec fetch =>
    .filter (fun row => predicate (record row)) (exec.overTable table) fetch

theorem returns_iff_overTable {plan : TablePlan V S} (hfetch : table.FetchedAs record plan.exec.recordFetcher)
    (h : plan.exec.KeyedBy table) (out : List S)
    : plan.Returns out ↔ ∃ rows, (plan.overTable record table).Returns rows ∧ out = rows.map record := by
  cases plan with
  | recordFetch exec => exact RecordFetchExec.returns_iff_overTable hfetch h out
  | filter predicate exec fetch =>
    have hrows : ∀ out, exec.Returns out ↔ ∃ rows, (exec.overTable table).Returns rows ∧
        out = rows.map record := RecordFetchExec.returns_iff_overTable hfetch h
    have hkept : ∀ rows : List R, (rows.map record).filter (fun row => predicate row = some true)
        = (rows.filter fun row => predicate (record row) = some true).map record := by
      intro rows
      rw [List.filter_map]
      rfl
    constructor
    . intro hout
      obtain ⟨fetched, hfetched, rfl⟩ := hout
      obtain ⟨rows, hrows, rfl⟩ := (hrows fetched).mp hfetched
      refine ⟨_, ⟨rows, hrows, rfl⟩, ?_⟩
      cases fetch with
      | none => exact hkept rows
      | some n => simp only [hkept, List.map_take]
    . intro hout
      obtain ⟨kept, ⟨rows, hover, rfl⟩, rfl⟩ := hout
      refine ⟨rows.map record, (hrows _).mpr ⟨rows, hover, rfl⟩, ?_⟩
      cases fetch with
      | none => exact (hkept rows).symm
      | some n => simp only [hkept, List.map_take]

end TablePlan

theorem RecordFetchExec.KeyedBy.of_produces {exec : RecordFetchExec V S}
    {leaf : Expr → R → Option Bool} {f : IndexFilter V} {limit : Option Nat} (hf : f.NoEmptyNode)
    (hcolumns : exec.input.schema.columns = table.keySchema.columns)
    (hinput : exec.input.Produces table.keySchema.columns (f.denote (table.leafKeys leaf)) limit)
    : exec.KeyedBy table where
  columns := hcolumns
  keys := by
    intro keys hkeys
    have hover : (exec.overTable table).input.Produces table.keySchema.columns
        (f.denote (table.leafKeys leaf)) limit := hinput
    obtain ⟨rows, hsubset, hrows, -⟩ := Table.emitted_rows hf hover hkeys
    refine ⟨rows, hsubset, ?_⟩
    rw [← hrows]
    apply List.map_congr_left
    intro row hrow
    exact (Table.keyIn_of_columns hcolumns (hsubset hrow)).symm

variable {df : DataFusion} {createPhysicalExpr : CreatePhysicalExpr S}
  {provider : IndexedTableProvider V} {remaining : List Expr} {limit : Option Nat} {schema : Schema}
  {mapper : RecordFetcher V S} {leaf : Expr → S → Option Bool} {f : IndexFilter V}
  {plan : TablePlan V S}

theorem IndexedTableProvider.createExecutionPlanWithIndexes_over
    (hplans : createPhysicalExpr.Plans leaf schema remaining)
    (h : provider.createExecutionPlanWithIndexes df createPhysicalExpr [f] remaining limit schema
      mapper = .ok plan)
    : provider.createExecutionPlanWithIndexes df (.ofTruth fun expr row => leaf expr (record row)) [f]
          remaining limit schema (table.fetcher schema)
        =
      .ok (plan.overTable record table) := by
  obtain ⟨input, hinput, rfl⟩ := (createExecutionPlanWithIndexes_eq_ok hplans).mp h
  apply (createExecutionPlanWithIndexes_eq_ok (CreatePhysicalExpr.ofTruth_plans _ schema _)).mpr
  refine ⟨input, hinput, ?_⟩
  cases conjunction remaining with
  | none => rfl
  | some predicate =>
    simp only [TablePlan.overTable, Expr.truth_record]
    rfl

omit [DecidableEq V] in
theorem IndexedTableProvider.createExecutionPlanWithIndexes_exec
    (hplans : createPhysicalExpr.Plans leaf schema remaining)
    (h : provider.createExecutionPlanWithIndexes df createPhysicalExpr [f] remaining limit schema
      mapper = .ok plan)
    : plan.exec.recordFetcher = mapper ∧
        RecordFetchExec.buildScanExec df provider.unionMode f (if remaining = [] then limit else none)
          = .ok plan.exec.input := by
  obtain ⟨input, hinput, rfl⟩ := (createExecutionPlanWithIndexes_eq_ok hplans).mp h
  cases conjunction remaining with
  | none => exact ⟨rfl, hinput⟩
  | some predicate => exact ⟨rfl, hinput⟩

/--
The records that an indexed scan returns are those of the rows that answer the query.
-/
theorem IndexedTableProvider.createExecutionPlanWithIndexes_records (hdf : df.Schemas)
    (hfetch : table.FetchedAs record mapper)
    (hplans : createPhysicalExpr.Plans leaf schema remaining) (hf : f.NoEmptyNode)
    (hcolumns : ∀ leaf' ∈ f.leaves, leaf'.1.indexSchema.columns = table.keySchema.columns)
    (hleaves : ∀ leaf' ∈ f.leaves,
      table.Answers (fun expr row => leaf expr (record row)) limit leaf'.1 leaf'.2)
    (h : provider.createExecutionPlanWithIndexes df createPhysicalExpr [f] remaining limit schema
      mapper = .ok plan)
    : (∃ out, plan.Returns out) ∧
        ∀ out, plan.Returns out → ∃ rows, out = rows.map record ∧
          Enumerates (table.answers (fun expr row => leaf expr (record row)) f remaining) limit rows ∧
            ((remaining ≠ [] ∨ ∀ index filter, f ≠ .single index filter) →
              ∀ n, limit = some n → rows.length ≤ n) := by
  have hover : provider.createExecutionPlanWithIndexes df
      (.ofTruth fun expr row => leaf expr (record row)) [f] remaining limit schema
      (table.fetcher schema) = .ok (plan.overTable record table) :=
    createExecutionPlanWithIndexes_over hplans h
  have hfetcher : ∀ leaf' ∈ f.leaves.head?,
      table.FetchedBy leaf'.1.indexSchema.columns (table.fetcher schema) := by
    intro leaf' hleaf'
    rw [hcolumns leaf' (List.mem_of_head? hleaf')]
    exact (Table.fetcher_fetches schema).fetchedBy
  obtain ⟨⟨rows, hrows⟩, hrun⟩ := createExecutionPlanWithIndexes_returns hdf hfetcher
    (CreatePhysicalExpr.ofTruth_plans _ schema remaining) hf hleaves hover
  obtain ⟨hmapper, hinput⟩ := createExecutionPlanWithIndexes_exec hplans h
  have hproduces := RecordFetchExec.buildScanExec_produces hdf Table.columns_nodup
    Table.columns_ne_nil hf (fun leaf' hleaf' limit' hlimit => (hleaves leaf' hleaf').scans (by
      split at hlimit
      . exact hlimit
      . exact .inl (or_self_iff.mp hlimit))) hinput
  obtain ⟨leaf', hleaf', hplancolumns⟩ := RecordFetchExec.buildScanExec_columns hdf Table.columns_nodup hf
    (fun leaf' hleaf' => (hleaves leaf' hleaf').exact.columns) hinput
  have hkeyed : plan.exec.KeyedBy table :=
    .of_produces hf (hplancolumns.trans (hcolumns leaf' (List.mem_of_head? hleaf'))) hproduces
  rw [← hmapper] at hfetch
  have hiff := TablePlan.returns_iff_overTable hfetch hkeyed
  constructor
  . exact ⟨_, (hiff _).mpr ⟨rows, hrows, rfl⟩⟩
  . intro out hout
    obtain ⟨rows, hrows, rfl⟩ := (hiff out).mp hout
    exact ⟨rows, rfl, hrun rows hrows⟩

end Records

end IndexProvider
