import IndexProvider.Lemmas.Employees
import IndexProvider.Lemmas.LimitedFetch

/-!
This module contains the bound that the limit of a query puts on the records that are fetched for it.
-/

namespace IndexProvider

open Enumeration OrderedKeys

variable {V R : Type}

/--
A scan with a limit yields no more keys than the limit asks for, also where it fails afterwards.
-/
def Index.Truncates (index : Index V) : Prop :=
  ∀ filters n stream, index.scan filters (some n) = .ok stream → stream.batches.flatten.length ≤ n

theorem memoryIndex_truncates {κ : Type} (cmp : κ → κ → Ordering) (row : κ → Row KeyValue)
    (keysOf : Expr → Option (List κ)) (exprToColumns : ExprToColumns)
    (name tableName columnName : String) (indexSchema : Schema)
    : (memoryIndex exprToColumns name tableName columnName indexSchema
        (createDataFromFilters cmp row keysOf)).Truncates := by
  intro filters n stream hscan
  obtain ⟨batches, hbatches, rfl⟩ := memoryIndex_scan_eq_ok.mp hscan
  have heq := createDataFromFilters_eq cmp row keysOf filters (some n)
  rw [hbatches, Option.map_some, eq_comm, Option.map_eq_some_iff] at heq
  obtain ⟨keys, -, hflatten⟩ := heq
  change batches.flatten.length ≤ n
  rw [← hflatten, List.length_map]
  exact List.length_take_le _ _

namespace TableProvider

variable [DecidableEq V] {df : DataFusion} {createPhysicalExpr : CreatePhysicalExpr R}
  {self : TableProvider V R} {scanFilters : List Expr} {limit : Option Nat} {n : Nat}
  {exec : RecordFetchExec V R}

omit [DecidableEq V] in
/--
A scan is planned without a filter over the fetch only if all its filters are indexed.
-/
theorem createExecutionPlanWithIndexes_eq_recordFetch {provider : IndexedTableProvider V}
    {root : IndexFilter V} {remaining : List Expr} {schema : Schema} {mapper : RecordFetcher V R}
    (h : provider.createExecutionPlanWithIndexes df createPhysicalExpr [root] remaining limit schema
      mapper = .ok (.recordFetch exec))
    : remaining = [] ∧
        RecordFetchExec.buildScanExec df provider.unionMode root limit = .ok exec.input := by
  unfold IndexedTableProvider.createExecutionPlanWithIndexes at h
  cases hconjunction : conjunction remaining with
  | none =>
    simp only [hconjunction, RecordFetchExec.tryNew, Collect.bind_eq_ok, Collect.pure_eq_ok,
      TablePlan.recordFetch.injEq] at h
    obtain ⟨_, ⟨input, hinput, rfl⟩, rfl⟩ := h
    exact ⟨conjunction_eq_none.mp hconjunction, hinput⟩
  | some predicate =>
    simp only [hconjunction, Collect.bind_eq_ok] at h
    obtain ⟨predicate, -, fetch, -, h⟩ := h
    unfold FilterExec.build at h
    split at h <;> cases h

omit [DecidableEq V] in
theorem scan_eq_recordFetch
    (h : self.scan df createPhysicalExpr scanFilters limit = .ok (.indexed (.recordFetch exec)))
    : ∃ root, self.analyzeAndOptimizeFilters scanFilters = .ok ([root], []) ∧
        (∀ leaf ∈ root.leaves, self.PicksFirst leaf.1 leaf.2) ∧
          RecordFetchExec.buildScanExec df self.unionMode root limit = .ok exec.input := by
  simp only [scan, Collect.bind_eq_ok] at h
  obtain ⟨⟨indexed, remaining⟩, hanalyze, h⟩ := h
  cases indexed with
  | nil => cases h
  | cons root rest =>
    obtain ⟨root, heq, -, hpicks, -⟩ :=
      IndexedTableProvider.analyzeAndOptimizeFilters_eq_ok (R := R) hanalyze (List.cons_ne_nil _ _)
    rw [heq] at hanalyze h
    simp only [List.isEmpty_cons, Bool.false_eq_true, if_false, scanWithIndexes, Collect.bind_eq_ok,
      Collect.pure_eq_ok, ScanPlan.indexed.injEq] at h
    obtain ⟨plan, hplan, rfl⟩ := h
    obtain ⟨rfl, hinput⟩ := createExecutionPlanWithIndexes_eq_recordFetch hplan
    exact ⟨root, hanalyze, hpicks, hinput⟩

/--
A scan with a limit whose filters are all indexed passes no more keys to the mapper than the limit asks for,
whichever tree its filters have, if the indexes truncate what they yield.
-/
theorem scan_fetches_le
    (htruncates : ∀ indexes, self.indexes = .ok indexes → ∀ index ∈ indexes, index.Truncates)
    (h : self.scan df createPhysicalExpr scanFilters (some n) = .ok (.indexed (.recordFetch exec)))
    {batches : List (Batch V)} (hfetches : exec.Fetches batches)
    : (batches.map List.length).sum ≤ n := by
  obtain ⟨root, -, hpicks, hinput⟩ := scan_eq_recordFetch h
  obtain ⟨rows, hrows, hstart⟩ := hfetches.keys_isPrefix
  rw [← List.length_flatten]
  apply hstart.length_le.trans
  by_cases hroot : ∃ index filter, root = .single index filter
  . obtain ⟨index, filter, rfl⟩ := hroot
    obtain ⟨before, after, hindexes, -, -⟩ := hpicks (index, filter) (List.mem_singleton_self _)
    rw [RecordFetchExec.buildScanExec_single] at hinput
    rw [← Except.ok.inj hinput] at hrows
    obtain ⟨stream, hscan, hrows⟩ := hrows
    exact hrows.length_le.trans (htruncates _ hindexes index (by simp) [filter] n stream hscan)
  . simp only [not_exists] at hroot
    exact RecordFetchExec.buildScanExec_emitsPart_le hroot hinput hrows

end TableProvider

namespace MultiTenantEmployeeProvider

theorem truncates (exprToColumns : ExprToColumns) (batch : List TenantEmployee) (unionMode : UnionMode)
    : ∀ indexes, (new exprToColumns batch unionMode).indexes = .ok indexes →
        ∀ index ∈ indexes, index.Truncates := by
  intro indexes h index hindex
  cases h
  simp only [List.mem_cons, List.not_mem_nil, or_false] at hindex
  rcases hindex with rfl | rfl
  . exact memoryIndex_truncates _ _ _ _ _ _ _ _
  . exact memoryIndex_truncates _ _ _ _ _ _ _ _

theorem sales_fetches_le
    : ∃ (exec : RecordFetchExec KeyValue TenantEmployee) (batches : List (Batch KeyValue)),
        (new collectColumns employees .parallel).scan DataFusion.reference (.ofTruth fun _ _ => none)
            [departmentFilter none "Sales"] (some 1) = .ok (.indexed (.recordFetch exec)) ∧
          exec.Fetches batches ∧ (batches.map List.length).sum ≤ 1 := by
  have hscan : ∃ exec : RecordFetchExec KeyValue TenantEmployee,
      (new collectColumns employees .parallel).scan DataFusion.reference (.ofTruth fun _ _ => none)
          [departmentFilter none "Sales"] (some 1) = .ok (.indexed (.recordFetch exec)) ∧
        exec.recordFetcher = (CompositePkFetcher.mk employees).toRecordFetcher ∧
          exec.input.schema = compositePkSchema ∧ ∃ p, exec.input = .indexScan p
            ((CompositePkDeptIndex.new ((employees.map TenantEmployee.department).zip
              (employees.map TenantEmployee.key))).toIndex collectColumns)
            [departmentFilter none "Sales"] (some 1) :=
    ⟨_, rfl, rfl, rfl, _, rfl⟩
  obtain ⟨exec, hscan, hfetcher, hschema, p, hinput⟩ := hscan
  obtain ⟨keys, hkeys, -⟩ := mem_departmentKeys ((employees.map TenantEmployee.department).zip
    (employees.map TenantEmployee.key)) none "Sales"
  have hcollect : collect comparePairs (departmentKeys (OrderedGroups.ofPairs
      ((employees.map TenantEmployee.department).zip (employees.map TenantEmployee.key))))
        [departmentFilter none "Sales"] ≠ none := by
    simp [collect_eq_none, hkeys]
  obtain ⟨keys, hkeys⟩ := Option.ne_none_iff_exists'.mp hcollect
  obtain ⟨batches, hbatches, -⟩ := memoryIndex_scan _ tenantKeyRow _ _ (some 1) hkeys
  have hemits : exec.input.EmitsPart batches.flatten := by
    rw [hinput]
    exact ⟨_, hbatches, List.prefix_refl _⟩
  have hfetches := RecordFetchExec.fetches_all none hemits fun batch => by
    rw [hfetcher, hschema]
    exact ⟨_, CompositePkFetcher.fetch_eq_ok.mpr ⟨⟨rfl, rfl⟩, rfl⟩⟩
  exact ⟨exec, _, hscan, hfetches, TableProvider.scan_fetches_le
    (truncates collectColumns employees .parallel) hscan hfetches⟩

end MultiTenantEmployeeProvider

end IndexProvider
