import IndexProvider.Lemmas.Employees

/-!
This module contains queries on the provider of the example. It has no scan of the whole table, and answers
the queries of which it answers a filter as a provider that has one.
-/

namespace IndexProvider

open Enumeration

variable {R : Type} {filters : List Expr} {limit : Option Nat} {out : List R}

theorem pushed_map (filters : List Expr) (P : Expr → Prop) [DecidablePred P]
    : pushed filters (filters.map fun filter => if P filter then .exact else .unsupported)
        =
      filters.filter P := by
  rw [IndexedTableProvider.pushed_eq_reported, (IndexedTableProvider.reported_map filters P).1]
  intro r hr
  obtain ⟨filter, -, rfl⟩ := List.mem_map.mp hr
  exact ite_eq_or_eq _ _ _

/--
Two scans with the same plans, up to how these are written, give queries the same results.
-/
theorem QueryResults.congr_scan {P P' : Type}
    {supports : List Expr → Result (List TableProviderFilterPushDown)}
    {scan : List Expr → Option Nat → Result P} {scan' : List Expr → Option Nat → Result P'}
    {returns : P → List R → Prop} {returns' : P' → List R → Prop} {plan : P → P'}
    {leaf : Expr → R → Option Bool} {reports : List TableProviderFilterPushDown}
    (hreports : supports filters = .ok reports)
    (hscan : ∀ scanFilters, (∀ filter, filter ∈ scanFilters ↔ filter ∈ pushed filters reports) →
      ∀ limit, scan' scanFilters limit = plan <$> scan scanFilters limit)
    (hreturns : ∀ p rows, returns' (plan p) rows ↔ returns p rows)
    : QueryResults supports scan returns leaf filters limit out
        ↔
      QueryResults supports scan' returns' leaf filters limit out := by
  have hplan : ∀ scanFilters, (∀ filter, filter ∈ scanFilters ↔ filter ∈ pushed filters reports) →
      ∀ limit p', scan' scanFilters limit = .ok p'
        ↔ ∃ p, scan scanFilters limit = .ok p ∧ plan p = p' := by
    intro scanFilters h limit p'
    rw [hscan scanFilters h]
    exact Collect.map_eq_ok
  constructor
  . intro h
    obtain ⟨reports', scanFilters, p, rows, hreports', hmem, hp, hrows, hout⟩ := h
    rw [hreports] at hreports'
    cases hreports'
    exact ⟨reports, scanFilters, plan p, rows, hreports, hmem,
      (hplan scanFilters hmem _ _).mpr ⟨p, hp, rfl⟩, (hreturns p rows).mpr hrows, hout⟩
  . intro h
    obtain ⟨reports', scanFilters, p', rows, hreports', hmem, hp', hrows, hout⟩ := h
    rw [hreports] at hreports'
    cases hreports'
    obtain ⟨p, hp, rfl⟩ := (hplan scanFilters hmem _ _).mp hp'
    exact ⟨reports, scanFilters, p, rows, hreports, hmem, hp, (hreturns p rows).mp hrows, hout⟩

namespace EmployeeTable

variable {df : DataFusion} {exprToColumns : ExprToColumns} {leaf : Expr → R → Option Bool}
  {self : EmployeeTable R} {indexed : IndexFilters KeyValue}
  {reports : List TableProviderFilterPushDown}

def Results (df : DataFusion) (exprToColumns : ExprToColumns) (leaf : Expr → R → Option Bool)
    (self : EmployeeTable R) (filters : List Expr) (limit : Option Nat) (out : List R) : Prop :=
  QueryResults (self.supportsFiltersPushdown exprToColumns) (self.scan df exprToColumns)
    RecordFetchExec.Returns leaf filters limit out

/--
The provider that reads the whole batch where the index answers no filter.
-/
def withFallback (exprToColumns : ExprToColumns) (self : EmployeeTable R) : TableProvider KeyValue R where
  toIndexedTableProvider := self.toIndexedTableProvider exprToColumns
  schema := self.schema
  batch := self.fetcher.batch
  mapper := self.fetcher.toRecordFetcher

theorem scan_withFallback (createPhysicalExpr : CreatePhysicalExpr R)
    (hanalyze : (self.toIndexedTableProvider exprToColumns).analyzeAndOptimizeFilters filters
      = .ok (indexed, []))
    (hne : indexed ≠ [])
    : (self.withFallback exprToColumns).scan df createPhysicalExpr filters limit
        =
      (fun exec => .indexed (.recordFetch exec)) <$> self.scan df exprToColumns filters limit := by
  have hempty : indexed.isEmpty = false := by
    rw [List.isEmpty_eq_false_iff]
    exact hne
  have hanalyze' : (self.withFallback exprToColumns).analyzeAndOptimizeFilters filters
      = .ok (indexed, []) := hanalyze
  unfold scan TableProvider.scan
  rw [hanalyze, hanalyze']
  simp only [bind, Except.bind, hempty, Bool.false_eq_true, if_false]
  have hplan : (self.withFallback exprToColumns).createExecutionPlanWithIndexes df createPhysicalExpr
        indexed [] limit self.schema self.fetcher.toRecordFetcher
      = .recordFetch <$>
          RecordFetchExec.tryNew df indexed limit self.fetcher.toRecordFetcher self.schema .parallel := rfl
  change TableProvider.scanWithIndexes df createPhysicalExpr _ [] limit indexed = _
  unfold TableProvider.scanWithIndexes
  change (IndexedTableProvider.createExecutionPlanWithIndexes df createPhysicalExpr _ indexed [] limit
    self.schema self.fetcher.toRecordFetcher >>= _) = _
  rw [hplan]
  cases RecordFetchExec.tryNew df indexed limit self.fetcher.toRecordFetcher self.schema .parallel <;> rfl

theorem scan_nil : self.scan df exprToColumns [] limit
    = .error (.other "not implemented: full-table scan fallback not shown in this example") := rfl

theorem not_results (hreports : self.supportsFiltersPushdown exprToColumns filters = .ok reports)
    (hpushed : pushed filters reports = [])
    : ¬ self.Results df exprToColumns leaf filters limit out := by
  intro h
  obtain ⟨reports', scanFilters, exec, rows, hreports', hmem, hscan, -, -⟩ := h
  rw [hreports] at hreports'
  cases hreports'
  rw [hpushed] at hmem
  have hnil : scanFilters = [] := by
    rw [List.eq_nil_iff_forall_not_mem]
    intro filter hfilter
    exact List.not_mem_nil ((hmem filter).mp hfilter)
  rw [hnil, scan_nil] at hscan
  cases hscan

theorem results_iff_withFallback (createPhysicalExpr : CreatePhysicalExpr R)
    (hreports : self.supportsFiltersPushdown exprToColumns filters = .ok reports)
    (hpushed : pushed filters reports ≠ [])
    : self.Results df exprToColumns leaf filters limit out
        ↔
      (self.withFallback exprToColumns).Results df createPhysicalExpr leaf filters limit out := by
  apply QueryResults.congr_scan hreports
  . intro scanFilters hmem limit
    obtain ⟨hanswered, -⟩ := IndexedTableProvider.pushed_kept hreports
    obtain ⟨indexed, hanalyze, hnil, -⟩ := IndexedTableProvider.analyze_answered
      fun filter hfilter => hanswered filter ((hmem filter).mp hfilter)
    apply scan_withFallback createPhysicalExpr hanalyze
    intro hindexed
    obtain ⟨filter, hfilter⟩ := List.exists_mem_of_ne_nil _ hpushed
    have hfilter := (hmem filter).mpr hfilter
    rw [hnil hindexed] at hfilter
    cases hfilter
  . intro exec rows
    rfl

theorem usesDefault (exprToColumns : ExprToColumns) (self : EmployeeTable R)
    : (self.toIndexedTableProvider exprToColumns).UsesDefault exprToColumns := by
  intro indexes h index hindex
  cases h
  rw [List.mem_singleton] at hindex
  rw [hindex]
  rfl

theorem supportsFiltersPushdown_eq (hcollects : exprToColumns.Collects) (self : EmployeeTable R)
    (filters : List Expr)
    : self.supportsFiltersPushdown exprToColumns filters
        =
      .ok (filters.map fun filter =>
        if ∀ leaf ∈ filter.leaves, leaf.OnColumn "age" then .exact else .unsupported) := by
  refine ((usesDefault exprToColumns self).supportsFiltersIndexPushdown_eq hcollects rfl filters).trans ?_
  congr 1
  apply List.map_congr_left
  intro filter _
  simp only [List.exists_mem_cons_iff, List.not_mem_nil, false_and, exists_false, or_false]
  rfl

theorem stores (exprToColumns : ExprToColumns) (schema : Schema) (age : R → Int32) (batch : List R)
    (hlength : batch.length < 2 ^ 64)
    : ((new schema age batch).withFallback exprToColumns).Stores
        (EmployeeTableProvider.table batch hlength) Prod.fst where
  batch := (EmployeeTableProvider.map_fst_zip batch).symm
  mapper := by
    intro schema' hcolumns rows hrows
    apply InMemoryFetcher.fetch_eq_ok.mpr
    exact EmployeeTableProvider.fetchedAs schema batch hlength schema' hcolumns rows hrows

theorem answersFor (hcollects : exprToColumns.Collects) (schema : Schema) {age : R → Int32}
    (hleaf : EvaluatesAge leaf age) {batch : List R} (hlength : batch.length < 2 ^ 64)
    (hfilters : ∀ filter ∈ filters, (∀ expr ∈ filter.leaves, expr.OnColumn "age") →
      ∀ expr ∈ filter.leaves, AgeIndex.Evaluates expr)
    (limit : Option Nat)
    : ((new schema age batch).withFallback exprToColumns).AnswersFor
        (EmployeeTableProvider.table batch hlength) (fun expr row => leaf expr row.1) filters limit := by
  apply (usesDefault exprToColumns (new schema age batch)).answersFor hcollects rfl
  . exact List.nodup_singleton _
  . simp only [List.forall_mem_singleton]
    rfl
  . intro filter hfilter hsupported expr hexpr index hindex _
    simp only [List.exists_mem_cons_iff, List.not_mem_nil, false_and, exists_false, or_false]
      at hsupported
    rw [List.mem_singleton.mp hindex]
    exact EmployeeTableProvider.ageIndex_answers hleaf batch hlength _ limit
      (hfilters filter hfilter hsupported expr hexpr)

/--
A query on the table of the example returns the rows that satisfy all filters, as soon as one of them refers
to the age only, and otherwise fails.
-/
theorem results_iff_onColumn_age {merge : Metadata → Metadata → Metadata} (hdf : df.Schemas)
    (hheaders : df.Headers) (horderings : df.KeyOrderings) (hmerge : df.JoinMetadata merge)
    (hcollects : exprToColumns.Collects) (schema : Schema) {age : R → Int32}
    (hleaf : EvaluatesAge leaf age) {batch : List R} (hlength : batch.length < 2 ^ 64)
    (hfilters : ∀ filter ∈ filters, (∀ expr ∈ filter.leaves, expr.OnColumn "age") →
      ∀ expr ∈ filter.leaves, AgeIndex.Evaluates expr)
    (limit : Option Nat)
    : ((∃ out, (new schema age batch).Results df exprToColumns leaf filters limit out)
          ↔ ∃ filter ∈ filters, ∀ expr ∈ filter.leaves, expr.OnColumn "age") ∧
        ∀ out, (new schema age batch).Results df exprToColumns leaf filters limit out →
          Picks limit (batch.filter (satisfiesAll leaf filters)) out := by
  have hreports := supportsFiltersPushdown_eq hcollects (new schema age batch) filters
  have hpushed := pushed_map filters fun filter => ∀ expr ∈ filter.leaves, expr.OnColumn "age"
  by_cases hfound : ∃ filter ∈ filters, ∀ expr ∈ filter.leaves, expr.OnColumn "age"
  . have hne : pushed filters (filters.map fun filter =>
        if ∀ expr ∈ filter.leaves, expr.OnColumn "age" then .exact else .unsupported) ≠ [] := by
      obtain ⟨filter, hfilter, honcolumn⟩ := hfound
      rw [hpushed]
      exact List.ne_nil_of_mem (List.mem_filter.mpr ⟨hfilter, decide_eq_true honcolumn⟩)
    have hiff : ∀ out, (new schema age batch).Results df exprToColumns leaf filters limit out
        ↔ ((new schema age batch).withFallback exprToColumns).Results df (.ofTruth fun _ _ => none) leaf
          filters limit out := fun _ => results_iff_withFallback _ hreports hne
    have hstores := stores exprToColumns schema age batch hlength
    have hanswers := answersFor hcollects schema hleaf hlength hfilters limit
    simp only [hiff]
    constructor
    . exact iff_of_true (TableProvider.exists_results _ hdf hheaders horderings hmerge hstores hanswers
        hreports) hfound
    . intro out hout
      exact TableProvider.results_picked _ hdf hheaders horderings hmerge hstores hanswers hreports hout
  . have hnone : pushed filters (filters.map fun filter =>
        if ∀ expr ∈ filter.leaves, expr.OnColumn "age" then .exact else .unsupported) = [] := by
      rw [hpushed, List.filter_eq_nil_iff]
      intro filter hfilter honcolumn
      exact hfound ⟨filter, hfilter, of_decide_eq_true honcolumn⟩
    have hnot : ∀ out, ¬ (new schema age batch).Results df exprToColumns leaf filters limit out :=
      fun _ => not_results hreports hnone
    refine ⟨iff_of_false ?_ hfound, ?_⟩
    . rintro ⟨out, hout⟩
      exact hnot out hout
    . intro out hout
      exact absurd hout (hnot out)

theorem seniors_queried
    : (∃ out, (new employeeSchema Employee.age EmployeeTableProvider.employees).Results
          DataFusion.reference collectColumns (columnLeaf Employee.age Employee.department)
          [ageFilter none .gtEq 30, departmentFilter none "Sales"] none out) ∧
        ∀ out, (new employeeSchema Employee.age EmployeeTableProvider.employees).Results
            DataFusion.reference collectColumns (columnLeaf Employee.age Employee.department)
            [ageFilter none .gtEq 30, departmentFilter none "Sales"] none out →
          (out.map Employee.name).Perm ["Bob", "Eve"] := by
  have hfilters : ∀ filter ∈ [ageFilter none .gtEq 30, departmentFilter none "Sales"],
      (∀ expr ∈ filter.leaves, expr.OnColumn "age") →
        ∀ expr ∈ filter.leaves, AgeIndex.Evaluates expr := by
    simp only [List.forall_mem_cons]
    refine ⟨?_, ?_, nofun⟩
    . intro _ expr hexpr
      rw [List.mem_singleton.mp hexpr]
      exact ⟨none, .gtEq, 30, nofun, nofun, rfl⟩
    . intro honcolumn expr hexpr
      have hage := honcolumn expr hexpr
      rw [List.mem_singleton.mp hexpr] at hage
      exact absurd hage (not_onColumn_age (onColumn_departmentFilter none "Sales"))
  have hbatch : EmployeeTableProvider.employees.length < 2 ^ 64 := by decide
  obtain ⟨hresults, hpicks⟩ := results_iff_onColumn_age DataFusion.reference_schemas
    DataFusion.reference_headers DataFusion.reference_keyOrderings DataFusion.reference_joinMetadata
    IndexedTableProvider.collectColumns_collects employeeSchema
    (columnLeaf_evaluates Employee.age Employee.department).age hbatch hfilters none
  refine ⟨hresults.mpr ⟨_, List.mem_cons_self, ?_⟩, ?_⟩
  . intro expr hexpr
    rw [List.mem_singleton.mp hexpr]
    exact onColumn_ageFilter none .gtEq 30
  . intro out hout
    exact (hpicks out hout).perm.map Employee.name

end EmployeeTable

end IndexProvider
