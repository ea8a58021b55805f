import IndexProvider.Lemmas.DefaultPredicates
import IndexProvider.Lemmas.Fetchers
import IndexProvider.Lemmas.Query
import IndexProvider.Lemmas.ReferenceIndexes

/-!
This module contains queries on the table providers of the tests: over any batch and in both union modes,
they return the records that satisfy the filters, as long as the indexes evaluate what they accept.
-/

namespace IndexProvider

open Enumeration OrderedKeys

/--
The truth of the predicates that the reference indexes evaluate.
-/
def EvaluatesAge {R : Type} (leaf : Expr → R → Option Bool) (age : R → Int32) : Prop :=
  ∀ relation op holds v row, Operator.compareInt32 op = some holds →
    leaf (ageFilter relation op v) row = some (holds (age row) v)

structure EvaluatesColumns {R : Type} (leaf : Expr → R → Option Bool) (age : R → Int32)
    (department : R → String) : Prop where
  age : EvaluatesAge leaf age
  department : ∀ relation v row,
    leaf (departmentFilter relation v) row = some (decide (department row = v))

def AgeIndex.Evaluates (expr : Expr) : Prop :=
  ∃ relation op v, Operator.compareInt32 op ≠ none ∧ ¬ (op = .gt ∧ v = Int32.maxValue) ∧
    expr = ageFilter relation op v

def CompositePkAgeIndex.Evaluates (expr : Expr) : Prop :=
  ∃ relation op v, (Operator.compareInt32 op ≠ none ∧ op ≠ .gtEq ∧ op ≠ .lt) ∧
    ¬ (op = .gt ∧ v = Int32.maxValue) ∧ expr = ageFilter relation op v

def DepartmentIndex.Evaluates (expr : Expr) : Prop := ∃ relation v, expr = departmentFilter relation v

theorem leaf_ageFilter {op : Operator} (hop : op.compareInt32 ≠ none) (relation : Option String)
    (v : Int32)
    : ageFilter relation op v ∈ (ageFilter relation op v).leaves := by
  cases op <;> simp [Operator.compareInt32] at hop <;> simp [ageFilter, Expr.leaves]

theorem leaf_departmentFilter (relation : Option String) (v : String)
    : departmentFilter relation v ∈ (departmentFilter relation v).leaves := by
  simp [departmentFilter, Expr.leaves]

theorem onColumn_ageFilter (relation : Option String) (op : Operator) (v : Int32)
    : (ageFilter relation op v).OnColumn "age" := by
  simp [Expr.OnColumn, ageFilter, Expr.columns]

theorem onColumn_departmentFilter (relation : Option String) (v : String)
    : (departmentFilter relation v).OnColumn "department" := by
  simp [Expr.OnColumn, departmentFilter, Expr.columns]

theorem not_onColumn_age {expr : Expr} (h : expr.OnColumn "department") : ¬ expr.OnColumn "age" := by
  intro hage
  exact absurd (h.unique hage) (by decide)

theorem AgeIndex.Evaluates.onColumn {expr : Expr} (h : AgeIndex.Evaluates expr) : expr.OnColumn "age" := by
  obtain ⟨relation, op, v, -, -, rfl⟩ := h
  exact onColumn_ageFilter relation op v

theorem DepartmentIndex.Evaluates.onColumn {expr : Expr} (h : DepartmentIndex.Evaluates expr)
    : expr.OnColumn "department" := by
  obtain ⟨relation, v, rfl⟩ := h
  exact onColumn_departmentFilter relation v

theorem CompositePkAgeIndex.Evaluates.onColumn {expr : Expr} (h : CompositePkAgeIndex.Evaluates expr)
    : expr.OnColumn "age" := by
  obtain ⟨relation, op, v, -, -, rfl⟩ := h
  exact onColumn_ageFilter relation op v

/--
Of two indexes on the age and on the department, each is read for what it evaluates.
-/
theorem IndexedTableProvider.UsesDefault.answersFor_employees {V R : Type}
    {provider : IndexedTableProvider V} {exprToColumns : ExprToColumns} {table : Table V R}
    {leaf : Expr → R → Option Bool} {filters : List Expr} {limit : Option Nat}
    {ageIndex departmentIndex : Index V} {EvaluatesAge : Expr → Prop}
    (hcollects : exprToColumns.Collects) (hdefault : provider.UsesDefault exprToColumns)
    (hindexes : provider.indexes = .ok [ageIndex, departmentIndex])
    (hcolumns : ageIndex.columnName = "age" ∧ departmentIndex.columnName = "department")
    (hschemas : ageIndex.indexSchema = table.keySchema ∧ departmentIndex.indexSchema = table.keySchema)
    (honage : ∀ expr, EvaluatesAge expr → expr.OnColumn "age")
    (hage : ∀ expr, EvaluatesAge expr → table.Answers leaf limit ageIndex expr)
    (hdepartment : ∀ expr, DepartmentIndex.Evaluates expr →
      table.Answers leaf limit departmentIndex expr)
    (hfilters : ∀ filter ∈ filters,
      (∀ expr ∈ filter.leaves, expr.OnColumn "age" ∨ expr.OnColumn "department") →
        ∀ expr ∈ filter.leaves, EvaluatesAge expr ∨ DepartmentIndex.Evaluates expr)
    : provider.AnswersFor table leaf filters limit := by
  apply hdefault.answersFor hcollects hindexes
  . simp [hcolumns]
  . simp [hschemas]
  . intro filter hfilter hsupported expr hexpr
    simp only [List.exists_mem_cons_iff, List.not_mem_nil, false_and, exists_false, or_false,
      hcolumns] at hsupported
    simp only [List.forall_mem_cons, hcolumns]
    refine ⟨?_, ?_, nofun⟩
    . intro hcolumn
      cases hfilters filter hfilter hsupported expr hexpr with
      | inl hevaluates => exact hage expr hevaluates
      | inr hevaluates => exact absurd hcolumn (not_onColumn_age hevaluates.onColumn)
    . intro hcolumn
      cases hfilters filter hfilter hsupported expr hexpr with
      | inl hevaluates => exact absurd (honage expr hevaluates) (not_onColumn_age hcolumn)
      | inr hevaluates => exact hdepartment expr hevaluates

theorem idKeyRow_injective : Function.Injective idKeyRow := by
  intro id id' h
  simpa [idKeyRow] using h

theorem tenantKeyRow_injective : Function.Injective tenantKeyRow := by
  intro key key' h
  simpa [tenantKeyRow, Prod.ext_iff] using h

theorem downcastColumn_of_columns {schema keySchema : Schema} {i : Nat} {dataType : DataType}
    (hcolumns : schema.columns = keySchema.columns)
    (h : downcastColumn keySchema i dataType = .ok ())
    : downcastColumn schema i dataType = .ok () := by
  obtain ⟨field, hfield, rfl⟩ := downcastColumn_eq_ok.mp h
  have hcolumn := congrArg (fun columns : List (String × DataType) => columns[i]?) hcolumns
  simp only [Schema.columns, List.getElem?_map, hfield, Option.map_some, Option.map_eq_some_iff,
    Prod.mk.injEq] at hcolumn
  obtain ⟨field', hfield', -, htype⟩ := hcolumn
  exact downcastColumn_eq_ok.mpr ⟨field', hfield', htype⟩

/--
The comparisons that the reference indexes know, and no other predicate.
-/
def columnLeaf {R : Type} (age : R → Int32) (department : R → String) : Expr → R → Option Bool
  | .binaryExpr (.column _) op (.literal (.int32 (some v))), row =>
    op.compareInt32.map fun holds => holds (age row) v
  | .binaryExpr (.column _) .eq (.literal (.utf8 (some v))), row => some (department row = v)
  | _, _ => none

theorem columnLeaf_evaluates {R : Type} (age : R → Int32) (department : R → String)
    : EvaluatesColumns (columnLeaf age department) age department where
  age relation op holds v row hop := by simp [columnLeaf, ageFilter, hop]
  department _ _ _ := rfl

-- `(age <= v AND department = d) OR department = d'`
def juniorsOrDepartment (v : Int32) (d d' : String) : Expr :=
  .binaryExpr (.binaryExpr (ageFilter none .ltEq v) .and (departmentFilter none d)) .or
    (departmentFilter none d')

theorem leaves_juniorsOrDepartment (v : Int32) (d d' : String)
    : (juniorsOrDepartment v d d').leaves
        =
      [ageFilter none .ltEq v, departmentFilter none d, departmentFilter none d'] := by
  simp [juniorsOrDepartment, ageFilter, departmentFilter, Expr.leaves]

namespace EmployeeTableProvider

section

variable {R : Type}

theorem length_pkIds (n : Nat) : (pkIds n).length = n := by simp [pkIds]

theorem toNat_pkId {i n : Nat} (hi : i < n) (hn : n < 2 ^ 64) : (UInt64.ofNat (i + 1)).toNat = i + 1 := by
  apply UInt64.toNat_ofNat_of_lt'
  change i + 1 < 2 ^ 64
  omega

theorem nodup_pkIds {n : Nat} (h : n < 2 ^ 64) : (pkIds n).Nodup := by
  apply List.Nodup.map_on _ List.nodup_range
  intro i hi j hj heq
  rw [List.mem_range] at hi hj
  rw [← UInt64.toNat_inj, toNat_pkId hi h, toNat_pkId hj h] at heq
  omega

theorem map_snd_zip (batch : List R)
    : (batch.zip (pkIds batch.length)).map Prod.snd = pkIds batch.length := by
  apply List.map_snd_zip
  rw [length_pkIds]

theorem map_fst_zip (batch : List R)
    : (batch.zip (pkIds batch.length)).map Prod.fst = batch := by
  apply List.map_fst_zip
  rw [length_pkIds]

theorem numbers_of_mem_zip {batch : List R} (h : batch.length < 2 ^ 64)
    {row : R × UInt64} (hrow : row ∈ batch.zip (pkIds batch.length))
    : Numbers batch row.2 row.1 := by
  obtain ⟨i, hi⟩ := List.mem_iff_getElem?.mp hrow
  rw [List.getElem?_zip_eq_some] at hi
  obtain ⟨hrow, hid⟩ := hi
  have hlt := (List.getElem?_eq_some_iff.mp hrow).1
  simp only [pkIds, List.getElem?_map, List.getElem?_range hlt, Option.map_some,
    Option.some.injEq] at hid
  exact ⟨i, by rw [← hid, toNat_pkId hlt h], hrow⟩

/--
The table under the row numbers of a batch.
-/
def table (batch : List R) (h : batch.length < 2 ^ 64) : Table KeyValue (R × UInt64) where
  keySchema := idKeySchema
  rows := batch.zip (pkIds batch.length)
  key row := idKeyRow row.2
  fields_ne_nil := by decide
  names_nodup := by decide
  keys_nodup := by
    have hkeys : (batch.zip (pkIds batch.length)).map (fun row => idKeyRow row.2)
        = (pkIds batch.length).map idKeyRow := by
      conv_rhs => rw [← map_snd_zip batch, List.map_map]
      rfl
    rw [hkeys]
    exact (nodup_pkIds h).map idKeyRow_injective
  key_length _ _ := rfl

theorem fetchedAs (schema : Schema) (batch : List R) (h : batch.length < 2 ^ 64)
    : (table batch h).FetchedAs Prod.fst (BatchMapper.mk schema [batch]).toRecordFetcher := by
  intro schema' hcolumns rows hrows
  change (BatchMapper.mk schema [batch]).fetch schema' _ = _
  refine BatchMapper.fetch_eq_ok.mpr ⟨downcastColumn_of_columns hcolumns rfl, ?_⟩
  have hids : (rows.map (table batch h).key).filterMap rowId? = rows.map Prod.snd := by
    rw [List.filterMap_map]
    exact congrFun List.filterMap_eq_map rows
  rw [hids, List.forall₂_map_left_iff, List.forall₂_map_right_iff, List.forall₂_same]
  intro row hrow
  exact numbers_of_mem_zip h (hrows hrow)

theorem ageIndex_answers {exprToColumns : ExprToColumns} {leaf : Expr → R → Option Bool}
    {age : R → Int32} (hleaf : EvaluatesAge leaf age) (batch : List R) (h : batch.length < 2 ^ 64)
    {expr : Expr} (tableName : String) (limit : Option Nat) (hexpr : AgeIndex.Evaluates expr)
    : (table batch h).Answers (fun expr row => leaf expr row.1) limit
        (memoryIndex exprToColumns "age_index" tableName "age" idKeySchema
          (AgeIndex.new ((batch.map age).zip (pkIds batch.length))).createDataFromFilters) expr := by
  obtain ⟨relation, op, v, hop, hmax, rfl⟩ := hexpr
  obtain ⟨holds, hholds⟩ := Option.ne_none_iff_exists'.mp hop
  have hpairs : (batch.map age).zip (pkIds batch.length)
      = (table batch h).rows.map fun row => (age row.1, row.2) := List.zip_map_left
  rw [hpairs]
  refine memoryIndex_answers (fun row => age row.1) Prod.snd (fun age => holds age v)
    idKeyRow_injective (fun _ _ => rfl) ?_ ?_ limit
  . intro row _
    rw [Expr.truth_of_mem_leaves (leaf_ageFilter hop relation v)]
    exact hleaf relation op holds v row.1 hholds
  . rw [← AgeIndex.idsOf_eq_none hholds (AgeIndex.new _) relation v] at hmax
    obtain ⟨ids, hids⟩ := Option.ne_none_iff_exists'.mp hmax
    exact ⟨ids, hids, AgeIndex.mem_idsOf hholds hids⟩

end

theorem stores (exprToColumns : ExprToColumns) (batch : List Employee) (unionMode : UnionMode)
    (h : batch.length < 2 ^ 64)
    : (new exprToColumns batch unionMode).Stores (table batch h) Prod.fst where
  batch := (map_fst_zip batch).symm
  mapper := fetchedAs employeeSchema batch h

theorem departmentIndex_answers {exprToColumns : ExprToColumns} {leaf : Expr → Employee → Option Bool}
    (hleaf : EvaluatesColumns leaf Employee.age Employee.department) (batch : List Employee)
    (h : batch.length < 2 ^ 64) {expr : Expr} (limit : Option Nat)
    (hexpr : DepartmentIndex.Evaluates expr)
    : (table batch h).Answers (fun expr row => leaf expr row.1) limit
        ((DepartmentIndex.new ((batch.map Employee.department).zip
          (pkIds batch.length))).toIndex exprToColumns) expr := by
  obtain ⟨relation, v, rfl⟩ := hexpr
  have hpairs : (batch.map Employee.department).zip (pkIds batch.length)
      = (table batch h).rows.map fun row => (row.1.department, row.2) := List.zip_map_left
  rw [hpairs]
  refine memoryIndex_answers (fun row => row.1.department) Prod.snd (fun department => department = v)
    idKeyRow_injective (fun _ _ => rfl) ?_ ?_ limit
  . intro row _
    rw [Expr.truth_of_mem_leaves (leaf_departmentFilter relation v)]
    exact hleaf.department relation v row.1
  . obtain ⟨ids, hids, hmem⟩ := mem_departmentKeys _ relation v
    refine ⟨ids, hids, ?_⟩
    intro id
    simp only [hmem, decide_eq_true_eq, exists_eq_left]

theorem usesDefault (exprToColumns : ExprToColumns) (batch : List Employee) (unionMode : UnionMode)
    : (new exprToColumns batch unionMode).UsesDefault exprToColumns := by
  intro indexes h index hindex
  cases h
  simp only [List.mem_cons, List.not_mem_nil, or_false] at hindex
  rcases hindex with rfl | rfl <;> rfl

/--
A query on the employees returns those that satisfy all filters, in both union modes and with any limit, if
of the filters on indexed columns only each leaf is a comparison that its index evaluates.
-/
theorem results_employees {df : DataFusion} {merge : Metadata → Metadata → Metadata} (hdf : df.Schemas)
    (hheaders : df.Headers) (horderings : df.KeyOrderings) (hmerge : df.JoinMetadata merge)
    {exprToColumns : ExprToColumns} (hcollects : exprToColumns.Collects)
    {leaf : Expr → Employee → Option Bool}
    (hleaf : EvaluatesColumns leaf Employee.age Employee.department)
    (createPhysicalExpr : CreatePhysicalExpr Employee) {batch : List Employee}
    (hlength : batch.length < 2 ^ 64) (unionMode : UnionMode) {filters : List Expr}
    (hfilters : ∀ filter ∈ filters,
      (∀ expr ∈ filter.leaves, expr.OnColumn "age" ∨ expr.OnColumn "department") →
        ∀ expr ∈ filter.leaves, AgeIndex.Evaluates expr ∨ DepartmentIndex.Evaluates expr)
    (limit : Option Nat)
    : (∃ out, (new exprToColumns batch unionMode).Results df createPhysicalExpr leaf filters limit out) ∧
        ∀ out, (new exprToColumns batch unionMode).Results df createPhysicalExpr leaf filters limit out →
          Picks limit (batch.filter (satisfiesAll leaf filters)) out := by
  have hdefault := usesDefault exprToColumns batch unionMode
  have hanswers := hdefault.answersFor_employees hcollects rfl ⟨rfl, rfl⟩ ⟨rfl, rfl⟩
    (fun _ hexpr => hexpr.onColumn) (fun _ => ageIndex_answers hleaf.age batch hlength _ limit)
    (fun _ => departmentIndex_answers hleaf batch hlength limit) hfilters
  have hreports := hdefault.supportsFiltersIndexPushdown_eq hcollects rfl filters
  have hstores := stores exprToColumns batch unionMode hlength
  constructor
  . exact TableProvider.exists_results createPhysicalExpr hdf hheaders horderings hmerge hstores hanswers
      hreports
  . intro out hout
    exact TableProvider.results_picked createPhysicalExpr hdf hheaders horderings hmerge hstores hanswers
      hreports hout

def employees : List Employee := [
  ⟨1, "Alice", 25, "Engineering"⟩,
  ⟨2, "Bob", 30, "Sales"⟩,
  ⟨3, "Charlie", 35, "Marketing"⟩,
  ⟨4, "David", 28, "Engineering"⟩,
  ⟨5, "Eve", 32, "Sales"⟩
]

theorem employees_queried
    : (∃ out, (new collectColumns employees .sequential).Results DataFusion.reference
          (.ofTruth fun _ _ => none) (columnLeaf Employee.age Employee.department)
          [juniorsOrDepartment 25 "Engineering" "Sales"] (some 2) out) ∧
        ∀ out, (new collectColumns employees .sequential).Results DataFusion.reference
            (.ofTruth fun _ _ => none) (columnLeaf Employee.age Employee.department)
            [juniorsOrDepartment 25 "Engineering" "Sales"] (some 2) out →
          out.length = 2 ∧ ∀ employee ∈ out, employee.name ∈ ["Alice", "Bob", "Eve"] := by
  have hfilters : ∀ filter ∈ [juniorsOrDepartment 25 "Engineering" "Sales"],
      (∀ expr ∈ filter.leaves, expr.OnColumn "age" ∨ expr.OnColumn "department") →
        ∀ expr ∈ filter.leaves, AgeIndex.Evaluates expr ∨ DepartmentIndex.Evaluates expr := by
    intro filter hfilter _
    rw [List.mem_singleton.mp hfilter, leaves_juniorsOrDepartment]
    simp only [List.forall_mem_cons]
    exact ⟨.inl ⟨none, .ltEq, 25, nofun, nofun, rfl⟩, .inr ⟨none, _, rfl⟩, .inr ⟨none, _, rfl⟩, nofun⟩
  have hnames : ∀ employee ∈ employees.filter (satisfiesAll
      (columnLeaf Employee.age Employee.department) [juniorsOrDepartment 25 "Engineering" "Sales"]),
        employee.name ∈ ["Alice", "Bob", "Eve"] := by decide
  have hbatch : employees.length < 2 ^ 64 := by decide
  obtain ⟨hresults, hpicks⟩ := results_employees DataFusion.reference_schemas DataFusion.reference_headers
    DataFusion.reference_keyOrderings DataFusion.reference_joinMetadata
    IndexedTableProvider.collectColumns_collects
    (columnLeaf_evaluates Employee.age Employee.department) (.ofTruth fun _ _ => none) hbatch
    .sequential hfilters (some 2)
  refine ⟨hresults, ?_⟩
  intro out hout
  obtain ⟨hsubperm, hlength⟩ := hpicks out hout
  refine ⟨hlength, ?_⟩
  intro employee hemployee
  exact hnames employee (hsubperm.subset hemployee)

end EmployeeTableProvider

namespace MultiTenantEmployeeProvider

/--
The table under the tenant and the id of its employees.
-/
def table (batch : List TenantEmployee) (h : (batch.map TenantEmployee.key).Nodup) :
    Table KeyValue TenantEmployee where
  keySchema := compositePkSchema
  rows := batch
  key row := tenantKeyRow row.key
  fields_ne_nil := by decide
  names_nodup := by decide
  keys_nodup := by
    have hkeys : batch.map (fun row => tenantKeyRow row.key)
        = (batch.map TenantEmployee.key).map tenantKeyRow := by rw [List.map_map]; rfl
    rw [hkeys]
    exact h.map tenantKeyRow_injective
  key_length _ _ := rfl

theorem find?_key {batch : List TenantEmployee} (h : (batch.map TenantEmployee.key).Nodup)
    {row : TenantEmployee} (hrow : row ∈ batch)
    : batch.find? (fun record => record.key = tenantKey ((table batch h).key row)) = some row := by
  have hfind : (table batch h).rows.find? (fun row' => (table batch h).key row' = (table batch h).key row)
      = some row := Table.find?_key hrow
  simp only [table, tenantKeyRow_injective.eq_iff] at hfind
  exact hfind

theorem stores (exprToColumns : ExprToColumns) (batch : List TenantEmployee) (unionMode : UnionMode)
    (h : (batch.map TenantEmployee.key).Nodup)
    : (new exprToColumns batch unionMode).Stores (table batch h) id where
  batch := (List.map_id batch).symm
  mapper := by
    intro schema hcolumns rows hrows
    change (CompositePkFetcher.mk batch).fetch schema _ = _
    refine CompositePkFetcher.fetch_eq_ok.mpr
      ⟨⟨downcastColumn_of_columns hcolumns rfl, downcastColumn_of_columns hcolumns rfl⟩, ?_⟩
    have hrecords : ∀ row ∈ rows, batch.find? (fun record =>
        record.key = tenantKey ((table batch h).key row)) = some row := fun row hrow =>
      find?_key h (hrows hrow)
    rw [List.filterMap_map, List.map_id]
    exact (List.filterMap_congr hrecords).trans List.filterMap_some

section

variable {exprToColumns : ExprToColumns} {leaf : Expr → TenantEmployee → Option Bool}
  (hleaf : EvaluatesColumns leaf TenantEmployee.age TenantEmployee.department)
  {batch : List TenantEmployee} (h : (batch.map TenantEmployee.key).Nodup) {expr : Expr}
  (limit : Option Nat)
include hleaf

theorem ageIndex_answers (hexpr : CompositePkAgeIndex.Evaluates expr)
    : (table batch h).Answers leaf limit
        ((CompositePkAgeIndex.new ((batch.map TenantEmployee.age).zip
          (batch.map TenantEmployee.key))).toIndex exprToColumns) expr := by
  obtain ⟨relation, op, v, ⟨hop, hcase⟩, hmax, rfl⟩ := hexpr
  obtain ⟨holds, hholds⟩ := Option.ne_none_iff_exists'.mp hop
  rw [List.zip_map']
  refine memoryIndex_answers TenantEmployee.age TenantEmployee.key (fun age => holds age v)
    tenantKeyRow_injective (fun _ _ => rfl) ?_ ?_ limit
  . intro row _
    rw [Expr.truth_of_mem_leaves (leaf_ageFilter hop relation v)]
    exact hleaf.age relation op holds v row hholds
  . exact CompositePkAgeIndex.mem_keysOf hholds hcase hmax

theorem departmentIndex_answers (hexpr : DepartmentIndex.Evaluates expr)
    : (table batch h).Answers leaf limit
        ((CompositePkDeptIndex.new ((batch.map TenantEmployee.department).zip
          (batch.map TenantEmployee.key))).toIndex exprToColumns) expr := by
  obtain ⟨relation, v, rfl⟩ := hexpr
  rw [List.zip_map']
  refine memoryIndex_answers TenantEmployee.department TenantEmployee.key
    (fun department => department = v) tenantKeyRow_injective (fun _ _ => rfl) ?_ ?_ limit
  . intro row _
    rw [Expr.truth_of_mem_leaves (leaf_departmentFilter relation v)]
    exact hleaf.department relation v row
  . obtain ⟨keys, hkeys, hmem⟩ := mem_departmentKeys _ relation v
    refine ⟨keys, hkeys, ?_⟩
    intro key
    simp only [hmem, decide_eq_true_eq, exists_eq_left]
    rfl

end

theorem usesDefault (exprToColumns : ExprToColumns) (batch : List TenantEmployee)
    (unionMode : UnionMode)
    : (new exprToColumns batch unionMode).UsesDefault exprToColumns := by
  intro indexes h index hindex
  cases h
  simp only [List.mem_cons, List.not_mem_nil, or_false] at hindex
  rcases hindex with rfl | rfl <;> rfl

/--
A query on the employees of several tenants returns those that satisfy all filters, if no two of them have
the same tenant and id. The index on the age does not evaluate `>=` and `<`.
-/
theorem results_tenantEmployees {df : DataFusion} {merge : Metadata → Metadata → Metadata} (hdf : df.Schemas)
    (hheaders : df.Headers) (horderings : df.KeyOrderings) (hmerge : df.JoinMetadata merge)
    {exprToColumns : ExprToColumns} (hcollects : exprToColumns.Collects)
    {leaf : Expr → TenantEmployee → Option Bool}
    (hleaf : EvaluatesColumns leaf TenantEmployee.age TenantEmployee.department)
    (createPhysicalExpr : CreatePhysicalExpr TenantEmployee) {batch : List TenantEmployee}
    (hkeys : (batch.map TenantEmployee.key).Nodup) (unionMode : UnionMode) {filters : List Expr}
    (hfilters : ∀ filter ∈ filters,
      (∀ expr ∈ filter.leaves, expr.OnColumn "age" ∨ expr.OnColumn "department") →
        ∀ expr ∈ filter.leaves, CompositePkAgeIndex.Evaluates expr ∨ DepartmentIndex.Evaluates expr)
    (limit : Option Nat)
    : (∃ out, (new exprToColumns batch unionMode).Results df createPhysicalExpr leaf filters limit out) ∧
        ∀ out, (new exprToColumns batch unionMode).Results df createPhysicalExpr leaf filters limit out →
          Picks limit (batch.filter (satisfiesAll leaf filters)) out := by
  have hdefault := usesDefault exprToColumns batch unionMode
  have hanswers := hdefault.answersFor_employees hcollects rfl ⟨rfl, rfl⟩ ⟨rfl, rfl⟩
    (fun _ hexpr => hexpr.onColumn) (fun _ => ageIndex_answers hleaf hkeys limit)
    (fun _ => departmentIndex_answers hleaf hkeys limit) hfilters
  have hreports := hdefault.supportsFiltersIndexPushdown_eq hcollects rfl filters
  have hstores := stores exprToColumns batch unionMode hkeys
  constructor
  . exact TableProvider.exists_results createPhysicalExpr hdf hheaders horderings hmerge hstores hanswers
      hreports
  . intro out hout
    exact TableProvider.results_picked createPhysicalExpr hdf hheaders horderings hmerge hstores hanswers
      hreports hout

def employees : List TenantEmployee := [
  ⟨"acme", 1, "Alice", 25, "Engineering"⟩,
  ⟨"acme", 2, "Bob", 30, "Sales"⟩,
  ⟨"acme", 3, "Charlie", 35, "Marketing"⟩,
  ⟨"globex", 1, "David", 28, "Engineering"⟩,
  ⟨"globex", 2, "Eve", 32, "Sales"⟩
]

theorem employees_nodup : (employees.map TenantEmployee.key).Nodup := by decide

theorem tenantEmployees_queried
    : (∃ out, (new collectColumns employees .parallel).Results DataFusion.reference
          (.ofTruth fun _ _ => none) (columnLeaf TenantEmployee.age TenantEmployee.department)
          [juniorsOrDepartment 25 "Engineering" "Sales"] none out) ∧
        ∀ out, (new collectColumns employees .parallel).Results DataFusion.reference
            (.ofTruth fun _ _ => none) (columnLeaf TenantEmployee.age TenantEmployee.department)
            [juniorsOrDepartment 25 "Engineering" "Sales"] none out →
          (out.map TenantEmployee.name).Perm ["Alice", "Bob", "Eve"] := by
  have hfilters : ∀ filter ∈ [juniorsOrDepartment 25 "Engineering" "Sales"],
      (∀ expr ∈ filter.leaves, expr.OnColumn "age" ∨ expr.OnColumn "department") →
        ∀ expr ∈ filter.leaves,
          CompositePkAgeIndex.Evaluates expr ∨ DepartmentIndex.Evaluates expr := by
    intro filter hfilter _
    rw [List.mem_singleton.mp hfilter, leaves_juniorsOrDepartment]
    simp only [List.forall_mem_cons]
    exact ⟨.inl ⟨none, .ltEq, 25, by decide, nofun, rfl⟩, .inr ⟨none, _, rfl⟩,
      .inr ⟨none, _, rfl⟩, nofun⟩
  obtain ⟨hresults, hpicks⟩ := results_tenantEmployees DataFusion.reference_schemas DataFusion.reference_headers
    DataFusion.reference_keyOrderings DataFusion.reference_joinMetadata
    IndexedTableProvider.collectColumns_collects
    (columnLeaf_evaluates TenantEmployee.age TenantEmployee.department) (.ofTruth fun _ _ => none)
    employees_nodup .parallel hfilters none
  refine ⟨hresults, ?_⟩
  intro out hout
  exact (hpicks out hout).perm.map TenantEmployee.name

-- The truth of predicates that no row satisfies.
def never : Expr → TenantEmployee → Option Bool := fun _ _ => some false

theorem truth_never {expr : Expr} (h : expr.leaves = [expr]) (row : TenantEmployee)
    : expr.truth never row = some false := by
  have hexpr : expr ∈ expr.leaves := by
    rw [h]
    exact List.mem_singleton_self expr
  rw [Expr.truth_of_mem_leaves hexpr, never]

theorem filter_never {expr : Expr} (h : expr.leaves = [expr]) (batch : List TenantEmployee)
    : batch.filter (satisfiesAll never [expr]) = [] := by
  rw [List.filter_eq_nil_iff]
  intro row _
  rw [satisfiesAll_iff, List.forall_mem_singleton, truth_never h]
  exact nofun

section

variable {exprToColumns : ExprToColumns} (hcollects : exprToColumns.Collects)
  (batch : List TenantEmployee) (unionMode : UnionMode) {expr : Expr} (hexpr : expr.leaves = [expr])
  (hcolumn : expr.OnColumn "age")
include hcollects hexpr hcolumn

theorem supportsFiltersPushdown_onColumn_age
    : (new exprToColumns batch unionMode).supportsFiltersPushdown [expr] = .ok [.exact] := by
  have hdefault := usesDefault exprToColumns batch unionMode
  refine (hdefault.supportsFiltersIndexPushdown_eq hcollects rfl _).trans ?_
  rw [List.map_singleton, if_pos]
  intro leaf hleaf
  rw [hexpr, List.mem_singleton] at hleaf
  rw [hleaf]
  exact ⟨_, List.mem_cons_self, hcolumn⟩

-- The index answers as if no record satisfied the predicate.
theorem answersFor_of_not_hasCase (hkeys : (batch.map TenantEmployee.key).Nodup)
    (hcase : ¬ CompositePkAgeIndex.HasCase expr) (limit : Option Nat)
    : (new exprToColumns batch unionMode).AnswersFor (table batch hkeys) never [expr] limit := by
  apply (usesDefault exprToColumns batch unionMode).answersFor hcollects rfl
  . have hnames : ["age", "department"].Nodup := by decide
    exact hnames
  . simp only [List.forall_mem_cons]
    exact ⟨rfl, rfl, nofun⟩
  . intro filter hfilter _ expr' hexpr'
    rw [List.mem_singleton.mp hfilter, hexpr, List.mem_singleton] at hexpr'
    rw [hexpr']
    simp only [List.forall_mem_cons]
    refine ⟨?_, ?_, nofun⟩
    . intro _
      refine memoryIndex_answers TenantEmployee.age TenantEmployee.key (fun _ => false)
        tenantKeyRow_injective (fun _ _ => rfl) (fun row _ => truth_never hexpr row) ?_ limit
      exact ⟨[], CompositePkAgeIndex.keysOf_of_not_hasCase hcase _, by simp⟩
    . intro hdepartment
      exact absurd hcolumn (not_onColumn_age hdepartment)

end

/--
What the index on the age accepts without having a case for it is reported as `Exact`, and the query returns
nothing, whether or not any record satisfies it.
-/
theorem results_of_not_hasCase {df : DataFusion} {merge : Metadata → Metadata → Metadata}
    (hdf : df.Schemas) (hheaders : df.Headers) (horderings : df.KeyOrderings)
    (hmerge : df.JoinMetadata merge) {exprToColumns : ExprToColumns} (hcollects : exprToColumns.Collects)
    (leaf : Expr → TenantEmployee → Option Bool) (createPhysicalExpr : CreatePhysicalExpr TenantEmployee)
    {batch : List TenantEmployee} (hkeys : (batch.map TenantEmployee.key).Nodup) (unionMode : UnionMode)
    {expr : Expr} (hexpr : expr.leaves = [expr]) (hcolumn : expr.OnColumn "age")
    (hcase : ¬ CompositePkAgeIndex.HasCase expr) (limit : Option Nat) (out : List TenantEmployee)
    : (new exprToColumns batch unionMode).supportsFiltersPushdown [expr] = .ok [.exact] ∧
        ((new exprToColumns batch unionMode).Results df createPhysicalExpr leaf [expr] limit out
          ↔ out = []) := by
  have hreports := supportsFiltersPushdown_onColumn_age hcollects batch unionMode hexpr hcolumn
  have hstores := stores exprToColumns batch unionMode hkeys
  have hanswers := answersFor_of_not_hasCase hcollects batch unionMode hexpr hcolumn hkeys hcase limit
  have hnil : ∀ out, (new exprToColumns batch unionMode).Results df createPhysicalExpr never [expr]
      limit out → out = [] := by
    intro out hout
    have hpicks := TableProvider.results_picked createPhysicalExpr hdf hheaders horderings hmerge hstores
      hanswers hreports hout
    have hsubset := hpicks.subperm.subset
    rw [filter_never hexpr] at hsubset
    exact List.subset_nil.mp hsubset
  refine ⟨hreports, ?_, ?_⟩
  . intro hout
    exact hnil out (TableProvider.results_congr createPhysicalExpr hreports rfl hout)
  . intro hout
    obtain ⟨out', hout'⟩ := TableProvider.exists_results createPhysicalExpr hdf hheaders horderings hmerge
      hstores hanswers hreports
    rw [hout, ← hnil out' hout']
    exact TableProvider.results_congr createPhysicalExpr hreports rfl hout'

theorem seniors_not_returned
    : (new collectColumns employees .parallel).supportsFiltersPushdown [ageFilter none .gtEq 30]
          = .ok [.exact] ∧
        (∀ out, (new collectColumns employees .parallel).Results DataFusion.reference
          (.ofTruth fun _ _ => none) (columnLeaf TenantEmployee.age TenantEmployee.department)
          [ageFilter none .gtEq 30] none out → out = []) ∧
          ((employees.filter (satisfiesAll (columnLeaf TenantEmployee.age TenantEmployee.department)
            [ageFilter none .gtEq 30])).map TenantEmployee.name) = ["Bob", "Charlie", "Eve"] := by
  have hcase : ¬ CompositePkAgeIndex.HasCase (ageFilter none .gtEq 30) := by
    rintro ⟨relation, op, v, ⟨-, hop, -⟩, h⟩
    cases h
    exact hop rfl
  have hreturns := results_of_not_hasCase DataFusion.reference_schemas DataFusion.reference_headers
    DataFusion.reference_keyOrderings DataFusion.reference_joinMetadata
    IndexedTableProvider.collectColumns_collects
    (columnLeaf TenantEmployee.age TenantEmployee.department) (.ofTruth fun _ _ => none)
    employees_nodup .parallel rfl (onColumn_ageFilter none .gtEq 30) hcase none
  refine ⟨(hreturns []).1, ?_, by decide⟩
  intro out hout
  exact (hreturns out).2.mp hout

end MultiTenantEmployeeProvider

end IndexProvider
