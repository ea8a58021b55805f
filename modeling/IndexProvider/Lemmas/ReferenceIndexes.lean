import IndexProvider.Lemmas.AgeIndex
import IndexProvider.Impl.ReferenceIndexes
import IndexProvider.Lemmas.FilteredScan

/-!
This module contains what the scans of the reference indexes return: in ascending order the keys of the
rows that meet the predicate, each of them once.
-/

namespace IndexProvider

open OrderedGroups OrderedKeys Enumeration NamedTuple

section Scans

variable {κ : Type} (cmp : κ → κ → Ordering) (row : κ → Row KeyValue)
  (keysOf : Expr → Option (List κ)) (filters : List Expr) (limit : Option Nat)

theorem createDataFromFilters_eq
    : (createDataFromFilters cmp row keysOf filters limit).map List.flatten
        =
      (collect cmp keysOf filters).map fun keys => (takeLimit limit keys).map row := by
  unfold createDataFromFilters
  cases collect cmp keysOf filters with
  | none => rfl
  | some keys =>
    simp only [Option.map_some, Option.bind_eq_bind, Option.bind_some]
    cases takeLimit limit keys with
    | nil => rfl
    | cons key keys => exact congrArg some (List.append_nil _)

variable {exprToColumns : ExprToColumns} {name tableName columnName : String} {indexSchema : Schema}

omit filters limit in
theorem memoryIndex_scan_eq_ok {data : List Expr → Option Nat → Option (List (Batch KeyValue))}
    {filters : List Expr} {limit : Option Nat} {stream : RecordBatchStream KeyValue}
    : (memoryIndex exprToColumns name tableName columnName indexSchema data).scan filters limit
          = .ok stream
        ↔
      ∃ batches, data filters limit = some batches ∧ .complete batches = stream := by
  unfold memoryIndex
  dsimp only
  cases data filters limit <;> simp

theorem memoryIndex_scan {keys : List κ} (h : collect cmp keysOf filters = some keys)
    : ∃ batches, (memoryIndex exprToColumns name tableName columnName indexSchema
          (createDataFromFilters cmp row keysOf)).scan filters limit = .ok (.complete batches) ∧
        batches.flatten = (takeLimit limit keys).map row := by
  have heq := createDataFromFilters_eq cmp row keysOf filters limit
  rw [h, Option.map_some, Option.map_eq_some_iff] at heq
  obtain ⟨batches, hbatches, hflatten⟩ := heq
  exact ⟨batches, memoryIndex_scan_eq_ok.mpr ⟨batches, hbatches, rfl⟩, hflatten⟩

/--
A scan for some filters succeeds exactly if no filter makes it panic. It then returns in ascending order the
first keys of those that any of the filters adds, each of them once.
-/
theorem memoryIndex_scan_iff [Std.TransCmp cmp] [Std.LawfulEqCmp cmp]
    : (∃ keys : List κ, keys.Pairwise (fun a b => cmp a b = .lt) ∧
          (∀ key, key ∈ keys ↔ ∃ filter ∈ filters, ∃ added, keysOf filter = some added ∧ key ∈ added) ∧
            ∃ batches, (memoryIndex exprToColumns name tableName columnName indexSchema
                (createDataFromFilters cmp row keysOf)).scan filters limit = .ok (.complete batches) ∧
              batches.flatten = (takeLimit limit keys).map row)
        ↔
      ∀ filter ∈ filters, keysOf filter ≠ none := by
  have hnone : collect cmp keysOf filters ≠ none ↔ ∀ filter ∈ filters, keysOf filter ≠ none := by
    simp [collect_eq_none]
  rw [← hnone]
  constructor
  . intro h hcollect
    obtain ⟨_, -, -, batches, hbatches, -⟩ := h
    have heq := createDataFromFilters_eq cmp row keysOf filters limit
    obtain ⟨_, hdata, -⟩ := memoryIndex_scan_eq_ok.mp hbatches
    rw [hdata, hcollect] at heq
    cases heq
  . intro h
    obtain ⟨keys, hkeys⟩ := Option.ne_none_iff_exists'.mp h
    exact ⟨keys, pairwise_collect hkeys, mem_collect hkeys,
      memoryIndex_scan cmp row keysOf filters limit hkeys⟩

end Scans

/--
The tests and the example compute the same batches.
-/
theorem AgeIndex.createDataFromFilters_eq_scan (self : AgeIndex) (filters : List Expr)
    (limit : Option Nat)
    : self.createDataFromFilters filters limit
        =
      (self.scan filters limit).map (List.map (List.map (List.map (Option.map .uint64)))) := by
  unfold AgeIndex.createDataFromFilters IndexProvider.createDataFromFilters scan matchingIds
  cases collect compare self.idsOf filters with
  | none => rfl
  | some ids =>
    simp only [Option.map_some, Option.bind_eq_bind, Option.bind_some]
    cases takeLimit limit ids with
    | nil => rfl
    | cons id ids =>
      simp [idKeyRow]

theorem Table.Answers.of_scan {V R : Type} {table : Table V R} {leaf : Expr → R → Option Bool}
    {index : Index V} {filter : Expr} {keys : List (Row V)}
    (hschema : index.indexSchema = table.keySchema) (hnodup : keys.Nodup)
    (hmem : ∀ key, key ∈ keys ↔ key ∈ table.matching leaf filter)
    (hscan : ∀ limit, ∃ batches, index.scan [filter] limit = .ok (.complete batches) ∧
      batches.flatten = takeLimit limit keys)
    (limit : Option Nat)
    : table.Answers leaf limit index filter := by
  have hperm : keys.Perm (table.matching leaf filter) :=
    (List.perm_ext_iff_of_nodup hnodup (matching_nodup filter)).mpr hmem
  have hlength : ∀ key ∈ keys, key.length = table.keySchema.names.length := by
    intro key hkey
    obtain ⟨row, hrow, rfl⟩ := List.mem_map.mp ((hmem key).mp hkey)
    exact table.key_length row (List.mem_of_mem_filter hrow)
  have hscans : ∀ (P : List (Row V) → Prop) (limit : Option Nat), P (takeLimit limit keys) →
      table.Scans P index filter limit := by
    intro P limit hP
    obtain ⟨batches, hbatches, hflatten⟩ := hscan limit
    have htake : ∀ key ∈ batches.flatten, key.length = table.keySchema.names.length := by
      intro key hkey
      rw [hflatten] at hkey
      apply hlength key
      cases limit with
      | none => exact hkey
      | some n => exact List.mem_of_mem_take hkey
    have hselect : batches.flatten.map (select table.keySchema.names table.keySchema.names)
        = batches.flatten := by
      conv_rhs => rw [← List.map_id batches.flatten]
      apply List.map_congr_left
      intro key hkey
      exact select_self table.names_nodup (htake key hkey)
    refine ⟨by rw [hschema], batches, hbatches, ?_, ?_⟩
    . rw [hschema]
      exact htake
    . rw [hschema, hselect, hflatten]
      exact hP
  refine ⟨hscans _ none hperm, ?_⟩
  intro n _
  refine hscans _ (some n) ⟨hnodup.sublist (keys.take_sublist n), ?_, ?_⟩
  . intro key hkey
    exact (hmem key).mp (List.mem_of_mem_take hkey)
  . simp [takeLimit, hperm.length_eq]

/--
A reference index answers a predicate if the keys that it adds are those of the rows that meet it.
-/
theorem memoryIndex_answers {κ γ R : Type} {cmp : κ → κ → Ordering} [Std.TransCmp cmp]
    [Std.LawfulEqCmp cmp] {row : κ → Row KeyValue} {keysOf : Expr → Option (List κ)}
    {exprToColumns : ExprToColumns} {name tableName columnName : String} {table : Table KeyValue R}
    {leaf : Expr → R → Option Bool} {filter : Expr} (group : R → γ) (keyOf : R → κ) (holds : γ → Bool)
    (hrow : Function.Injective row) (hkey : ∀ record ∈ table.rows, table.key record = row (keyOf record))
    (htruth : ∀ record ∈ table.rows, filter.truth leaf record = some (holds (group record)))
    (hadded : ∃ added, keysOf filter = some added ∧ ∀ key, key ∈ added ↔ ∃ g, holds g = true ∧
      (g, key) ∈ table.rows.map fun record => (group record, keyOf record))
    (limit : Option Nat)
    : table.Answers leaf limit (memoryIndex exprToColumns name tableName columnName table.keySchema
        (createDataFromFilters cmp row keysOf)) filter := by
  obtain ⟨added, hadded, hmem⟩ := hadded
  have hcollect : collect cmp keysOf [filter] ≠ none := by simp [collect_eq_none, hadded]
  obtain ⟨keys, hkeys⟩ := Option.ne_none_iff_exists'.mp hcollect
  have hkeys_mem : ∀ key, key ∈ keys ↔ ∃ record ∈ table.rows, holds (group record) = true ∧
      keyOf record = key := by
    intro key
    simp [mem_collect hkeys, hadded, hmem, and_left_comm]
  refine .of_scan rfl ((nodup_collect hkeys).map hrow) ?_ ?_ limit
  . intro key
    simp only [List.mem_map, hkeys_mem, Table.matching, List.mem_filter, decide_eq_true_eq]
    constructor
    . intro h
      obtain ⟨_, ⟨record, hrecord, hholds, rfl⟩, rfl⟩ := h
      exact ⟨record, ⟨hrecord, by rw [htruth record hrecord, hholds]⟩, hkey record hrecord⟩
    . intro h
      obtain ⟨record, ⟨hrecord, hholds⟩, rfl⟩ := h
      rw [htruth record hrecord, Option.some_inj] at hholds
      exact ⟨keyOf record, ⟨record, hrecord, hholds, rfl⟩, (hkey record hrecord).symm⟩
  . intro limit
    rw [← map_takeLimit]
    exact memoryIndex_scan cmp row keysOf [filter] limit hkeys

def departmentFilter (relation : Option String) (v : String) : Expr :=
  .binaryExpr (.column ⟨relation, "department"⟩) .eq (.literal (.utf8 (some v)))

theorem mem_departmentKeys {κ : Type} (pairs : List (String × κ)) (relation : Option String) (v : String)
    : ∃ keys, departmentKeys (ofPairs pairs) (departmentFilter relation v) = some keys ∧
        ∀ key, key ∈ keys ↔ (v, key) ∈ pairs :=
  ⟨_, rfl, fun _ => mem_ofPairs⟩

def tenantDepartments : List (String × TenantKey) :=
  [("Sales", ("globex", 2)), ("Marketing", ("acme", 3)), ("Sales", ("acme", 2)),
    ("Engineering", ("globex", 1))]

theorem tenantDepartments_scanned
    : ∃ keys : List TenantKey, keys.Pairwise (fun a b => comparePairs a b = .lt) ∧
        (∀ key, key ∈ keys ↔ ("Sales", key) ∈ tenantDepartments ∨ ("Marketing", key) ∈ tenantDepartments) ∧
          ∃ batches, ((CompositePkDeptIndex.new tenantDepartments).toIndex collectColumns).scan
              [departmentFilter none "Sales", departmentFilter none "Marketing"] (some 2)
                = .ok (.complete batches) ∧
            batches.flatten = (takeLimit (some 2) keys).map tenantKeyRow := by
  obtain ⟨sales, hsales, hmemsales⟩ := mem_departmentKeys tenantDepartments none "Sales"
  obtain ⟨marketing, hmarketing, hmemmarketing⟩ := mem_departmentKeys tenantDepartments none "Marketing"
  obtain ⟨keys, hpairwise, hmem, hscan⟩ := (memoryIndex_scan_iff comparePairs tenantKeyRow
    (departmentKeys (ofPairs tenantDepartments))
    [departmentFilter none "Sales", departmentFilter none "Marketing"] (some 2)).mpr
      (by simp [hsales, hmarketing])
  refine ⟨keys, hpairwise, ?_, hscan⟩
  intro key
  simp [hmem, hsales, hmarketing, hmemsales, hmemmarketing]

namespace CompositePkAgeIndex

variable {pairs : List (Int32 × TenantKey)} {op : Operator} {holds : Int32 → Int32 → Bool}

theorem mem_keysOf (hop : op.compareInt32 = some holds) (hcase : op ≠ .gtEq ∧ op ≠ .lt)
    {relation : Option String} {v : Int32} (hmax : ¬ (op = .gt ∧ v = Int32.maxValue))
    : ∃ keys, (new pairs).keysOf (ageFilter relation op v) = some keys ∧
        ∀ key, key ∈ keys ↔ ∃ age, holds age v = true ∧ (age, key) ∈ pairs := by
  cases op <;> simp [Operator.compareInt32] at hop hcase <;> subst hop <;>
    simp only [keysOf, ageFilter, new, ne_eq, not_true_eq_false, if_false]
  case eq =>
    refine ⟨_, rfl, ?_⟩
    intro key
    rw [mem_ofPairs]
    simp
  case gt =>
    have hsucc : AgeIndex.succ v ≠ none := by simpa [AgeIndex.succ_eq_none] using hmax
    obtain ⟨next, hnext⟩ := Option.ne_none_iff_exists'.mp hsucc
    refine ⟨_, by rw [hnext, Option.map_some], ?_⟩
    intro key
    simp [mem_range_ofPairs, AgeIndex.succ_le_iff hnext]
  case ltEq =>
    refine ⟨_, rfl, ?_⟩
    intro key
    rw [mem_range_ofPairs]

/--
The predicates that the scan has a case for.
-/
def HasCase (predicate : Expr) : Prop :=
  ∃ relation op v, (Operator.compareInt32 op ≠ none ∧ op ≠ .gtEq ∧ op ≠ .lt) ∧
    predicate = ageFilter relation op v

theorem keysOf_of_not_hasCase {predicate : Expr} (h : ¬ HasCase predicate) (self : CompositePkAgeIndex)
    : self.keysOf predicate = some [] := by
  unfold keysOf
  split
  . next c op v =>
    obtain ⟨relation, name⟩ := c
    split
    . rfl
    . next hname =>
      have hage : name = "age" := not_not.mp hname
      have hcase : ¬ (Operator.compareInt32 op ≠ none ∧ op ≠ .gtEq ∧ op ≠ .lt) := by
        intro hop
        exact h ⟨relation, op, v, hop, by rw [ageFilter, hage]⟩
      cases op <;> simp [Operator.compareInt32] at hcase <;> rfl
  . rfl

end CompositePkAgeIndex

end IndexProvider
