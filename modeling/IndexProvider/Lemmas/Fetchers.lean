import IndexProvider.Library.Collect
import IndexProvider.Impl.Employees
import IndexProvider.Semantics.Relational

/-!
This module contains what the record fetchers of the tests return: record by record what their keys stand
for, however the keys are split into batches.
-/

namespace IndexProvider

variable {V R : Type}

/--
A fetch succeeds exactly if every key has records, and then returns these in the order of the keys.
-/
def RecordFetcher.Keywise (fetcher : RecordFetcher V R) (schema : Schema)
    (records : Row V → List R → Prop) : Prop :=
  ∀ keys rows, fetcher.fetch schema keys = .ok rows
    ↔ ∃ rowss, List.Forall₂ records keys rowss ∧ rows = rowss.flatten

namespace RecordFetcher.Keywise

variable {fetcher : RecordFetcher V R} {schema : Schema} {records : Row V → List R → Prop}

theorem mapM_fetch (h : fetcher.Keywise schema records) (batches : List (Batch V)) (rows : List R)
    : (∃ fetched, batches.mapM (fetcher.fetch schema) = .ok fetched ∧ rows = fetched.flatten)
        ↔
      ∃ rowss, List.Forall₂ records batches.flatten rowss ∧ rows = rowss.flatten := by
  induction batches generalizing rows with
  | nil =>
    constructor
    . intro hfetched
      obtain ⟨_, hnil, rfl⟩ := hfetched
      cases hnil
      exact ⟨[], .nil, rfl⟩
    . intro hrows
      obtain ⟨_, hnil, rfl⟩ := hrows
      cases hnil
      exact ⟨[], rfl, rfl⟩
  | cons batch batches ih =>
    constructor
    . intro hfetched
      obtain ⟨_, hfetched, rfl⟩ := hfetched
      rw [Collect.mapM_eq_ok] at hfetched
      cases hfetched with
      | @cons _ head _ tail hhead htail =>
        obtain ⟨heads, hheads, rfl⟩ := (h batch head).mp hhead
        obtain ⟨tails, htails, htail⟩ := (ih _).mp ⟨tail, Collect.mapM_eq_ok.mpr htail, rfl⟩
        refine ⟨heads ++ tails, List.rel_append hheads htails, ?_⟩
        rw [List.flatten_cons, List.flatten_append, htail]
    . intro hrows
      obtain ⟨rowss, hrowss, rfl⟩ := hrows
      rw [List.flatten_cons, Collect.forall₂_append_left] at hrowss
      obtain ⟨heads, tails, hheads, htails, rfl⟩ := hrowss
      obtain ⟨tail, htail, hrows⟩ := (ih _).mpr ⟨tails, htails, rfl⟩
      refine ⟨heads.flatten :: tail, ?_, ?_⟩
      . exact Collect.mapM_eq_ok.mpr
          (.cons ((h batch _).mpr ⟨heads, hheads, rfl⟩) (Collect.mapM_eq_ok.mp htail))
      . rw [List.flatten_append, List.flatten_cons, hrows]

/--
The fetch returns the records of the keys that its input emits. How the keys arrive in batches makes no
difference.
-/
theorem returns_iff [DecidableEq V] {exec : RecordFetchExec V R}
    (h : exec.recordFetcher.Keywise exec.input.schema records) (rows : List R)
    : exec.Returns rows
        ↔
      ∃ keys rowss, exec.input.Emits keys ∧ List.Forall₂ records keys rowss ∧
        rows = rowss.flatten := by
  have hflatten : ∀ batches : List (Batch V),
      (batches.filter fun batch => batch.length > 0).flatten = batches.flatten := by
    intro batches
    have hnonempty : (fun batch : Batch V => decide (batch.length > 0)) = fun batch => !batch.isEmpty := by
      funext batch
      cases batch <;> simp
    rw [hnonempty, List.flatten_filter_not_isEmpty]
  constructor
  . intro hreturns
    obtain ⟨batches, fetched, hemits, hfetched, hrows⟩ := hreturns
    obtain ⟨rowss, hrowss, heq⟩ := (h.mapM_fetch _ rows).mp ⟨fetched, hfetched, hrows⟩
    rw [hflatten] at hrowss
    exact ⟨_, rowss, hemits, hrowss, heq⟩
  . intro hreturns
    obtain ⟨keys, rowss, hemits, hrowss, heq⟩ := hreturns
    have hkeys : [keys].flatten = keys := List.flatten_singleton
    rw [← hkeys, ← hflatten] at hrowss
    obtain ⟨fetched, hfetched, hrows⟩ := (h.mapM_fetch _ rows).mpr ⟨rowss, hrowss, heq⟩
    exact ⟨[keys], fetched, by rwa [hkeys], hfetched, hrows⟩

end RecordFetcher.Keywise

theorem expectColumn_eq_ok {message : String} {schema : Schema} {i : Nat} {dataType : DataType}
    : expectColumn message schema i dataType = .ok ()
        ↔
      ∃ field, schema.fields[i]? = some field ∧ field.dataType = dataType := by
  unfold expectColumn
  cases schema.fields[i]? with
  | none => simp
  | some field =>
    by_cases h : field.dataType = dataType
    . simp [h]
    . simp [h]

theorem downcastColumn_eq_ok {schema : Schema} {i : Nat} {dataType : DataType}
    : downcastColumn schema i dataType = .ok ()
        ↔
      ∃ field, schema.fields[i]? = some field ∧ field.dataType = dataType :=
  expectColumn_eq_ok

-- The id is the number of the row in the batch, counted from one.
def Numbers (batch : List R) (id : UInt64) (row : R) : Prop :=
  ∃ i, id.toNat = i + 1 ∧ batch[i]? = some row

theorem numbers_iff {batch : List R} {id : UInt64} {row : R}
    : Numbers batch id row ↔ ∃ index, position id = .ok index ∧ takeRow batch index = .ok row := by
  have htake : ∀ index : UInt64, takeRow batch index = .ok row ↔ batch[index.toNat]? = some row := by
    intro index
    unfold takeRow
    cases batch[index.toNat]? <;> simp
  by_cases hzero : id = 0
  . subst hzero
    simp [Numbers, position]
  . have hne : id.toNat ≠ 0 := by
      intro hid
      exact hzero (UInt64.toNat_inj.mp hid)
    have hsub : (id - 1).toNat = id.toNat - 1 := by
      rw [UInt64.toNat_sub_of_le]
      . rfl
      . rw [UInt64.le_iff_toNat_le]
        exact Nat.one_le_iff_ne_zero.mpr hne
    have hindex : ∀ index, position id = .ok index ↔ id - 1 = index := by simp [position, hzero]
    simp only [hindex, htake, exists_eq_left', hsub]
    constructor
    . intro h
      obtain ⟨i, hi, hrow⟩ := h
      rw [hi]
      exact hrow
    . intro hrow
      exact ⟨id.toNat - 1, by omega, hrow⟩

theorem applyRowFilter_eq_ok {batch rows : List R} {ids : List UInt64}
    : applyRowFilter batch ids = .ok rows ↔ List.Forall₂ (Numbers batch) ids rows := by
  simp only [applyRowFilter, Collect.bind_eq_ok, Collect.mapM_eq_ok]
  constructor
  . intro h
    obtain ⟨indices, hindices, hrows⟩ := h
    refine Collect.forall₂_trans ?_ hindices hrows
    intro id index row hindex hrow
    exact numbers_iff.mpr ⟨index, hindex, hrow⟩
  . intro h
    induction h with
    | nil => exact ⟨[], .nil, .nil⟩
    | cons hrow _ ih =>
      obtain ⟨index, hindex, hrow⟩ := numbers_iff.mp hrow
      obtain ⟨indices, hindices, hrows⟩ := ih
      exact ⟨index :: indices, .cons hindex hindices, .cons hrow hrows⟩

theorem BatchMapper.fetch_eq_ok {schema indexSchema : Schema} {batch : List R} {batches : List (List R)}
    {keys : Batch KeyValue} {rows : List R}
    : (BatchMapper.mk schema (batch :: batches)).fetch indexSchema keys = .ok rows
        ↔
      downcastColumn indexSchema 0 .uint64 = .ok () ∧
        List.Forall₂ (Numbers batch) (keys.filterMap rowId?) rows := by
  simp only [fetch, Collect.bind_eq_ok, applyRowFilter_eq_ok, Unique.exists_iff, PUnit.default_eq_unit]

theorem BatchMapper.keywise (schema : Schema) {indexSchema : Schema} (batch : List R)
    (batches : List (List R)) (h : downcastColumn indexSchema 0 .uint64 = .ok ())
    : (BatchMapper.mk schema (batch :: batches)).toRecordFetcher.Keywise indexSchema
        fun key rows => List.Forall₂ (Numbers batch) (rowId? key).toList rows := by
  intro keys rows
  rw [toRecordFetcher, fetch_eq_ok, ← Collect.forall₂_flatMap_left,
    List.filterMap_eq_flatMap_toList]
  simp only [h, true_and]

/--
The two fetchers by row number agree where they succeed; they panic with different messages.
-/
theorem InMemoryFetcher.fetch_eq_ok {schema indexSchema : Schema} {batch rows : List R}
    {keys : Batch KeyValue}
    : (InMemoryFetcher.mk schema batch).fetch indexSchema keys = .ok rows
        ↔
      (BatchMapper.mk schema [batch]).fetch indexSchema keys = .ok rows := by
  rw [BatchMapper.fetch_eq_ok, downcastColumn_eq_ok, ← applyRowFilter_eq_ok]
  simp only [fetch, Collect.bind_eq_ok, applyRowFilter, expectColumn_eq_ok, Unique.exists_iff,
    PUnit.default_eq_unit]

theorem CompositePkFetcher.fetch_eq_ok {data rows : List TenantEmployee} {indexSchema : Schema}
    {keys : Batch KeyValue}
    : (CompositePkFetcher.mk data).fetch indexSchema keys = .ok rows
        ↔
      (downcastColumn indexSchema 0 .utf8 = .ok () ∧ downcastColumn indexSchema 1 .uint64 = .ok ()) ∧
        keys.filterMap (fun key => data.find? fun record => record.key = tenantKey key) = rows := by
  simp only [fetch, Collect.bind_eq_ok, Collect.pure_eq_ok, Unique.exists_iff, PUnit.default_eq_unit, and_assoc]

theorem CompositePkFetcher.keywise {indexSchema : Schema} (data : List TenantEmployee)
    (htenant : downcastColumn indexSchema 0 .utf8 = .ok ())
    (hemployee : downcastColumn indexSchema 1 .uint64 = .ok ())
    : (CompositePkFetcher.mk data).toRecordFetcher.Keywise indexSchema
        fun key rows =>
          List.Forall₂ Eq (data.find? fun record => record.key = tenantKey key).toList rows := by
  intro keys rows
  rw [toRecordFetcher, fetch_eq_ok, ← Collect.forall₂_flatMap_left, List.forall₂_eq_eq_eq,
    List.filterMap_eq_flatMap_toList]
  simp only [htenant, hemployee, and_self, true_and]

/--
The fetch by row number succeeds exactly if every id is the number of a row, and returns these rows in the
order of the ids. NULL ids are passed over.
-/
theorem BatchMapper.returns_numbered_rows {exec : RecordFetchExec KeyValue R} {schema : Schema}
    {batch : List R} {batches : List (List R)}
    (hmapper : exec.recordFetcher = (BatchMapper.mk schema (batch :: batches)).toRecordFetcher)
    (hcolumn : downcastColumn exec.input.schema 0 .uint64 = .ok ()) (rows : List R)
    : exec.Returns rows
        ↔
      ∃ keys, exec.input.Emits keys ∧ List.Forall₂ (Numbers batch) (keys.filterMap rowId?) rows := by
  have h := keywise schema batch batches hcolumn
  rw [← hmapper] at h
  rw [h.returns_iff]
  simp only [exists_and_left, ← Collect.forall₂_flatMap_left, List.filterMap_eq_flatMap_toList]

def fetchOf (fetcher : RecordFetcher KeyValue R) (keySchema : Schema) (keys : List (Row KeyValue)) :
    RecordFetchExec KeyValue R where
  indexes := []
  limit := none
  recordFetcher := fetcher
  input := .source ⟨keySchema, ⟨[]⟩, none, 1⟩ [[keys]]
  schema := fetcher.schema
  unionMode := .parallel

theorem rows_fetched_by_number
    : (fetchOf (BatchMapper.mk employeeSchema [["Alice", "Bob"]]).toRecordFetcher idKeySchema
          [idKeyRow 2, [none], idKeyRow 1]).Returns ["Bob", "Alice"] ∧
        ∀ rows, ¬ (fetchOf (BatchMapper.mk employeeSchema [["Alice", "Bob"]]).toRecordFetcher
          idKeySchema [idKeyRow 0]).Returns rows := by
  constructor
  . refine (BatchMapper.returns_numbered_rows rfl rfl _).mpr ⟨[idKeyRow 2, [none], idKeyRow 1], .refl _, ?_⟩
    exact .cons ⟨1, rfl, rfl⟩ (.cons ⟨0, rfl, rfl⟩ .nil)
  . intro rows h
    obtain ⟨keys, hemits, hrows⟩ := (BatchMapper.returns_numbered_rows rfl rfl _).mp h
    rw [List.perm_singleton.mp hemits] at hrows
    cases hrows with
    | cons hrow _ =>
      obtain ⟨i, hi, -⟩ := hrow
      cases hi

/--
The fetch by tenant and employee id returns the first record of each key that has one, in the order of the
keys.
-/
theorem CompositePkFetcher.returns_found_records {exec : RecordFetchExec KeyValue TenantEmployee}
    {data : List TenantEmployee}
    (hfetcher : exec.recordFetcher = (CompositePkFetcher.mk data).toRecordFetcher)
    (htenant : downcastColumn exec.input.schema 0 .utf8 = .ok ())
    (hemployee : downcastColumn exec.input.schema 1 .uint64 = .ok ()) (rows : List TenantEmployee)
    : exec.Returns rows
        ↔
      ∃ keys, exec.input.Emits keys ∧
        rows = keys.filterMap fun key => data.find? fun record => record.key = tenantKey key := by
  have h := keywise data htenant hemployee
  rw [← hfetcher] at h
  rw [h.returns_iff]
  simp only [exists_and_left, ← Collect.forall₂_flatMap_left]
  simp only [List.forall₂_eq_eq_eq, List.filterMap_eq_flatMap_toList, eq_comm]

theorem records_fetched_by_key
    : (fetchOf (CompositePkFetcher.mk [⟨"acme", 1, "Alice", 25, "Engineering"⟩,
          ⟨"acme", 2, "Bob", 30, "Sales"⟩]).toRecordFetcher compositePkSchema
          [tenantKeyRow ("acme", 2), tenantKeyRow ("globex", 2)]).Returns
        [⟨"acme", 2, "Bob", 30, "Sales"⟩] := by
  refine (CompositePkFetcher.returns_found_records rfl rfl rfl _).mpr
    ⟨[tenantKeyRow ("acme", 2), tenantKeyRow ("globex", 2)], .refl _, ?_⟩
  decide

end IndexProvider
