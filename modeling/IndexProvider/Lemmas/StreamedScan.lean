import IndexProvider.Lemmas.LimitedScan
import IndexProvider.Lemmas.LimitedFetch

/-!
This module connects the state machine of `RecordFetchStream` to the rows a fetch returns: polling the
stream, with any batches and any timing, yields the rows that the relational meaning of the plan
allows.
-/

namespace IndexProvider

open Polling RecordFetchStream Enumeration

variable {V R : Type}

namespace RecordFetchStream

/--
The rows of the record batches among the items that polls returned.
-/
def rowsOf (items : List (Option (Result (List R)))) : List R :=
  items.flatMap fun
    | some (.ok batch) => batch
    | _ => []

@[simp]
theorem rowsOf_ok (batch : List R) (items : List (Option (Result (List R))))
    : rowsOf (some (.ok batch) :: items) = batch ++ rowsOf items := rfl

@[simp]
theorem rowsOf_append (items items' : List (Option (Result (List R))))
    : rowsOf (items ++ items') = rowsOf items ++ rowsOf items' := List.flatMap_append

@[simp]
theorem rowsOf_ends (n : Nat)
    : rowsOf (List.replicate n (none : Option (Result (List R)))) = [] := by
  induction n with
  | zero => rfl
  | succ n ih => exact ih

theorem rowsOf_fetched (fetched : List (List R))
    : rowsOf (((fetched.filter fun rows => rows.length > 0).map Except.ok).map some)
        =
      fetched.flatten := by
  induction fetched with
  | nil => rfl
  | cons rows fetched ih =>
    by_cases hrows : rows.length > 0
    . rw [List.filter_cons_of_pos (by simpa using hrows), List.map_cons, List.map_cons, rowsOf_ok, ih,
        List.flatten_cons]
    . have hnil : rows = [] := by
        rw [← List.length_eq_zero_iff]
        omega
      rw [List.filter_cons_of_neg (by simpa using hrows), ih, hnil, List.flatten_cons, List.nil_append]

theorem rowsOf_isPrefix {items items' : List (Option (Result (List R)))} (h : items <+: items')
    : rowsOf items <+: rowsOf items' := by
  obtain ⟨rest, rfl⟩ := h
  rw [rowsOf_append]
  exact List.prefix_append _ _

section Fetches

variable {fetches : Nat → Batch V → FetchScript R} {fetch : Batch V → Result (List R)}
  (hresults : ∀ k batch, (fetches k batch).result = fetch batch)
include hresults

theorem fetchAll_of_ok (k : Nat) {batches : List (Batch V)} {fetched : List (List R)}
    (h : (batches.filter fun batch => batch.length > 0).mapM fetch = .ok fetched)
    : fetchAll fetches k (batches.map .ok)
        =
      (fetched.filter fun rows => rows.length > 0).map .ok := by
  induction batches generalizing k fetched with
  | nil =>
    cases h
    rfl
  | cons batch batches ih =>
    rw [List.map_cons, fetchAll]
    by_cases hempty : batch.length > 0
    . rw [List.filter_cons_of_pos (by simpa using hempty), List.mapM_cons, Collect.bind_eq_ok] at h
      obtain ⟨rows, hrows, h⟩ := h
      rw [Collect.bind_eq_ok] at h
      obtain ⟨rest, hrest, h⟩ := h
      rw [Collect.pure_eq_ok] at h
      rw [if_pos hempty, hresults, hrows, ← h, ih (k + 1) hrest]
      by_cases hnone : rows.length > 0
      . rw [List.filter_cons_of_pos (by simpa using hnone)]
        simp only [if_pos hnone, List.map_cons]
      . rw [List.filter_cons_of_neg (by simpa using hnone)]
        simp only [if_neg hnone]
    . rw [List.filter_cons_of_neg (by simpa using hempty)] at h
      rw [if_neg hempty]
      exact ih k h

theorem exists_fetched_of_no_error (k : Nat) {batches : List (Batch V)}
    (h : ∀ e, .error e ∉ fetchAll fetches k (batches.map .ok))
    : ∃ fetched, (batches.filter fun batch => batch.length > 0).mapM fetch = .ok fetched := by
  induction batches generalizing k with
  | nil => exact ⟨[], rfl⟩
  | cons batch batches ih =>
    rw [List.map_cons, fetchAll] at h
    by_cases hempty : batch.length > 0
    . rw [if_pos hempty, hresults] at h
      cases hrows : fetch batch with
      | error e => simp [hrows] at h
      | ok rows =>
        have hrest : ∀ e, .error e ∉ fetchAll fetches (k + 1) (batches.map .ok) := by
          intro e hmem
          apply h e
          simp only [hrows]
          split
          . exact List.mem_cons_of_mem _ hmem
          . exact hmem
        obtain ⟨rest, hrest⟩ := ih (k + 1) hrest
        refine ⟨rows :: rest, ?_⟩
        rw [List.filter_cons_of_pos (by simpa using hempty), List.mapM_cons, hrows, hrest]
        rfl
    . rw [if_neg hempty] at h
      rw [List.filter_cons_of_neg (by simpa using hempty)]
      exact ih k h

end Fetches

end RecordFetchStream

namespace RecordFetchExec

variable [DecidableEq V] {exec : RecordFetchExec V R}

/--
An execution of a fetch: the batches in which the keys arrive, and the timing of the input and of the
fetches.
-/
structure Execution (exec : RecordFetchExec V R) where
  batches : List (Batch V)
  input : InputScript V
  fetches : Nat → Batch V → FetchScript R
  emits : exec.input.Emits batches.flatten
  items : input.items = batches.map .ok
  results : ∀ k batch, (fetches k batch).result
    = exec.recordFetcher.fetch exec.input.schema batch

abbrev Execution.Polls (execution : exec.Execution)
    (ps : List (List (FetchAction V) × Poll (Option (Result (List R)))))
    (t : RecordFetchStream.ScriptState V R) : Prop :=
  PollAll (scriptEnv execution.fetches) (RecordFetchStream.new execution.input 0) ps t

def Execution.fetchedAs (execution : exec.Execution) (fetched : List (List R)) : Prop :=
  (execution.batches.filter fun batch => batch.length > 0).mapM
    (exec.recordFetcher.fetch exec.input.schema) = .ok fetched

variable {execution : exec.Execution} {fetched : List (List R)}
  {ps : List (List (FetchAction V) × Poll (Option (Result (List R))))}
  {t : RecordFetchStream.ScriptState V R}

theorem Execution.fetchedAs.returns (h : execution.fetchedAs fetched)
    : exec.Returns fetched.flatten :=
  ⟨execution.batches, fetched, execution.emits, h, rfl⟩

theorem Execution.out_eq
    : out execution.fetches (RecordFetchStream.new execution.input 0)
        =
      fetchAll execution.fetches 0 (execution.batches.map .ok) := by
  rw [RecordFetchStream.new, out, execution.items]

theorem Execution.fetchedAs.isPrefix (h : execution.fetchedAs fetched) (hpolls : execution.Polls ps t)
    : rowsOf (readyItems ps) <+: fetched.flatten ∧ ∀ e, some (.error e) ∉ readyItems ps := by
  obtain ⟨n, hstart⟩ := pollAll_prefix hpolls
  have hstart := hstart n (le_refl n)
  rw [execution.out_eq, fetchAll_of_ok execution.results 0 h] at hstart
  constructor
  . have hrows := rowsOf_isPrefix hstart
    rw [rowsOf_append, rowsOf_fetched, rowsOf_ends, List.append_nil] at hrows
    exact hrows
  . intro e he
    have hmem := hstart.subset he
    simp at hmem

theorem Execution.ended (hpolls : execution.Polls ps t) (hend : none ∈ readyItems ps)
    : ∃ n, readyItems ps
        = (fetchAll execution.fetches 0 (execution.batches.map .ok)).map some
          ++ List.replicate (n + 1) none := by
  rw [← execution.out_eq]
  exact (polls_complete (fun _ _ _ _ hpoll => (pollNext_keeps hpoll).1) hpolls hend).1

theorem Execution.fetchedAs.complete (h : execution.fetchedAs fetched) (hpolls : execution.Polls ps t)
    (hend : none ∈ readyItems ps)
    : rowsOf (readyItems ps) = fetched.flatten := by
  obtain ⟨n, hitems⟩ := Execution.ended hpolls hend
  rw [hitems, fetchAll_of_ok execution.results 0 h, rowsOf_append, rowsOf_fetched, rowsOf_ends,
    List.append_nil]

theorem Execution.fetched_of_ended (hpolls : execution.Polls ps t) (hend : none ∈ readyItems ps)
    (hok : ∀ e, some (.error e) ∉ readyItems ps)
    : ∃ fetched, execution.fetchedAs fetched := by
  obtain ⟨n, hitems⟩ := Execution.ended hpolls hend
  apply exists_fetched_of_no_error execution.results 0
  intro e he
  apply hok e
  rw [hitems]
  exact List.mem_append_left _ (List.mem_map_of_mem he)

theorem Execution.ends (execution : exec.Execution)
    : ∃ bound, ∀ ps t, execution.Polls ps t → bound ≤ ps.length → none ∈ readyItems ps :=
  pollAll_ends _

-- An execution in which nothing is ever pending.
def Execution.immediate (batches : List (Batch V)) (h : exec.input.Emits batches.flatten) :
    exec.Execution where
  batches
  input := batches.map fun batch => .ready (.ok batch)
  fetches _ batch := ⟨0, exec.recordFetcher.fetch exec.input.schema batch⟩
  emits := h
  items := by simp [InputScript.items, List.filterMap_map]
  results _ _ := rfl

/--
The rows a fetch returns are those that its stream has yielded at its end, in the executions without an
error.
-/
theorem returns_iff_streamed (rows : List R)
    : exec.Returns rows
        ↔
      ∃ (execution : exec.Execution) (ps : _) (t : _), execution.Polls ps t ∧
        none ∈ readyItems ps ∧ (∀ e, some (.error e) ∉ readyItems ps) ∧
          rowsOf (readyItems ps) = rows := by
  constructor
  . intro h
    obtain ⟨batches, fetched, hemits, hfetched, rfl⟩ := h
    let execution := Execution.immediate batches hemits
    have hfetched : execution.fetchedAs fetched := hfetched
    obtain ⟨bound, hbound⟩ := execution.ends
    obtain ⟨ps, t, hpolls, hlength⟩ := polls_of_returns (pollNext_returns execution.fetches) bound
      (RecordFetchStream.new execution.input 0)
    have hend := hbound ps t hpolls (by omega)
    exact ⟨execution, ps, t, hpolls, hend, (hfetched.isPrefix hpolls).2, hfetched.complete hpolls hend⟩
  . intro h
    obtain ⟨execution, ps, t, hpolls, hend, hok, rfl⟩ := h
    obtain ⟨fetched, hfetched⟩ := Execution.fetched_of_ended hpolls hend hok
    rw [hfetched.complete hpolls hend]
    exact hfetched.returns

variable {df : DataFusion} {table : Table V R} {leaf : Expr → R → Option Bool} {f : IndexFilter V}
  {limit : Option Nat} {mapper : RecordFetcher V R} {schema : Schema} {unionMode : UnionMode}

theorem Execution.fetchedAs_of_produces
    (hfetch : table.FetchedBy exec.input.schema.columns exec.recordFetcher) (hf : f.NoEmptyNode)
    (hinput : exec.input.Produces table.keySchema.columns (f.denote (table.leafKeys leaf)) limit)
    (execution : exec.Execution)
    : ∃ fetched, execution.fetchedAs fetched := by
  obtain ⟨rows, hsubset, hrows, -⟩ := Table.emitted_rows hf hinput execution.emits
  obtain ⟨fetched, hfetched, -⟩ := Table.fetch_batches hfetch hsubset hrows.symm
  exact ⟨fetched, hfetched⟩

/--
An execution has never yielded anything but answers, each at most once, and ends with all of them, or with
as many as the limit asks for.
-/
def Execution.YieldsAnswers (execution : exec.Execution) (answers : Set R) (limit : Option Nat) : Prop :=
  (∀ ps t, execution.Polls ps t →
    (∀ e, some (.error e) ∉ readyItems ps) ∧ (rowsOf (readyItems ps)).Nodup ∧
      ∀ row ∈ rowsOf (readyItems ps), row ∈ answers) ∧
  ∃ bound, ∀ ps t, execution.Polls ps t → bound ≤ ps.length →
    none ∈ readyItems ps ∧ Enumerates answers limit (rowsOf (readyItems ps))

theorem Execution.yields_answers
    (hfetch : table.FetchedBy exec.input.schema.columns exec.recordFetcher) (hf : f.NoEmptyNode)
    (hinput : exec.input.Produces table.keySchema.columns (f.denote (table.leafKeys leaf)) limit)
    (execution : exec.Execution)
    : execution.YieldsAnswers (table.selected leaf f) limit := by
  obtain ⟨fetched, hfetched⟩ := execution.fetchedAs_of_produces hfetch hf hinput
  obtain ⟨-, henumerates⟩ := Table.returns_eq hfetch hf hinput hfetched.returns
  constructor
  . intro ps t hpolls
    obtain ⟨hstart, herrors⟩ := hfetched.isPrefix hpolls
    refine ⟨herrors, henumerates.nodup.sublist hstart.sublist, ?_⟩
    intro row hrow
    exact henumerates.sound row (hstart.subset hrow)
  . obtain ⟨bound, hbound⟩ := execution.ends
    refine ⟨bound, ?_⟩
    intro ps t hpolls hlength
    have hend := hbound ps t hpolls hlength
    rw [hfetched.complete hpolls hend]
    exact ⟨hend, henumerates⟩

/--
Over indexes that answer their predicates, the stream of a fetch never fails. At any time it has yielded
answers only, each at most once, and polled often enough it ends with all of them, or with as many as
the limit asks for.
-/
theorem stream_yields_answers (hdf : df.Schemas) (hf : f.NoEmptyNode)
    (hfetch : ∀ leaf' ∈ f.leaves.head?, table.FetchedBy leaf'.1.indexSchema.columns mapper)
    (hleaves : ∀ leaf' ∈ f.leaves, table.Answers leaf limit leaf'.1 leaf'.2)
    (h : tryNew df [f] limit mapper schema unionMode = .ok exec)
    : Nonempty exec.Execution ∧
        ∀ execution : exec.Execution, execution.YieldsAnswers (table.selected leaf f) limit := by
  simp only [tryNew, Collect.bind_eq_ok, Collect.pure_eq_ok] at h
  obtain ⟨input, hinput, rfl⟩ := h
  have hproduces := buildScanExec_produces hdf Table.columns_nodup Table.columns_ne_nil hf
    (fun leaf' hleaf' _ hlimit => (hleaves leaf' hleaf').scans hlimit) hinput
  have hfetch : table.FetchedBy input.schema.columns mapper :=
    .of_leftmost hdf hf (fun leaf' hleaf' => (hleaves leaf' hleaf').exact.columns) hfetch hinput
  constructor
  . obtain ⟨keys, hkeys⟩ := hproduces.emits
    exact ⟨.immediate [keys] (by simpa using hkeys)⟩
  . intro execution
    exact execution.yields_answers hfetch hf hproduces

end RecordFetchExec

theorem activeOrRemote_streamed
    : ∃ exec, RecordFetchExec.tryNew DataFusion.reference [activeOrRemote] none
          (employees.fetcher idSchema) idSchema .parallel = .ok exec ∧
        ∃ execution : exec.Execution, ∃ bound, ∀ ps t, execution.Polls ps t → bound ≤ ps.length →
          (rowsOf (readyItems ps)).Perm
            [(1, some true, none), (2, none, some true), (3, some false, some true)] := by
  have hleaves : ∀ leaf ∈ activeOrRemote.leaves,
      employees.Answers employeePredicate none leaf.1 leaf.2 := by
    intro leaf hleaf
    simp only [activeOrRemote, IndexFilter.leaves, IndexFilter.allLeaves, List.singleton_append,
      List.append_nil, List.mem_cons, List.not_mem_nil, or_false] at hleaf
    rcases hleaf with rfl | rfl
    . exact ⟨Table.index_exact, by simp⟩
    . exact ⟨Table.index_exact, by simp⟩
  have hf : activeOrRemote.NoEmptyNode := by
    simp [activeOrRemote, IndexFilter.NoEmptyNode, IndexFilter.NoEmptyNodes]
  have hexec : ∃ exec, RecordFetchExec.tryNew DataFusion.reference [activeOrRemote] none
      (employees.fetcher idSchema) idSchema .parallel = .ok exec := ⟨_, rfl⟩
  obtain ⟨exec, hexec⟩ := hexec
  have hfetch : ∀ leaf ∈ activeOrRemote.leaves.head?,
      employees.FetchedBy leaf.1.indexSchema.columns (employees.fetcher idSchema) := by
    intro leaf hleaf
    cases hleaf
    exact (Table.fetcher_fetches idSchema).fetchedBy
  obtain ⟨⟨execution⟩, hstream⟩ := RecordFetchExec.stream_yields_answers
    DataFusion.reference_schemas hf hfetch hleaves hexec
  obtain ⟨-, bound, hbound⟩ := hstream execution
  refine ⟨exec, hexec, execution, bound, ?_⟩
  intro ps t hpolls hlength
  obtain ⟨-, henumerates⟩ := hbound ps t hpolls hlength
  apply henumerates.perm_of_mem_iff (by decide)
  have hall : ∀ row ∈ employees.rows, activeOrRemote.selects employeePredicate row = true := by
    intro row hrow
    simp only [employees, List.mem_cons, List.not_mem_nil, or_false] at hrow
    rcases hrow with rfl | rfl | rfl <;> rfl
  intro row
  exact ⟨fun hrow => ⟨hrow, hall row hrow⟩, fun hrow => hrow.1⟩

end IndexProvider
