import IndexProvider.Lemmas.PlanScans
import IndexProvider.Lemmas.StreamedScan
import IndexProvider.Lemmas.UnionModeRuns

/-!
This module connects the executions of a plan, partition by partition and with the orderings that operators
rely on, to what polling the stream of a fetch yields.
-/

namespace IndexProvider

open Std Polling RecordFetchStream Enumeration

variable {V R : Type} [Ord V] [DecidableEq V]

/--
A plan that has one partition, whatever its operators do.
-/
def ExecutionPlan.RunsOnePartition (plan : ExecutionPlan V) : Prop :=
  ∀ C partitions, plan.Runs C partitions → ∃ stream, partitions = [stream]

namespace RecordFetchExec

variable {df : DataFusion} {unionMode : UnionMode} {limit : Option Nat}
  {plan left right : ExecutionPlan V} {plans : List (ExecutionPlan V)}

theorem projectToPkSchema_onePartition {pkSchema : Schema} {projected : ExecutionPlan V}
    (hplan : plan.RunsOnePartition) (h : projectToPkSchema df plan pkSchema = .ok projected)
    : projected.RunsOnePartition := by
  rw [projectToPkSchema_eq_ok] at h
  split at h
  . rwa [← h]
  . obtain ⟨-, p, -, rfl⟩ := h
    intro C partitions hruns
    obtain ⟨inputs, hinputs, rfl, -⟩ := hruns
    obtain ⟨stream, rfl⟩ := hplan C inputs hinputs
    exact ⟨_, rfl⟩

-- A hash join has the partitions of its right input.
theorem tryCreateIndexLookupJoin_onePartition {joined : ExecutionPlan V}
    (hright : right.RunsOnePartition) (h : tryCreateIndexLookupJoin df left right = .ok joined)
    : joined.RunsOnePartition := by
  rw [tryCreateIndexLookupJoin_eq_ok] at h
  obtain ⟨on, -, h⟩ := h
  split at h
  . obtain ⟨p, -, rfl⟩ := h
    intro C partitions hruns
    obtain ⟨_, _, _, _, out, -, -, -, -, -, rfl, -⟩ := hruns
    exact ⟨out, rfl⟩
  . obtain ⟨p, -, rfl⟩ := h
    intro C partitions hruns
    obtain ⟨_, rights, _, -, hrights, -, hjoin, -⟩ := hruns
    obtain ⟨stream, rfl⟩ := hright C rights hrights
    cases hjoin with
    | cons _ htail =>
      cases htail
      exact ⟨_, rfl⟩

theorem joinAll_onePartition {pkSchema : Schema} {joined : ExecutionPlan V}
    (hleft : left.RunsOnePartition) (hplans : ∀ plan ∈ plans, plan.RunsOnePartition)
    (h : joinAll df pkSchema left plans = .ok joined)
    : joined.RunsOnePartition := by
  induction plans generalizing left with
  | nil =>
    cases h
    exact hleft
  | cons right plans ih =>
    rw [joinAll_cons_eq_ok] at h
    obtain ⟨joinedOnce, hjoin, next, hproject, h⟩ := h
    rw [List.forall_mem_cons] at hplans
    have hjoined := tryCreateIndexLookupJoin_onePartition hplans.1 hjoin
    exact ih (projectToPkSchema_onePartition hjoined hproject) hplans.2 h

theorem withLimit_onePartition (hplan : plan.RunsOnePartition)
    : (withLimit df plan limit).RunsOnePartition := by
  cases limit with
  | none => exact hplan
  | some n =>
    intro C partitions hruns
    obtain ⟨_, out, -, rfl, -⟩ := hruns
    exact ⟨out, rfl⟩

theorem buildAnd_onePartition (hplans : ∀ plan ∈ plans, plan.RunsOnePartition)
    (h : buildAnd df limit plans = .ok plan)
    : plan.RunsOnePartition := by
  cases plans with
  | nil => cases h
  | cons left plans =>
    rw [buildAnd_eq_ok] at h
    obtain ⟨joined, hjoined, rfl⟩ := h
    rw [List.forall_mem_cons] at hplans
    exact withLimit_onePartition (joinAll_onePartition hplans.1 hplans.2 hjoined)

-- The aggregation merges the partitions of the union.
theorem buildOr_onePartition (h : buildOr df unionMode limit plans = .ok plan)
    : plan.RunsOnePartition := by
  cases plans with
  | nil =>
    cases h
    intro C partitions hruns
    exact ⟨_, hruns⟩
  | cons first rest =>
    rw [buildOr_eq_ok] at h
    obtain ⟨_, -, _, -, p, -, rfl⟩ := h
    apply withLimit_onePartition
    intro C partitions hruns
    obtain ⟨-, _, _, out, -, -, -, rfl, -⟩ := hruns
    exact ⟨out, rfl⟩

theorem buildScanExec_onePartition {f : IndexFilter V}
    (h : buildScanExec df unionMode f limit = .ok plan)
    : plan.RunsOnePartition := by
  induction f generalizing limit plan with
  | single index filter =>
    rw [buildScanExec_single] at h
    cases h
    intro C partitions hruns
    obtain ⟨batches, -, rfl⟩ := hruns
    exact ⟨batches, rfl⟩
  | and filters ih =>
    rw [buildScanExec_and_eq_ok] at h
    obtain ⟨plans, hplans, h⟩ := h
    apply buildAnd_onePartition _ h
    intro plan hplan
    obtain ⟨child, hchild, hplan⟩ := Collect.forall₂_of_mem_right hplans hplan
    exact ih child hchild hplan
  | or filters ih =>
    rw [buildScanExec_or_eq_ok] at h
    obtain ⟨plans, -, h⟩ := h
    exact buildOr_onePartition h

variable {exec : RecordFetchExec V R} {table : Table V R} {leaf : Expr → R → Option Bool}
  {f : IndexFilter V} {mapper : RecordFetcher V R} {schema : Schema}

theorem buildScanExec_runs_emits [TransOrd V] [LawfulEqOrd V] (hdf : df.Schemas)
    (hheaders : df.Headers) (horderings : df.KeyOrderings) (hunion : df.UnionOrderings)
    (hprobe : df.ProbeOrderings) {cols : List (String × DataType)} (hcols : cols ≠ [])
    (hnodup : (cols.map Prod.fst).Nodup) (hf : f.NoEmptyNode) {keys : Index V → Expr → Set (Row V)}
    (hleaves : ∀ leaf' ∈ f.leaves, leaf'.1.indexSchema.columns = cols ∧ leaf'.1.Ordered leaf'.2 ∧
      ∀ limit', limit' = none ∨ limit' = limit →
        leaf'.1.Scans cols (keys leaf'.1 leaf'.2) leaf'.2 limit')
    (hsequenced : unionMode = .sequential →
      f.Sequenced keys fun x y => ((LexOrdering.ascending (cols.map Prod.fst)).cmp x y).isLE)
    (h : buildScanExec df unionMode f limit = .ok plan) {C : Step V → Prop}
    {partitions : List (RecordStream V)} (hruns : plan.Runs C partitions)
    : ∃ stream, partitions = [stream] ∧ plan.Emits stream.flatten := by
  have hhonest := buildScanExec_honest hdf hheaders horderings hunion hprobe hcols hnodup hf
    (fun leaf' hleaf' => (hleaves leaf' hleaf').2) (fun _ leaf' hleaf' => (hleaves leaf' hleaf').1)
    hsequenced h
  obtain ⟨stream, rfl⟩ := buildScanExec_onePartition h C partitions hruns
  have hemits := (hhonest.runs hruns).1.emits fun _ h => h
  rw [allRows_singleton] at hemits
  exact ⟨stream, rfl, hemits⟩

/--
From the tree down to the polls: whatever the operators of the plan do, as far as the orderings that their
inputs advertise allow it, the plan has one partition, and the fetch that reads it yields the answers of
the tree. The ordered indexes must keep their order, and in Sequential mode the inputs of every union that
advertises this order must come in sequence.
-/
theorem runs_yield_answers [TransOrd V] [LawfulEqOrd V] (hdf : df.Schemas) (hheaders : df.Headers)
    (horderings : df.KeyOrderings) (hunion : df.UnionOrderings) (hprobe : df.ProbeOrderings)
    (hfetch : table.FetchedAs id mapper) (hf : f.NoEmptyNode)
    (hleaves : ∀ leaf' ∈ f.leaves, table.Answers leaf limit leaf'.1 leaf'.2 ∧
      leaf'.1.indexSchema.columns = table.keySchema.columns ∧ leaf'.1.Ordered leaf'.2)
    (hsequenced : unionMode = .sequential → f.Sequenced (table.leafKeys leaf) fun x y =>
      ((LexOrdering.ascending table.keySchema.names).cmp x y).isLE)
    (h : tryNew df [f] limit mapper schema unionMode = .ok exec) {C : Step V → Prop}
    {partitions : List (RecordStream V)} (hruns : exec.input.Runs C partitions)
    : ∃ stream, partitions = [stream] ∧ inputStream 0 partitions = .ok stream ∧
        ∀ (input : InputScript V) (fetches : Nat → Batch V → FetchScript R),
          input.items = stream.map .ok →
            (∀ k batch, (fetches k batch).result = mapper.fetch exec.input.schema batch) →
              ∃ execution : exec.Execution, execution.input = input ∧ execution.fetches = fetches ∧
                execution.YieldsAnswers (table.selected leaf f) limit := by
  simp only [tryNew, Collect.bind_eq_ok, Collect.pure_eq_ok] at h
  obtain ⟨plan, hplan, rfl⟩ := h
  rw [← Table.names_eq] at hsequenced
  obtain ⟨stream, rfl, hemits⟩ := buildScanExec_runs_emits hdf hheaders horderings hunion hprobe
    Table.columns_ne_nil Table.columns_nodup hf (fun leaf' hleaf' => ⟨(hleaves leaf' hleaf').2.1,
      (hleaves leaf' hleaf').2.2, fun _ hlimit => (hleaves leaf' hleaf').1.scans hlimit⟩) hsequenced
    hplan hruns
  have hproduces := buildScanExec_produces hdf Table.columns_nodup Table.columns_ne_nil hf
    (fun leaf' hleaf' _ hlimit => (hleaves leaf' hleaf').1.scans hlimit) hplan
  have hfetchedBy : ∀ leaf' ∈ f.leaves.head?,
      table.FetchedBy leaf'.1.indexSchema.columns mapper := by
    intro leaf' hleaf'
    rw [(hleaves leaf' (List.mem_of_head? hleaf')).2.1]
    exact hfetch.fetchedBy
  refine ⟨stream, rfl, rfl, ?_⟩
  intro input fetches hitems hresults
  refine ⟨⟨stream, input, fetches, hemits, hitems, hresults⟩, rfl, rfl, ?_⟩
  apply Execution.yields_answers _ hf hproduces
  exact .of_leftmost hdf hf (fun leaf' hleaf' => (hleaves leaf' hleaf').1.exact.columns) hfetchedBy hplan

end RecordFetchExec

-- Both ordered indexes yield the keys 1 and 2, which Parallel mode merges in order.
theorem overlapping_ordered_indexes_streamed
    : ∃ (exec : RecordFetchExec Nat (Nat × Option Bool × Option Bool)) (execution : exec.Execution)
        (bound : Nat),
        RecordFetchExec.tryNew DataFusion.reference [orderedOr [[1], [2]] [[1], [2]]] none
            (employees.fetcher idSchema) idSchema .parallel = .ok exec ∧
          ∀ ps t, execution.Polls ps t → bound ≤ ps.length →
            (rowsOf (readyItems ps)).Perm [(1, some true, none), (2, none, some true)] := by
  let leaf : Expr → Nat × Option Bool × Option Bool → Option Bool := fun _ row => some (row.1 ≤ 2)
  have hf : (orderedOr [[1], [2]] [[1], [2]]).NoEmptyNode := by
    simp [orderedOr, IndexFilter.NoEmptyNode, IndexFilter.NoEmptyNodes]
  have hanswers : employees.Answers leaf none (idIndex true [[1], [2]]) (.literal .null) := by
    refine ⟨⟨.refl _, idKeys [[1], [2]], rfl, by decide, by rfl⟩, ?_⟩
    intro n hn
    cases hn
  have hordered : (idIndex true [[1], [2]]).Ordered (.literal .null) :=
    idIndex_ordered (by unfold Sorting.Sorted; decide)
  have hleaves : ∀ leaf' ∈ (orderedOr [[1], [2]] [[1], [2]]).leaves,
      employees.Answers leaf none leaf'.1 leaf'.2 ∧
        leaf'.1.indexSchema.columns = employees.keySchema.columns ∧ leaf'.1.Ordered leaf'.2 :=
    orderedOr_leaves.mpr ⟨⟨hanswers, rfl, hordered⟩, hanswers, rfl, hordered⟩
  let union : ExecutionPlan Nat := .union (idProperties 2) [idScan [[1], [2]], idScan [[1], [2]]]
  have hruns : ∃ stream, (idDedup union).RunsSingle (fun _ => True) stream := by
    refine ⟨_, idDedup_runs rfl (idScans_parallel [[1, 1, 2, 2]] trivial (by decide) ?_) trivial ?_⟩
    . unfold Sorting.Sorted
      decide
    . unfold Sorting.Sorted
      decide
  obtain ⟨_, partitions, hruns, -⟩ := hruns
  have hexec : ∃ exec : RecordFetchExec Nat (Nat × Option Bool × Option Bool),
      RecordFetchExec.tryNew DataFusion.reference [orderedOr [[1], [2]] [[1], [2]]] none
          (employees.fetcher idSchema) idSchema .parallel = .ok exec ∧
        exec.input.Runs (fun _ => True) partitions := ⟨_, rfl, hruns⟩
  obtain ⟨exec, hexec, hruns⟩ := hexec
  obtain ⟨stream, -, -, hyields⟩ := RecordFetchExec.runs_yield_answers DataFusion.reference_schemas
    DataFusion.reference_headers DataFusion.reference_keyOrderings DataFusion.reference_unionOrderings
    DataFusion.reference_probeOrderings (Table.fetcher_fetches idSchema) hf hleaves (by simp) hexec hruns
  have hitems : InputScript.items (stream.map fun batch => .ready (.ok batch)) = stream.map .ok := by
    simp [InputScript.items, List.filterMap_map]
  obtain ⟨execution, -, -, -, bound, hbound⟩ := hyields _
    (fun _ batch => ⟨0, (employees.fetcher idSchema).fetch exec.input.schema batch⟩) hitems
    fun _ _ => rfl
  refine ⟨exec, execution, bound, hexec, ?_⟩
  intro ps t hpolls hlength
  obtain ⟨-, henumerates⟩ := hbound ps t hpolls hlength
  apply henumerates.perm_of_mem_iff (by decide)
  intro row
  constructor
  . intro hrow
    simp only [List.mem_cons, List.not_mem_nil, or_false] at hrow
    rcases hrow with rfl | rfl
    . exact ⟨by decide, rfl⟩
    . exact ⟨by decide, rfl⟩
  . intro hrow
    obtain ⟨hrow, hselects⟩ := hrow
    simp only [employees, List.mem_cons, List.not_mem_nil, or_false] at hrow
    rcases hrow with rfl | rfl | rfl
    . decide
    . decide
    . cases hselects

end IndexProvider
