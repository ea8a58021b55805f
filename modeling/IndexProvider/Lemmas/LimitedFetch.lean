import IndexProvider.Lemmas.FetchStream
import IndexProvider.Lemmas.Reference
import IndexProvider.Lemmas.Scan

/-!
This module contains the bound that a limit puts on the fetch phase: how many keys are passed to the
record fetcher.
-/

namespace IndexProvider

open Polling RecordFetchStream

variable {V R : Type}

/--
Batches that the stream of the fetch passes to its fetcher, after some polls of some run. The input
stream delivers what the input emits, in batches of any size, up to its end or to an error.
-/
def RecordFetchExec.Fetches [DecidableEq V] (exec : RecordFetchExec V R) (batches : List (Batch V)) :
    Prop :=
  ∃ input fetches ps t,
    exec.input.EmitsPart (InputScript.items input |>.filterMap Except.toOption).flatten ∧
      (∀ k batch, FetchScript.result (fetches k batch)
          = exec.recordFetcher.fetch exec.input.schema batch) ∧
        PollAll (scriptEnv fetches) (RecordFetchStream.new input 0) ps t ∧
          fetchCalls (actions ps) = batches

theorem RecordFetchStream.flatten_fetchedBatches_isPrefix (fetches : Nat → Batch V → FetchScript R) (k : Nat)
    (items : List (Result (Batch V)))
    : (fetchedBatches fetches k items).flatten <+: (items.filterMap Except.toOption).flatten := by
  induction items generalizing k with
  | nil => exact List.prefix_refl []
  | cons item items ih =>
    cases item with
    | error e => exact List.nil_prefix
    | ok batch =>
      have hitems : ((.ok batch :: items : List (Result (Batch V))).filterMap
          Except.toOption).flatten = batch ++ (items.filterMap Except.toOption).flatten := rfl
      rw [hitems]
      unfold fetchedBatches
      split
      . split
        . simp
        . rw [List.flatten_cons, List.prefix_append_right_inj]
          apply ih
      . next hempty =>
        have hnil : batch = [] := by
          rw [← List.length_eq_zero_iff]
          omega
        rw [hnil, List.nil_append]
        apply ih

theorem RecordFetchStream.fetchedBatches_ok (fetches : Nat → Batch V → FetchScript R) (k : Nat)
    (batches : List (Batch V)) (error : Option DataFusionError)
    (h : ∀ k batch, ∃ fetched, (fetches k batch).result = .ok fetched)
    : fetchedBatches fetches k (batches.map .ok ++ error.toList.map .error)
        =
      batches.filter fun batch => batch.length > 0 := by
  induction batches generalizing k with
  | nil => cases error <;> rfl
  | cons batch batches ih =>
    obtain ⟨fetched, hfetched⟩ := h k batch
    rw [List.map_cons, List.cons_append, fetchedBatches]
    by_cases hempty : batch.length > 0
    . rw [if_pos hempty, hfetched, List.filter_cons_of_pos (by simpa using hempty)]
      simp only [ih]
    . rw [if_neg hempty, List.filter_cons_of_neg (by simpa using hempty), ih]

variable [DecidableEq V]

namespace RecordFetchExec

variable {exec : RecordFetchExec V R} {batches : List (Batch V)}

theorem Fetches.keys_isPrefix (h : exec.Fetches batches)
    : ∃ rows, exec.input.EmitsPart rows ∧ batches.flatten <+: rows := by
  obtain ⟨input, fetches, ps, t, hemits, -, hpolls, rfl⟩ := h
  refine ⟨_, hemits, ?_⟩
  have hstart : fetchCalls (actions ps) <+: fetchedBatches fetches 0 input.items :=
    ⟨_, (pollAll_calls hpolls).symm⟩
  obtain ⟨rest, hrest⟩ := hstart
  have hflatten := flatten_fetchedBatches_isPrefix fetches 0 input.items
  rw [← hrest, List.flatten_append] at hflatten
  exact (List.prefix_append _ _).trans hflatten

theorem fetches_all (error : Option DataFusionError) (hemits : exec.input.EmitsPart batches.flatten)
    (hfetch : ∀ batch, ∃ fetched, exec.recordFetcher.fetch exec.input.schema batch = .ok fetched)
    : exec.Fetches (batches.filter fun batch => batch.length > 0) := by
  let fetches : Nat → Batch V → FetchScript R := fun _ batch =>
    ⟨0, exec.recordFetcher.fetch exec.input.schema batch⟩
  let items : List (Result (Batch V)) := batches.map .ok ++ error.toList.map .error
  let input : InputScript V := items.map .ready
  have hitems : input.items = items := by
    simp [input, InputScript.items, List.filterMap_map]
  obtain ⟨bound, hbound⟩ := @pollAll_complete V R fetches (RecordFetchStream.new input 0)
  obtain ⟨ps, t, hpolls, hlength⟩ :=
    polls_of_returns (pollNext_returns fetches) bound (RecordFetchStream.new input 0)
  obtain ⟨-, hcalls⟩ := hbound ps t hpolls (by omega)
  refine ⟨input, fetches, ps, t, ?_, fun _ _ => rfl, hpolls, ?_⟩
  . rw [hitems, List.filterMap_append, List.filterMap_map, List.filterMap_map]
    simpa [Function.comp_def, Except.toOption] using hemits
  . have hfetched : toFetch fetches (RecordFetchStream.new input 0)
        = fetchedBatches fetches 0 input.items := rfl
    rw [hcalls, hfetched, hitems, fetchedBatches_ok]
    intro _ batch
    exact hfetch batch

/--
A limit bounds the number of keys that any fetcher is passed exactly if the tree is no single leaf
whose index yields more keys than the limit asks for, up to its end or to its first error.
-/
theorem limit_bounds_fetch_iff (df : DataFusion) (unionMode : UnionMode) (f : IndexFilter V) (n : Nat)
    (schema : Schema)
    : (∀ (mapper : RecordFetcher V R) (exec : RecordFetchExec V R),
          tryNew df [f] (some n) mapper schema unionMode = .ok exec →
            ∀ batches, exec.Fetches batches → (batches.map List.length).sum ≤ n)
        ↔
      ∀ index filter stream, f = .single index filter → index.scan [filter] (some n) = .ok stream →
        (stream.batches.map List.length).sum ≤ n := by
  constructor
  . intro h index filter stream hf hscan
    subst hf
    let mapper : RecordFetcher V R := ⟨schema, fun _ _ => .ok []⟩
    have hexec : ∃ exec, tryNew df [.single index filter] (some n) mapper schema unionMode = .ok exec ∧
        exec.recordFetcher = mapper ∧ ∃ p, exec.input = .indexScan p index [filter] (some n) :=
      ⟨_, rfl, rfl, _, rfl⟩
    obtain ⟨exec, hexec, hmapper, p, hinput⟩ := hexec
    have hemits : exec.input.EmitsPart stream.batches.flatten := by
      rw [hinput]
      exact ⟨stream, hscan, List.prefix_refl _⟩
    -- A fetcher that never fails is passed every key that the leaf yields.
    have hfetches := fetches_all stream.error hemits fun _ => by
      rw [hmapper]
      exact ⟨[], rfl⟩
    have hbound := h mapper exec hexec _ hfetches
    have hnonempty : (fun batch : Batch V => decide (batch.length > 0)) = fun batch => !batch.isEmpty := by
      funext batch
      cases batch <;> simp
    rw [← List.length_flatten, hnonempty, List.flatten_filter_not_isEmpty] at hbound
    rw [← List.length_flatten]
    exact hbound
  . intro h mapper exec hexec batches hfetches
    simp only [tryNew, Collect.bind_eq_ok, Collect.pure_eq_ok] at hexec
    obtain ⟨input, hinput, rfl⟩ := hexec
    obtain ⟨rows, hrows, hstart⟩ := hfetches.keys_isPrefix
    rw [← List.length_flatten]
    apply hstart.length_le.trans
    by_cases hf : ∃ index filter, f = .single index filter
    . obtain ⟨index, filter, rfl⟩ := hf
      cases hinput
      obtain ⟨stream, hscan, hrows⟩ := hrows
      apply hrows.length_le.trans
      rw [List.length_flatten]
      exact h index filter stream rfl hscan
    . simp only [not_exists] at hf
      exact buildScanExec_emitsPart_le hf hinput hrows

theorem unbounded_leaf_fetched
    : ∃ (exec : RecordFetchExec Nat (Row Nat)) (batches : List (Batch Nat)),
        tryNew DataFusion.reference [.single (idIndex false [[1, 2]]) (.literal .null)] (some 1)
            ⟨idSchema, fun _ batch => .ok batch⟩ idSchema .sequential = .ok exec ∧
          exec.Fetches batches ∧ 1 < (batches.map List.length).sum := by
  refine ⟨_, [[[some 1], [some 2]]], rfl, ?_, by decide⟩
  change Fetches _ (List.filter (fun batch => batch.length > 0) [[[some 1], [some 2]]])
  exact fetches_all none ⟨_, rfl, List.prefix_refl _⟩ fun batch => ⟨batch, rfl⟩

end RecordFetchExec

end IndexProvider
