import IndexProvider.Lemmas.OrderedTrees

/-!
This module relates the executions of the plans that the two union modes build for a tree.
-/

namespace IndexProvider

open Std NamedTuple Sorting StreamingGroups Enumeration

variable {V : Type} [Ord V]

variable [DecidableEq V]

theorem RecordFetchExec.buildScanExec_runs_enumerates {df : DataFusion} (hdf : df.Schemas)
    {cols : List (String × DataType)} (hcols : cols ≠ []) (hnodup : (cols.map Prod.fst).Nodup)
    {f : IndexFilter V} (hf : f.NoEmptyNode) {keys : Index V → Expr → Set (Row V)}
    (hleaves : ∀ leaf ∈ f.leaves, leaf.1.Scans cols (keys leaf.1 leaf.2) leaf.2 none)
    {unionMode : UnionMode} {plan : ExecutionPlan V}
    (h : buildScanExec df unionMode f none = .ok plan) {stream : RecordStream V}
    (hruns : plan.RunsSingle Step.Clean stream)
    : Enumerates (f.denote keys) none
        (stream.flatten.map (select (cols.map Prod.fst) plan.schema.names)) := by
  obtain ⟨partitions, hruns, hmerges⟩ := hruns
  have hproduces : plan.Produces cols (f.denote keys) none := by
    apply buildScanExec_produces hdf hnodup hcols hf _ h
    intro leaf hleaf limit' hlimit
    rw [or_self_iff.mp hlimit]
    exact hleaves leaf hleaf
  exact (hproduces.keys _ (hruns.emits fun _ h => h)).perm (hmerges.perm.map _)

/--
Both modes hand over the same keys, each of them once, in all executions of their plans, where the ordered
indexes keep the order of their keys and list the key columns as all indexes do, and where the inputs of every
union that advertises this order come in sequence.
-/
theorem RecordFetchExec.union_modes_agree [TransOrd V] [LawfulEqOrd V] {df : DataFusion}
    (hdf : df.Schemas) (hheaders : df.Headers) (horderings : df.KeyOrderings)
    (hunion : df.UnionOrderings) (hprobe : df.ProbeOrderings) {cols : List (String × DataType)}
    (hcols : cols ≠ []) (hnodup : (cols.map Prod.fst).Nodup) {f : IndexFilter V}
    (hf : f.NoEmptyNode) {keys : Index V → Expr → Set (Row V)}
    (hleaves : ∀ leaf ∈ f.leaves, leaf.1.Ordered leaf.2 ∧
      leaf.1.Scans cols (keys leaf.1 leaf.2) leaf.2 none)
    (haligned : (∃ leaf ∈ f.leaves, leaf.1.isOrdered = true) →
      ∀ leaf ∈ f.leaves, leaf.1.indexSchema.columns = cols)
    (hsequenced : f.Sequenced keys fun x y =>
      ((LexOrdering.ascending (cols.map Prod.fst)).cmp x y).isLE)
    {sequential parallel : ExecutionPlan V}
    (hsequential : buildScanExec df .sequential f none = .ok sequential)
    (hparallel : buildScanExec df .parallel f none = .ok parallel) {C C' : Step V → Prop}
    {stream stream' : RecordStream V} (hruns : sequential.RunsSingle C stream)
    (hruns' : parallel.RunsSingle C' stream')
    : (stream.flatten.map (select (cols.map Prod.fst) sequential.schema.names)).Perm
          (stream'.flatten.map (select (cols.map Prod.fst) parallel.schema.names)) ∧
        (stream.flatten.map (select (cols.map Prod.fst) sequential.schema.names)).Nodup ∧
          (stream'.flatten.map (select (cols.map Prod.fst) parallel.schema.names)).Nodup := by
  have hscans : ∀ leaf ∈ f.leaves, leaf.1.Scans cols (keys leaf.1 leaf.2) leaf.2 none :=
    fun leaf hleaf => (hleaves leaf hleaf).2
  have hhonest : ∀ {unionMode plan}, buildScanExec df unionMode f none = .ok plan →
      plan.AllHonest := by
    intro unionMode plan hplan
    apply buildScanExec_honest hdf hheaders horderings hunion hprobe hcols hnodup hf _ haligned
      (fun _ => hsequenced) hplan
    intro leaf hleaf
    refine ⟨(hleaves leaf hleaf).1, ?_⟩
    intro limit' hlimit
    rw [or_self_iff.mp hlimit]
    exact hscans leaf hleaf
  -- No operator is let down, so both runs enumerate the keys that the tree denotes.
  have henumerates := buildScanExec_runs_enumerates hdf hcols hnodup hf hscans hsequential
    ((hhonest hsequential).runsSingle hruns)
  have henumerates' := buildScanExec_runs_enumerates hdf hcols hnodup hf hscans hparallel
    ((hhonest hparallel).runsSingle hruns')
  exact ⟨henumerates.perm_of_mem_iff henumerates'.nodup henumerates'.mem_iff, henumerates.nodup,
    henumerates'.nodup⟩

/-!
Two ordered indexes over one key column, combined by an `Or`.
-/

def idProperties (partitionCount : Nat) : PlanProperties :=
  DataFusion.properties idSchema [idSchema.ordering ["id"]] partitionCount

def idKeys (batches : List (List Nat)) : RecordStream Nat :=
  batches.map fun batch => batch.map fun id => [some id]

def idScan (batches : List (List Nat)) : ExecutionPlan Nat :=
  .indexScan (idProperties 1) (idIndex true batches) [.literal .null] none

def idDedup (union : ExecutionPlan Nat) : ExecutionPlan Nat :=
  .aggregate (idProperties union.partitionCount) (RecordFetchExec.groupExprs idSchema) union

def orderedOr (xs ys : List (List Nat)) : IndexFilter Nat :=
  .or [.single (idIndex true xs) (.literal .null), .single (idIndex true ys) (.literal .null)]

theorem orderedOr_sequential (xs ys : List (List Nat))
    : RecordFetchExec.buildScanExec DataFusion.reference .sequential (orderedOr xs ys) none
        =
      .ok (idDedup (.sequentialUnion (idProperties 1) [idScan xs, idScan ys])) := rfl

theorem orderedOr_parallel (xs ys : List (List Nat))
    : RecordFetchExec.buildScanExec DataFusion.reference .parallel (orderedOr xs ys) none
        =
      .ok (idDedup (.union (idProperties 2) [idScan xs, idScan ys])) := rfl

theorem idProperties_holds {partitionCount : Nat} {rows : List (Row Nat)}
    : (idProperties partitionCount).Holds rows ↔ Sorted (idSchema.ordering ["id"]).cmp rows := by
  constructor
  . intro h
    exact h.outputOrdering _ rfl
  . intro h
    constructor
    . intro o ho
      rw [List.mem_singleton.mp ho]
      exact h
    . intro o ho
      cases ho
      exact h

def idGroups (batches : List (List Nat)) : Batch Nat :=
  streamGroups (.sorted : InputOrder (Row Nat) (List (Option Nat))) [] (idKeys batches)

theorem idDedup_runs {C : Step Nat → Prop} {p : Nat} {union : ExecutionPlan Nat}
    {batches : List (List Nat)}
    (hproperties : union.properties = idProperties p) (hunion : union.RunsSingle C (idKeys batches))
    (hstep : C (.dedup .sorted (idKeys batches)))
    (hsorted : Sorted (idSchema.ordering ["id"]).cmp (idKeys batches).flatten →
      Sorted (idSchema.ordering ["id"]).cmp (idGroups batches))
    : (idDedup union).RunsSingle C [idGroups batches] := by
  obtain ⟨partitions, hruns, hmerges⟩ := hunion
  have hgroups : (idKeys batches).map (fun batch =>
      batch.map (project (RecordFetchExec.groupExprs idSchema))) = idKeys batches := by
    simp only [idKeys, List.map_map, Function.comp_def]
    rfl
  have hordered : inputOrder (V := Nat) union.outputOrdering (RecordFetchExec.groupExprs idSchema)
      = .sorted := by
    rw [ExecutionPlan.outputOrdering, hproperties]
    rfl
  refine ⟨_, ⟨by decide, partitions, idKeys batches, _, hruns, hmerges, ?_, rfl, ?_, ?_⟩,
    ExecutionPlan.merges_singleton _ _⟩
  . rw [hgroups, hordered]
    exact hstep
  . rw [hgroups, hordered]
    simp [idGroups]
  . rw [hproperties]
    intro hholds partition hpartition
    rw [List.mem_singleton.mp hpartition]
    apply idProperties_holds.mpr
    simpa using hsorted (idProperties_holds.mp hholds)

theorem idScans_sequential {C : Step Nat → Prop} (xs ys : List (List Nat))
    : (ExecutionPlan.sequentialUnion (idProperties 1) [idScan xs, idScan ys]).RunsSingle C
        (idKeys (xs ++ ys)) := by
  refine ⟨_, ⟨[idKeys xs, idKeys ys], ?_, rfl⟩, ?_⟩
  . exact ⟨_, _, _, rfl, ⟨_, rfl, rfl⟩, ExecutionPlan.merges_singleton _ _, _, _, _, rfl, ⟨_, rfl, rfl⟩,
      ExecutionPlan.merges_singleton _ _, rfl⟩
  . simp [idKeys, ExecutionPlan.merges_singleton]

theorem idScans_parallel {C : Step Nat → Prop} {xs ys : List (List Nat)} (zs : List (List Nat))
    (hstep : C (.merge [idKeys xs, idKeys ys])) (hperm : zs.flatten.Perm (xs.flatten ++ ys.flatten))
    (hsorted : Sorted (idSchema.ordering ["id"]).cmp (idKeys zs).flatten)
    : (ExecutionPlan.union (idProperties 2) [idScan xs, idScan ys]).RunsSingle C (idKeys zs) := by
  refine ⟨_, ⟨[[idKeys xs], [idKeys ys]], ?_, rfl⟩, hstep, ?_, ?_⟩
  . exact ⟨_, _, rfl, ⟨_, rfl, rfl⟩, _, _, rfl, ⟨_, rfl, rfl⟩, rfl⟩
  . have hkeys : ∀ batches, (idKeys batches).flatten = batches.flatten.map fun id => [some id] := by
      intro batches
      rw [idKeys, List.map_flatten]
    simp only [allRows, List.flatten_cons, List.flatten_nil, List.append_nil, List.map_cons,
      List.map_nil, List.singleton_append, hkeys, ← List.map_append]
    exact hperm.map _
  . intro _
    exact idProperties_holds.mpr hsorted

def Index.scanned (index : Index V) (filter : Expr) : Set (Row V) :=
  {key | ∃ batches, index.scan [filter] none = .ok (.complete batches) ∧ key ∈ batches.flatten}

theorem orderedOr_leaves {xs ys : List (List Nat)} {P : Index Nat × Expr → Prop}
    : (∀ leaf ∈ (orderedOr xs ys).leaves, P leaf)
        ↔
      P (idIndex true xs, .literal .null) ∧ P (idIndex true ys, .literal .null) := by
  simp [orderedOr, IndexFilter.leaves, IndexFilter.allLeaves]

theorem idIndex_scanned {batches : List (List Nat)} {key : Row Nat}
    : key ∈ (idIndex true batches).scanned (.literal .null) ↔ key ∈ (idKeys batches).flatten := by
  constructor
  . intro hkey
    obtain ⟨_, hscan, hkey⟩ := hkey
    cases hscan
    exact hkey
  . intro hkey
    exact ⟨_, rfl, hkey⟩

theorem idIndex_scans {batches : List (List Nat)} (h : batches.flatten.Nodup)
    : (idIndex true batches).Scans [("id", .int32)] ((idIndex true batches).scanned (.literal .null))
        (.literal .null) none := by
  have hkeys : (idKeys batches).flatten = batches.flatten.map fun id => [some id] := by
    rw [idKeys, List.map_flatten]
  refine ⟨.refl _, idKeys batches, rfl, ?_, ?_⟩
  . intro row hrow
    rw [hkeys] at hrow
    obtain ⟨id, -, rfl⟩ := List.mem_map.mp hrow
    rfl
  . have hselect : (idKeys batches).flatten.map (select ["id"] ["id"]) = (idKeys batches).flatten := by
      rw [hkeys, List.map_map]
      rfl
    change Enumerates _ none ((idKeys batches).flatten.map (select ["id"] ["id"]))
    rw [hselect]
    apply Enumerates.of_mem_iff
    . rw [hkeys]
      apply h.map
      intro id id' heq
      simpa using heq
    . intro key
      exact idIndex_scanned.symm

theorem idIndex_ordered {batches : List (List Nat)}
    (h : Sorted (idSchema.ordering ["id"]).cmp (idKeys batches).flatten)
    : (idIndex true batches).Ordered (.literal .null) := by
  intro _ limit out hout
  cases hout
  exact h

theorem overlapping_ordered_indexes_disagree
    : (orderedOr [[1], [2]] [[1], [2]]).NoEmptyNode ∧
        (∀ leaf ∈ (orderedOr [[1], [2]] [[1], [2]]).leaves,
          leaf.1.Ordered leaf.2 ∧
            leaf.1.Scans [("id", .int32)] (leaf.1.scanned leaf.2) leaf.2 none) ∧
          ∃ sequential parallel stream stream',
            RecordFetchExec.buildScanExec DataFusion.reference .sequential
                (orderedOr [[1], [2]] [[1], [2]]) none = .ok sequential ∧
              RecordFetchExec.buildScanExec DataFusion.reference .parallel
                  (orderedOr [[1], [2]] [[1], [2]]) none = .ok parallel ∧
                sequential.RunsSingle (fun _ => True) stream ∧
                  parallel.RunsSingle (fun _ => True) stream' ∧
                    stream.flatten = [[some 1], [some 2], [some 1], [some 2]] ∧
                      stream'.flatten = [[some 1], [some 2]] := by
  refine ⟨?_, ?_, _, _, _, _, orderedOr_sequential _ _, orderedOr_parallel _ _,
    idDedup_runs rfl (idScans_sequential [[1], [2]] [[1], [2]]) trivial ?_,
    idDedup_runs rfl (idScans_parallel [[1, 1, 2, 2]] trivial ?_ ?_) trivial ?_, rfl, rfl⟩
  . simp [orderedOr, IndexFilter.NoEmptyNode, IndexFilter.NoEmptyNodes]
  . have hordered : (idIndex true [[1], [2]]).Ordered (.literal .null) :=
      idIndex_ordered (by unfold Sorted; decide)
    exact orderedOr_leaves.mpr ⟨⟨hordered, idIndex_scans (by decide)⟩, hordered,
      idIndex_scans (by decide)⟩
  . unfold Sorted
    decide
  . decide
  . unfold Sorted
    decide
  . unfold Sorted
    decide

theorem orderedOr_sequenced {xs ys : List (List Nat)}
    (h : ∀ x ∈ (idKeys xs).flatten, ∀ y ∈ (idKeys ys).flatten,
      ((LexOrdering.ascending ["id"]).cmp x y).isLE)
    : (orderedOr xs ys).Sequenced Index.scanned fun x y =>
        ((LexOrdering.ascending ["id"]).cmp x y).isLE := by
  refine ⟨⟨trivial, trivial, trivial⟩, fun _ => ?_⟩
  refine List.pairwise_pair.mpr ?_
  intro x hx y hy
  exact h x (idIndex_scanned.mp hx) y (idIndex_scanned.mp hy)

theorem sequenced_ordered_indexes_agree
    : ∃ sequential parallel stream stream',
        RecordFetchExec.buildScanExec DataFusion.reference .sequential
            (orderedOr [[1], [2]] [[2], [3]]) none = .ok sequential ∧
          RecordFetchExec.buildScanExec DataFusion.reference .parallel
              (orderedOr [[1], [2]] [[2], [3]]) none = .ok parallel ∧
            sequential.RunsSingle (fun _ => True) stream ∧
              parallel.RunsSingle (fun _ => True) stream' ∧
                ((stream.flatten.map (select ["id"] sequential.schema.names)).Perm
                    (stream'.flatten.map (select ["id"] parallel.schema.names)) ∧
                  (stream.flatten.map (select ["id"] sequential.schema.names)).Nodup ∧
                    (stream'.flatten.map (select ["id"] parallel.schema.names)).Nodup) := by
  have hf : (orderedOr [[1], [2]] [[2], [3]]).NoEmptyNode := by
    simp [orderedOr, IndexFilter.NoEmptyNode, IndexFilter.NoEmptyNodes]
  have hleaves : ∀ leaf ∈ (orderedOr [[1], [2]] [[2], [3]]).leaves, leaf.1.Ordered leaf.2 ∧
      leaf.1.Scans [("id", .int32)] (leaf.1.scanned leaf.2) leaf.2 none :=
    orderedOr_leaves.mpr ⟨⟨idIndex_ordered (by unfold Sorted; decide), idIndex_scans (by decide)⟩,
      idIndex_ordered (by unfold Sorted; decide), idIndex_scans (by decide)⟩
  obtain ⟨stream, hruns⟩ : ∃ stream, (idDedup (.sequentialUnion (idProperties 1)
      [idScan [[1], [2]], idScan [[2], [3]]])).RunsSingle (fun _ => True) stream :=
    ⟨_, idDedup_runs rfl (idScans_sequential [[1], [2]] [[2], [3]]) trivial
      (by unfold Sorted; decide)⟩
  obtain ⟨stream', hruns'⟩ : ∃ stream', (idDedup (.union (idProperties 2)
      [idScan [[1], [2]], idScan [[2], [3]]])).RunsSingle (fun _ => True) stream' :=
    ⟨_, idDedup_runs rfl (idScans_parallel [[1, 2], [2, 3]] trivial (by decide)
      (by unfold Sorted; decide)) trivial (by unfold Sorted; decide)⟩
  exact ⟨_, _, _, _, orderedOr_sequential _ _, orderedOr_parallel _ _, hruns, hruns',
    RecordFetchExec.union_modes_agree DataFusion.reference_schemas DataFusion.reference_headers
      DataFusion.reference_keyOrderings DataFusion.reference_unionOrderings
      DataFusion.reference_probeOrderings (by simp) (by simp) hf hleaves
      (fun _ => orderedOr_leaves.mpr ⟨rfl, rfl⟩) (orderedOr_sequenced (by decide))
      (orderedOr_sequential [[1], [2]] [[2], [3]]) (orderedOr_parallel [[1], [2]] [[2], [3]]) hruns
      hruns'⟩

end IndexProvider
