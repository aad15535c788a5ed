import Filigrio.Store.Merge
import Filigrio.Ledger.Step
import Filigrio.Ledger.Sample

/-!
# Filigrio.Store.EdgeDiff

The edge half of a delta. The engine compares what it retires with what it emits, and
the store applies the pair to the prior edges. The carry splits the prior edges by a
predicate, so the pair is the patch from the prior edges to the whole result, as lists,
wherever the split runs.
-/

namespace Filigrio

variable {C : Type}

/-- Nothing retired is no special case. -/
theorem diffEdges_eq (retired emitted : List Edge) :
    diffEdges retired emitted = Patch.diff retired emitted := by
  unfold diffEdges
  split
  · rename_i hnil
    rw [hnil, Patch.diff_nil]
  · rfl

/-- The pair is the patch from the prior edges to the edges the apply ends with. -/
theorem buildDelta_edges (s : GraphState) (fx : FrontExtract) (fl : FrontLink) (scope : LinkScope)
    (partition : Partition) :
    let δ := buildDelta s fx fl (edgeStage s fx fl scope) partition
    (δ.edgesAdded, δ.edgesRemoved) = Patch.diff s.graph.edges (worldEdges s fx fl scope) := by
  intro δ
  have hretired : (edgeStage s fx fl scope).retired = s.graph.edges.filter fun e =>
      !keepPriorEdge (refSites fl.refsByName) (linkStage s fx fl scope).2 fl.droppedIds
        fl.priorProjectNodeIds e := by
    simp only [edgeStage, carryPriorEdges, List.partition_eq_filter_filter]
    rfl
  show diffEdges (edgeStage s fx fl scope).retired
    ((edgeStage s fx fl scope).emitted ++ (edgeStage s fx fl scope).overlay) = _
  rw [diffEdges_eq, hretired, Patch.diff_split, worldEdges, edgeStage_carried, List.append_assoc]

/-- The pair as a patch: what it does to the retired edges, to any prior edges they are
a part of, and in which order its edges stand. -/
structure MinimalDiff (retired emitted added removed : List Edge) : Prop where
  balance : (retired : Multiset Edge) + added = emitted + removed
  disjoint : added.Disjoint removed
  added_le : ∀ e, added.count e ≤ emitted.count e
  removed_le : ∀ e, removed.count e ≤ retired.count e
  added_order : added.Sublist emitted
  removed_order : removed.Sublist retired
  /-- Over any split of the prior edges, it applies, and it is that of the whole. -/
  split : ∀ prior carried : List Edge, (prior : Multiset Edge) = carried + retired →
    (mergeEdges prior added removed : Multiset Edge) = carried + emitted ∧
    (added : Multiset Edge) = (carried + emitted : Multiset Edge) - prior ∧
    (removed : Multiset Edge) = (prior : Multiset Edge) - (carried + emitted)

theorem minimalDiff_diffEdges (retired emitted : List Edge) :
    MinimalDiff retired emitted (diffEdges retired emitted).1 (diffEdges retired emitted).2 := by
  have hadded : ((diffEdges retired emitted).1 : Multiset Edge)
      = (emitted : Multiset Edge) - retired := by
    rw [diffEdges_eq, Patch.diff_added]
  have hremoved : ((diffEdges retired emitted).2 : Multiset Edge)
      = (retired : Multiset Edge) - emitted := by
    rw [diffEdges_eq, Patch.diff_removed]
  refine
    { balance := ?_
      disjoint := ?_
      added_le := fun e => ?_
      removed_le := fun e => ?_
      added_order := ?_
      removed_order := ?_
      split := fun prior carried hprior => ⟨spend_diffEdges emitted hprior, ?_, ?_⟩ }
  · rw [hadded, hremoved]
    ext e
    simp only [Multiset.count_add, Multiset.count_sub]
    omega
  · rw [diffEdges_eq]
    exact Patch.disjoint_diff retired emitted
  · rw [diffEdges_eq]
    exact (Patch.spend_sublist _ emitted).count_le e
  · rw [diffEdges_eq]
    exact (Patch.claim_sublist _ retired).count_le e
  · rw [diffEdges_eq]
    exact Patch.spend_sublist _ emitted
  · rw [diffEdges_eq]
    exact Patch.claim_sublist _ retired
  · rw [hadded, hprior]
    ext e
    simp only [Multiset.count_add, Multiset.count_sub]
    omega
  · rw [hremoved, hprior]
    ext e
    simp only [Multiset.count_add, Multiset.count_sub]
    omega

/-- **The edge diff is minimal.** For any lists, and for the pair of every apply, which
turns the prior edges into the carried and emitted ones and depends on nothing else. -/
theorem edge_diff_minimal :
    (∀ retired emitted : List Edge,
      MinimalDiff retired emitted (diffEdges retired emitted).1 (diffEdges retired emitted).2) ∧
    ∀ (st : Stages C) (s : GraphState) (changes : ChangeSet) (source : Source C) (ex : Extractor C)
      (scope : LinkScope) (timing : ClusterTiming) (δ : GraphDelta),
      Engine.applyWith st s changes source ex scope timing = .ok δ →
      ∃ fx, frontExtract st s changes source ex = .ok fx ∧
        let world := worldEdges s fx (frontLink s source fx) scope
        (mergeEdges s.graph.edges δ.edgesAdded δ.edgesRemoved : Multiset Edge) = world ∧
        (δ.edgesAdded, δ.edgesRemoved) = Patch.diff s.graph.edges world ∧
        (δ.edgesAdded : Multiset Edge) = (world : Multiset Edge) - s.graph.edges ∧
        (δ.edgesRemoved : Multiset Edge) = (s.graph.edges : Multiset Edge) - world ∧
        δ.edgesRemoved.Sublist s.graph.edges := by
  refine ⟨minimalDiff_diffEdges, fun st s changes source ex scope timing δ happly => ?_⟩
  obtain ⟨fx, partition, hfx, rfl⟩ := applyWith_ok happly
  have hpair := buildDelta_edges s fx (frontLink s source fx) scope partition
  have hadded := congrArg Prod.fst hpair
  have hremoved := congrArg Prod.snd hpair
  dsimp only at hadded hremoved
  refine ⟨fx, hfx, ?_, hpair, ?_, ?_, ?_⟩
  · have hpatch := Patch.apply_diff [] s.graph.edges
      (worldEdges s fx (frontLink s source fx) scope) s.graph.edges (by simp)
    rw [mergeEdges, ← Multiset.coe_add, hadded, hremoved, hpatch]
    simp
  · rw [hadded, Patch.diff_added]
  · rw [hremoved, Patch.diff_removed]
  · rw [hremoved]
    exact Patch.claim_sublist _ s.graph.edges

/-- `edge_diff_minimal` on the cold build of two files, one calling the other. -/
theorem edge_diff_minimal_sample : ∃ δ fx,
    Engine.applyWith Snippet.stages .empty (.allAdded ["a.ts", "b.ts"])
      (Snippet.source [("a.ts", .plain "f"), ("b.ts", .caller "f")]) Snippet.extractor
      .global .inline = .ok δ ∧
    δ.edgesAdded = worldEdges .empty fx (frontLink .empty
      (Snippet.source [("a.ts", .plain "f"), ("b.ts", .caller "f")]) fx) .global ∧
    δ.edgesRemoved = [] := by
  have hok : (Engine.applyWith Snippet.stages .empty (.allAdded ["a.ts", "b.ts"])
      (Snippet.source [("a.ts", .plain "f"), ("b.ts", .caller "f")]) Snippet.extractor
      .global .inline).isOk = true := by decide +kernel
  cases happly : Engine.applyWith Snippet.stages .empty (.allAdded ["a.ts", "b.ts"])
      (Snippet.source [("a.ts", .plain "f"), ("b.ts", .caller "f")]) Snippet.extractor
      .global .inline with
  | error e => rw [happly] at hok; cases hok
  | ok δ =>
      obtain ⟨fx, -, -, hpair, -, -, -⟩ := edge_diff_minimal.2 _ _ _ _ _ _ _ _ happly
      rw [GraphState.empty, Patch.diff_nil] at hpair
      exact ⟨δ, fx, rfl, congrArg Prod.fst hpair, congrArg Prod.snd hpair⟩

end Filigrio
