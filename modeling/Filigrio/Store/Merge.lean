import Filigrio.Resolve.Apply
import Filigrio.Lib.Index

/-!
# Filigrio.Store.Merge

The `GraphStore` port's merge: a delta is applied to an owned state in place.
Nodes, edges and `reverse` are patched (remove, then append), the remaining
facets replaced. `MemoryStore` and `DeferredStore` differ only in what they merge
onto.
-/

namespace Filigrio

/-- Steps 1 and 2: remove the dropped nodes, then add the nodes whose id was not
there before any of them was added. -/
def mergeNodes (nodes added : List Node) (removed : List NodeId) : List Node :=
  let kept := nodes.filter fun n => n.id ∉ removed
  kept ++ added.filter fun n => n.id ∉ kept.map Node.id

/-- Step 3: drop one occurrence for each retired edge, append the new ones. -/
def mergeEdges (edges added removed : List Edge) : List Edge :=
  (Patch.spend (Patch.budget removed) edges).1 ++ added

/-- Are the endpoints of an edge among `ids`? An unresolved edge may dangle. -/
def Edge.present (ids : List NodeId) (e : Edge) : Bool :=
  decide (e.source ∈ ids) &&
    match e.target with
    | .node t => decide (t ∈ ids)
    | .symbol _ => true

/-- Drop edges whose endpoints no longer exist. -/
def pruneDangling (nodes : List Node) (edges : List Edge) : List Edge :=
  edges.filter (Edge.present (nodes.map Node.id))

/-- Step 4: drop by source, append, re-canonicalize the names that moved. -/
def mergeReverse (refs : BTreeMap String (List Reference)) (dropped : List NodeId)
    (added : List (String × Reference)) : BTreeMap String (List Reference) :=
  let survives := fun r : Reference => r.source ∉ dropped
  let shrunk := refs.toList.filterMap fun p =>
    if (p.2.filter survives).length ≠ p.2.length then some p.1 else none
  let kept := Std.ExtTreeMap.filter (fun _ list => !list.isEmpty)
    (Std.ExtTreeMap.map (fun _ list => list.filter survives) refs)
  let touched := shrunk ++ added.map Prod.fst
  Std.ExtTreeMap.map (fun name list => if name ∈ touched then Canon.canon list else list)
    (BTreeMap.pushAll kept added)

/-- Apply a delta to an owned state in place. -/
def merge (state : GraphState) (delta : GraphDelta) : GraphState :=
  let nodes := mergeNodes state.graph.nodes delta.nodesAdded delta.nodesRemoved
  let edges := mergeEdges state.graph.edges delta.edgesAdded delta.edgesRemoved
  { graph := ⟨nodes, pruneDangling nodes edges⟩
    partition := delta.partition
    symbols := delta.symbols
    reverse := ⟨mergeReverse state.reverse.refs delta.reverseDropped delta.reverseAdded⟩
    manifest := delta.manifest
    workspace := delta.workspace
    exports := delta.exports
    symbolIndex := delta.symbolIndex }

/-- Merge onto `prior` without cloning the facets the delta replaces. -/
def mergeFrom (prior : GraphState) (delta : GraphDelta) : GraphState :=
  merge { GraphState.empty with graph := prior.graph, reverse := prior.reverse } delta

/-! ### What the merge ends with -/

/-- The minimal diff patches the retired part of a list into the emitted one. -/
theorem spend_diffEdges {prior carried retired : List Edge} (emitted : List Edge)
    (hprior : (prior : Multiset Edge) = carried + retired) :
    ((mergeEdges prior (diffEdges retired emitted).1 (diffEdges retired emitted).2 : List Edge) :
        Multiset Edge) = carried + emitted := by
  rw [mergeEdges, ← Multiset.coe_add]
  unfold diffEdges
  split
  · rename_i hnil
    rw [Patch.spend_budget, hprior, hnil]
    simp
  · exact Patch.apply_diff _ _ _ _ hprior

theorem carry_add_retired (prior : GraphState) (refsByName : BTreeMap String (List Reference))
    (impact : Option ImpactReport) (droppedIds projectIds : List NodeId) :
    (prior.graph.edges : Multiset Edge)
      = (carryPriorEdges prior refsByName impact droppedIds projectIds).1
        + (carryPriorEdges prior refsByName impact droppedIds projectIds).2 := by
  rw [carryPriorEdges, List.partition_eq_filter_filter, Multiset.coe_add, Multiset.coe_eq_coe]
  exact (List.filter_append_perm _ _).symm

/-- **Edges after a merge.** Carried, structural, linked and overlay edges, minus
exactly those with a missing endpoint. -/
theorem merge_edges (s : GraphState) (fx : FrontExtract) (fl : FrontLink) (scope : LinkScope)
    (partition : Partition) :
    let s' := merge s (buildDelta s fx fl (edgeStage s fx fl scope) partition)
    (s'.graph.edges : Multiset Edge) = ((worldEdges s fx fl scope).filter
      (Edge.present (s'.graph.nodes.map Node.id)) : List Edge) := by
  intro s'
  let es := edgeStage s fx fl scope
  have hprior : (s.graph.edges : Multiset Edge) = es.carried + es.retired :=
    carry_add_retired s fl.refsByName (linkStage s fx fl scope).2 fl.droppedIds
      fl.priorProjectNodeIds
  have hall : ((mergeEdges s.graph.edges (diffEdges es.retired (es.emitted ++ es.overlay)).1
      (diffEdges es.retired (es.emitted ++ es.overlay)).2 : List Edge) : Multiset Edge)
      = (es.carried ++ es.emitted ++ es.overlay : List Edge) := by
    rw [spend_diffEdges _ hprior, Multiset.coe_add, List.append_assoc]
  have hmerge : s'.graph.edges = (mergeEdges s.graph.edges
      (diffEdges es.retired (es.emitted ++ es.overlay)).1
      (diffEdges es.retired (es.emitted ++ es.overlay)).2).filter
        (Edge.present (s'.graph.nodes.map Node.id)) := rfl
  rw [hmerge, Multiset.coe_eq_coe]
  exact (Multiset.coe_eq_coe.mp hall).filter _

/-- Merging into a canonical index ends in the index of what survives and what is added. -/
theorem mergeReverse_index (l : List (String × Reference)) (dropped : List NodeId)
    (added : List (String × Reference)) :
    mergeReverse (BTreeMap.index l) dropped added
      = BTreeMap.index (l.filter (fun nr => nr.2.source ∉ dropped) ++ added) := by
  rw [mergeReverse]
  dsimp only
  exact BTreeMap.patch_index l added (fun r => r.source ∉ dropped) _
    fun p hp => List.mem_append_right _ (List.mem_map_of_mem hp)

/-- **References after a merge.** The healed universe of the apply, list by list. -/
theorem mergeReverse_eq (l : List (String × Reference)) (dropped : List NodeId)
    (newRefs healed : List (String × Reference)) :
    mergeReverse (BTreeMap.index l) dropped (newRefs ++ healed)
      = healed.foldl addHealed (rebuildRefs ⟨BTreeMap.index l⟩ dropped newRefs) := by
  have hhealed : healed.foldl addHealed (rebuildRefs ⟨BTreeMap.index l⟩ dropped newRefs)
      = BTreeMap.index ((BTreeMap.pairs (BTreeMap.index l)).filter
          (fun nr => nr.2.source ∉ dropped) ++ newRefs ++ healed) :=
    BTreeMap.foldl_insert_index _ _
  rw [hhealed, mergeReverse_index]
  exact BTreeMap.index_congr fun p => by
    simp only [List.append_assoc, List.mem_append, List.mem_filter, BTreeMap.mem_pairs_index]

/-- The healed references of an apply are what the merged state holds. -/
theorem merge_reverse_eq {C : Type} {s : GraphState} {source : Source C} {fx : FrontExtract}
    {es : EdgeStage} {partition : Partition} {l : List (String × Reference)}
    (hl : s.reverse.refs = BTreeMap.index l) :
    (merge s (buildDelta s fx (frontLink s source fx) es partition)).reverse.refs
      = (frontLink s source fx).refsByName := by
  have hmerge : (merge s (buildDelta s fx (frontLink s source fx) es partition)).reverse.refs
      = mergeReverse s.reverse.refs (frontLink s source fx).droppedIds
          (fx.extracted.refs ++ (frontLink s source fx).healedRefs) := rfl
  have hprior : s.reverse = ⟨BTreeMap.index l⟩ := congrArg ReverseIndex.mk hl
  rw [hmerge, hl, mergeReverse_eq, ← hprior, frontLink_refsByName]

/-- Seeding only the patched facets changes nothing. -/
theorem mergeFrom_eq (prior : GraphState) (delta : GraphDelta) :
    mergeFrom prior delta = merge prior delta := rfl

/-! ### The stores -/

/-- In-memory store: the state behind the mutex. -/
structure MemoryStore where
  state : GraphState

namespace MemoryStore

def new : MemoryStore := ⟨GraphState.empty⟩

def loadState (s : MemoryStore) : Option GraphState := some s.state

end MemoryStore

/-- A store that merges into memory over a resident `prior`. -/
structure DeferredStore where
  prior : GraphState
  applied : Option GraphState

namespace DeferredStore

def new (prior : GraphState) : DeferredStore := ⟨prior, none⟩

/-- The merged state, if any delta was applied; what is left holds none. -/
def take (s : DeferredStore) : Option GraphState × DeferredStore :=
  (s.applied, { s with applied := none })

def loadState (s : DeferredStore) : Option GraphState := some (s.applied.getD s.prior)

end DeferredStore

end Filigrio
