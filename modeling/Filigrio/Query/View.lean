import Filigrio.Lib.Tally
import Filigrio.Lib.Text
import Filigrio.Lib.Worklist
import Filigrio.Core.State

/-!
# Filigrio.Query.View

`GraphView`: a graph state with an index of its resolved edges, and the label of each
community; and `query`, the traversal from the ranked seeds. How the seeds are ranked is
left open: `query` is given the nodes that `seed_scores` answers, best first.
-/

namespace Filigrio

/-! ### Relations -/

namespace Relation

def isTypeFamily (relation : String) : Bool := Text.startsWith relation "type/"

/-- Physical wiring and containment, as opposed to code meaning. -/
def isStructural (relation : String) : Bool :=
  if isTypeFamily relation then false
  else relation ∈ ["contains", "imports", "depends_on", "has_variant"]

/-- Whether a filter entry selects a relation: as a filter word, exactly, or as a family. -/
def relationMatchesFilter (entry relation : String) : Bool :=
  if entry = "any" then true
  else if entry = "semantic" then !isStructural relation
  else if entry = relation then true
  else
    let family := (Text.stripSuffix entry "/").getD entry
    decide (family.toList.length < relation.toList.length) && Text.startsWith relation family
      && decide (relation.toList[family.toList.length]? = some '/')

end Relation

/-- Traversal order for a graph query. -/
inductive TraversalMode
  | bfs
  | dfs
  deriving DecidableEq, Repr

structure QueryOpts where
  depth : ℕ
  budget : ℕ
  mode : TraversalMode
  contextFilter : Option (List String)

/-- A materialized traversal result. -/
structure Subgraph where
  nodes : List Node
  edges : List Edge
  communities : BTreeMap NodeId String

/-- An edge of the index: its ends, and the edge of the graph it stands for. -/
structure Arc (n : ℕ) where
  source : Fin n
  target : Fin n
  edge : Edge

/-- The index: the resolved edges in the order in which they were added, where each node id
stands, and the label of each community. Indexed ids are found where they stand, and the edges
join the nodes they name. -/
structure GraphView where
  state : GraphState
  arcs : List (Arc state.graph.nodes.length)
  idxOf : BTreeMap NodeId (Fin state.graph.nodes.length)
  communityLabels : BTreeMap ℕ String
  id_of_idxOf : ∀ {id ix}, idxOf[id]? = some ix → (state.graph.nodes.get ix).id = id
  ends_of_mem : ∀ a ∈ arcs, idxOf[a.edge.source]? = some a.source
    ∧ ∃ t, a.edge.target = .node t ∧ idxOf[t]? = some a.target

namespace GraphView

/-! ### Construction -/

section New

variable (state : GraphState)

def buildIdxOf : BTreeMap NodeId (Fin state.graph.nodes.length) :=
  BTreeMap.insertAll ∅ ((List.finRange _).map fun i => ((state.graph.nodes.get i).id, i))

/-- Only edges bound to a node are added, and only between indexed nodes. -/
def buildArcs : List (Arc state.graph.nodes.length) :=
  state.graph.edges.filterMap fun e =>
    match e.target with
    | .symbol _ => none
    | .node target =>
        match (buildIdxOf state)[e.source]?, (buildIdxOf state)[target]? with
        | some s, some d => some { source := s, target := d, edge := e }
        | _, _ => none

theorem id_of_buildIdxOf {id : NodeId} {ix : Fin state.graph.nodes.length}
    (h : (buildIdxOf state)[id]? = some ix) : (state.graph.nodes.get ix).id = id := by
  rw [buildIdxOf, BTreeMap.get_insertAll, Std.ExtTreeMap.getElem?_empty, Option.or_none,
    Option.map_eq_some_iff] at h
  obtain ⟨p, hlast, rfl⟩ := h
  obtain ⟨hin, hid⟩ := List.mem_filter.mp (List.mem_of_getLast? hlast)
  obtain ⟨i, -, rfl⟩ := List.mem_map.mp hin
  simpa using hid

/-- The index finds the ids of the nodes, and no others. -/
theorem mem_buildIdxOf {state : GraphState} {id : NodeId} :
    id ∈ buildIdxOf state ↔ ∃ m ∈ state.graph.nodes, m.id = id := by
  rw [buildIdxOf, BTreeMap.mem_insertAll]
  constructor
  · intro h
    rcases h with h | h
    · obtain ⟨p, hp, rfl⟩ := List.mem_map.mp h
      obtain ⟨ix, -, rfl⟩ := List.mem_map.mp hp
      exact ⟨_, List.get_mem _ ix, rfl⟩
    · simp at h
  · intro ⟨m, hm, hid⟩
    obtain ⟨ix, hix⟩ := List.get_of_mem hm
    refine Or.inl (List.mem_map.mpr ⟨(m.id, ix), ?_, hid⟩)
    exact List.mem_map.mpr ⟨ix, List.mem_finRange ix, by rw [hix]⟩

theorem exists_index {state : GraphState} {id : NodeId} (h : ∃ m ∈ state.graph.nodes, m.id = id) :
    ∃ ix, (buildIdxOf state)[id]? = some ix := by
  have hmem := mem_buildIdxOf.mpr h
  exact ⟨_, Std.ExtTreeMap.getElem?_eq_some_getElem hmem⟩

theorem ends_of_buildArcs (a : Arc state.graph.nodes.length) (ha : a ∈ buildArcs state) :
    (buildIdxOf state)[a.edge.source]? = some a.source
    ∧ ∃ t, a.edge.target = .node t ∧ (buildIdxOf state)[t]? = some a.target := by
  obtain ⟨e, -, he⟩ := List.mem_filterMap.mp ha
  split at he
  · cases he
  · rename_i t ht
    split at he
    · rename_i s d hs hd
      cases he
      exact ⟨hs, t, ht, hd⟩
    · cases he

/-- The degrees that choose a label: every non-structural edge counts for its source, and for
its target when that is bound. -/
def nodeEdges : BTreeMap NodeId ℕ :=
  BTreeMap.addAll ∅ (state.graph.edges.flatMap fun e =>
    if Relation.isStructural e.relation then []
    else (e.source, 1) :: match e.target with
      | .symbol _ => []
      | .node target => [(target, 1)])

/-- One node against the best member so far of its community. -/
def keepBest (best : BTreeMap ℕ (ℕ × String)) (n : Node) : BTreeMap ℕ (ℕ × String) :=
  match state.partition.nodeCommunity[n.id]? with
  | none => best
  | some cid =>
      let candidate := (((nodeEdges state)[n.id]?).getD 0, n.label)
      match best[cid]? with
      | none => best.insert cid candidate
      | some (deg, label) =>
          if deg < candidate.1 ∨ (candidate.1 = deg ∧ candidate.2 < label) then
            best.insert cid candidate
          else best

/-- Each community's label: its member of highest degree, ties broken by label. -/
def buildCommunityLabels : BTreeMap ℕ String :=
  if state.partition.nodeCommunity.isEmpty then ∅
  else BTreeMap.insertAll ∅ ((state.graph.nodes.foldl (keepBest state) ∅).toList.map
    fun best => (best.1, best.2.2))

def new : GraphView where
  state := state
  arcs := buildArcs state
  idxOf := buildIdxOf state
  communityLabels := buildCommunityLabels state
  id_of_idxOf := id_of_buildIdxOf state
  ends_of_mem := ends_of_buildArcs state

end New

/-! ### Queries -/

variable (view : GraphView)

/-- The nodes of the index. -/
abbrev NodeIndex : Type := Fin view.state.graph.nodes.length

/-- The label of a node's community, if it has one. -/
def communityOf (id : NodeId) : Option String :=
  (view.state.partition.nodeCommunity[id]?).bind fun cid => view.communityLabels[cid]?

/-- A node with its community label in its attributes. -/
def nodeWithCommunity (ix : view.NodeIndex) : Node :=
  let node := view.state.graph.nodes.get ix
  match view.communityOf node.id with
  | none => node
  | some community => { node with attrs := node.attrs.insert "community" community }

@[simp] theorem id_nodeWithCommunity (ix : view.NodeIndex) :
    (view.nodeWithCommunity ix).id = (view.state.graph.nodes.get ix).id := by
  rw [nodeWithCommunity]
  split <;> rfl

/-- Each returned node's community label. -/
def communitiesOf (nodes : List Node) : BTreeMap NodeId String :=
  BTreeMap.insertAll ∅ (nodes.filterMap fun n => (view.communityOf n.id).map fun l => (n.id, l))

/-- The edges out of a node, the latest added first. -/
def outgoing (ix : view.NodeIndex) : List (Arc view.state.graph.nodes.length) :=
  (view.arcs.filter fun a => a.source = ix).reverse

/-- The edges out of a node that the filter selects. -/
def matching (filter : Option (List String)) (ix : view.NodeIndex) :
    List (Arc view.state.graph.nodes.length) :=
  (view.outgoing ix).filter fun a =>
    match filter with
    | none => true
    | some entries => entries.any fun r => Relation.relationMatchesFilter r a.edge.relation

/-- The seeds, in ranked order. -/
def seeds (ranked : List Node) : List view.NodeIndex :=
  ranked.filterMap fun n => view.idxOf[n.id]?

/-- Breadth first takes the oldest entry, depth first the newest. -/
def pop {V : Type*} : TraversalMode → List (V × ℕ) → Option ((V × ℕ) × List (V × ℕ))
  | .bfs => Worklist.popFront
  | .dfs => Worklist.popBack

/-- `while let Some((ix, depth)) = pop(..)`, and whether the loop would go on; the turns
allowed are enough (`loop_stops`). -/
def loop (ranked : List Node) (opts : QueryOpts) :
    Worklist.State view.NodeIndex (Arc view.state.graph.nodes.length) × Bool :=
  let start := Worklist.start (view.seeds ranked)
  Worklist.run (pop opts.mode) (view.matching opts.contextFilter) Arc.target opts.depth
    opts.budget (Worklist.pending (view.matching opts.contextFilter) start + 1) start

/-- Nodes and edges around the ranked seeds. -/
def query (ranked : List Node) (opts : QueryOpts) : Subgraph :=
  let st := (view.loop ranked opts).1
  let nodes := st.visited.map view.nodeWithCommunity
  { nodes := nodes
    edges := st.edges.map Arc.edge
    communities := view.communitiesOf nodes }

end GraphView

end Filigrio
