import Filigrio.Core.Ports
import Filigrio.Lib.Canon
import Filigrio.Lib.Rank
import Filigrio.Query.Neighbors

/-!
# Filigrio.Query.Analysis

The analysis over a built graph: the communities with their labels and rosters, the edges
that bridge two of them, the nodes of highest degree, and the report that is made of these.

What the report says is a matter of the graph and not of the order in which its nodes and
edges are listed (`report_of_perm`); its labels are those of the query surface, and its rows
account for every placed node and every bridging edge (`report_accounts`).
-/

namespace Filigrio

/-! ### The report -/

/-- One community, named by its most central member. -/
structure CommunitySummary where
  id : ℕ
  label : String
  size : ℕ
  members : List Node
  cohesionPermille : ℕ

/-- A semantic edge whose ends lie in different communities. -/
structure Bridge where
  edge : Edge
  «from» : ℕ
  «to» : ℕ

structure GraphStats where
  nodes : ℕ
  edges : ℕ
  communities : ℕ
  byConfidence : BTreeMap String ℕ

/-- One project: its size, and the projects of the workspace it depends on. -/
structure ProjectNode where
  root : String
  name : Option String
  manifest : String
  files : ℕ
  dependsOn : List String

structure GraphReport where
  stats : GraphStats
  godNodes : List (Node × ℕ)
  communities : List CommunitySummary
  bridges : List Bridge
  projects : List ProjectNode

/-- `{:?}` of a confidence. -/
def Confidence.debug : Confidence → String
  | .extracted => "Extracted"
  | .inferred => "Inferred"
  | .ambiguous => "Ambiguous"

/-- The bound target of an edge; its source stands in for a symbol. -/
def Edge.targetId (e : Edge) : NodeId :=
  match e.target with
  | .node t => t
  | .symbol _ => e.source

def Bridge.key (b : Bridge) : ℕ ×ₗ ℕ ×ₗ NodeId ×ₗ NodeId :=
  toLex (b.«from», toLex (b.«to», toLex (b.edge.source, b.edge.targetId)))

/-- Degree descending, then label ascending. -/
def godRank (row : Node × ℕ) : ℕᵒᵈ ×ₗ String := toLex (OrderDual.toDual row.2, row.1.label)

namespace GraphView

variable (view : GraphView)

def communityIdOf (id : NodeId) : Option ℕ := view.state.partition.nodeCommunity[id]?

/-- The semantic edges of a node in the index, in both directions. -/
def semanticDegree (ix : view.NodeIndex) : ℕ :=
  ((view.outgoing ix ++ view.incoming ix).filter
    fun a => !Relation.isStructural a.edge.relation).length

def godNodes (topN : ℕ) : List (Node × ℕ) :=
  (Rank.sortBy godRank ((List.finRange view.state.graph.nodes.length).map
    fun ix => (view.state.graph.nodes.get ix, view.semanticDegree ix))).take topN

/-- The placed nodes of each community. -/
def members : BTreeMap ℕ (List Node) :=
  BTreeMap.pushAll ∅ (view.state.graph.nodes.filterMap
    fun n => (view.communityIdOf n.id).map fun cid => (cid, n))

/-- One community with its label and its roster, sorted by label. -/
def summarize (id : ℕ) (ms : List Node) : CommunitySummary :=
  { id
    label := (view.communityLabels[id]?).getD ""
    size := ms.length
    members := Rank.sortBy Node.label ms
    cohesionPermille :=
      ((view.state.partition.communities[id]?).map CommunityMeta.cohesionPermille).getD 0 }

def communitySummaries : List CommunitySummary :=
  view.members.toList.map fun c => view.summarize c.1 c.2

/-- An edge as a bridge, if it is one. -/
def bridge (e : Edge) : Option Bridge :=
  match e.target with
  | .symbol _ => none
  | .node t =>
      if Relation.isStructural e.relation then none
      else match view.communityIdOf e.source, view.communityIdOf t with
        | some cid, some cid' => if cid ≠ cid' then some ⟨e, cid, cid'⟩ else none
        | _, _ => none

def bridges : List Bridge :=
  Rank.sortBy Bridge.key (view.state.graph.edges.filterMap view.bridge)

def stats : GraphStats where
  nodes := view.state.graph.nodes.length
  edges := view.state.graph.edges.length
  communities := view.state.partition.communities.size
  byConfidence :=
    BTreeMap.addAll ∅ (view.state.graph.edges.map fun e => (e.confidence.debug, 1))

/-- The files of each project: the `file` nodes whose nearest project it is. -/
def projectFiles : BTreeMap String ℕ :=
  BTreeMap.addAll ∅ (view.state.graph.nodes.filterMap fun n =>
    if n.kind = "file" then
      (n.sourceFile.bind view.state.workspace.rootOf).map fun root => (root, 1)
    else none)

def projectGraph : List ProjectNode :=
  view.state.workspace.values.map fun p =>
    { root := p.root
      name := p.name
      manifest := p.manifest
      files := (view.projectFiles[p.root]?).getD 0
      dependsOn := (view.state.workspace.dependsOn[p.root]?).getD [] }

/-- The full report, with the `topGods` nodes of highest degree. -/
def report (topGods : ℕ) : GraphReport where
  stats := view.stats
  godNodes := view.godNodes topGods
  communities := view.communitySummaries
  bridges := view.bridges
  projects := view.projectGraph

end GraphView

namespace GraphReport

/-- `CommunityId(u64::MAX)`, for a node of no community. -/
def noCommunity : ℕ := 2 ^ 64 - 1

/-- Community id → label, from the summaries. -/
def communityLabels (r : GraphReport) : BTreeMap ℕ String :=
  BTreeMap.insertAll ∅ (r.communities.map fun c => (c.id, c.label))

/-- The community whose roster has the node. -/
def idCommunity (r : GraphReport) (n : Node) : ℕ :=
  ((r.communities.find? fun c => c.members.any fun m => m.id = n.id).map
    CommunitySummary.id).getD noCommunity

/-- The community column of a node's row. -/
def communityColumn (r : GraphReport) (n : Node) : String :=
  (r.communityLabels[r.idCommunity n]?).getD "—"

end GraphReport

/-! ### What the report is about -/

/-- The nodes of a community. -/
def placed (state : GraphState) (cid : ℕ) : List Node :=
  state.graph.nodes.filter fun n => state.partition.nodeCommunity[n.id]? = some cid

/-- The ends of semantic edges at a node, those of unresolved edges among them. -/
def labelDegree (state : GraphState) (id : NodeId) : ℕ :=
  let semantic := state.graph.edges.filter fun e => !Relation.isStructural e.relation
  (semantic.filter fun e => e.source = id).length
    + (semantic.filter fun e => e.target = .node id).length

/-- Most connected first, then by label. -/
def labelRank (state : GraphState) (n : Node) : ℕᵒᵈ ×ₗ String :=
  toLex (OrderDual.toDual (labelDegree state n.id), n.label)

/-- Whether an edge joins two nodes. -/
def joined (state : GraphState) (e : Edge) : Bool :=
  decide (∃ m ∈ state.graph.nodes, m.id = e.source)
    && decide (∃ m ∈ state.graph.nodes, e.target = .node m.id)

/-- The semantic edges that join two nodes. -/
def couplings (state : GraphState) : List Edge :=
  state.graph.edges.filter fun e => joined state e && !Relation.isStructural e.relation

/-- The ends of such edges at a node. -/
def couplingDegree (state : GraphState) (id : NodeId) : ℕ :=
  ((couplings state).filter fun e => e.source = id).length
    + ((couplings state).filter fun e => e.target = .node id).length

/-- Two reports that say the same: rows of one rank may change places. -/
structure GraphReport.Same (r r' : GraphReport) : Prop where
  stats : r.stats = r'.stats
  projects : r.projects = r'.projects
  godNodes : r.godNodes.map godRank = r'.godNodes.map godRank
  communities : r.communities.map (fun c => (c.id, c.label, c.size, c.cohesionPermille))
    = r'.communities.map fun c => (c.id, c.label, c.size, c.cohesionPermille)
  rosters : r.communities.map (fun c => c.members.map Node.label)
    = r'.communities.map fun c => c.members.map Node.label
  members : List.Forall₂ (fun c c' => c.members.Perm c'.members) r.communities r'.communities
  bridges : r.bridges.map Bridge.key = r'.bridges.map Bridge.key
  crossings : r.bridges.Perm r'.bridges

/-- A report accounts for a graph, under the labels that the query surface gives. -/
structure GraphReport.Accounts (r : GraphReport) (state : GraphState) (topGods : ℕ) : Prop where
  /-- Every community with a node has its summary, in the order of the ids. -/
  ids : r.communities.map CommunitySummary.id
    = Canon.canon (state.graph.nodes.filterMap fun n => state.partition.nodeCommunity[n.id]?)
  members : ∀ c ∈ r.communities, c.members.Perm (placed state c.id)
    ∧ c.size = (placed state c.id).length
    ∧ c.members.Pairwise fun m m' => m.label ≤ m'.label
  /-- A summary carries the label of each of its members. -/
  labels : ∀ c ∈ r.communities, ∀ m ∈ c.members,
    (GraphView.new state).communityOf m.id = some c.label
  /-- The rows of the god nodes: the nodes of highest degree, with their degrees. -/
  godNodes : ∃ rest, (r.godNodes ++ rest).Perm
      (state.graph.nodes.map fun n => (n, couplingDegree state n.id))
    ∧ r.godNodes.length = min topGods state.graph.nodes.length
    ∧ (r.godNodes.map godRank).Pairwise (· ≤ ·)
    ∧ ∀ row ∈ r.godNodes, ∀ left ∈ rest, godRank row ≤ godRank left
  /-- The community column of a row is the label that the query surface answers. -/
  columns : ∀ row ∈ r.godNodes, r.communityColumn row.1
    = ((GraphView.new state).communityOf row.1.id).getD "—"
  /-- The bridges: each semantic edge between two communities once, in the order of the keys,
  and both communities under the labels of its ends. -/
  bridges : (r.bridges.map Bridge.edge).Perm (state.graph.edges.filter fun e =>
      e.target.isNode && !Relation.isStructural e.relation
      && (state.partition.nodeCommunity[e.source]?).isSome
      && (state.partition.nodeCommunity[e.targetId]?).isSome
      && decide (state.partition.nodeCommunity[e.source]?
        ≠ state.partition.nodeCommunity[e.targetId]?))
    ∧ (r.bridges.map Bridge.key).Pairwise (· ≤ ·)
  ends : ∀ b ∈ r.bridges,
    r.communityLabels[b.«from»]? = (GraphView.new state).communityOf b.edge.source
    ∧ r.communityLabels[b.«to»]? = (GraphView.new state).communityOf b.edge.targetId

/-! ### The labels -/

namespace GraphView

variable {state : GraphState}

/-- The degree of a node against the best of its community, as it is kept. -/
def standing (c : ℕ × String) : ℕᵒᵈ ×ₗ String := toLex (OrderDual.toDual c.1, c.2)

theorem standing_lt_iff (c d : ℕ × String) :
    standing c < standing d ↔ d.1 < c.1 ∨ (c.1 = d.1 ∧ c.2 < d.2) := by
  simp only [standing, Prod.Lex.toLex_lt_toLex, OrderDual.toDual_lt_toDual, OrderDual.toDual_inj]

theorem length_filter_cons (p : Edge → Bool) (e : Edge) (l : List Edge) :
    ((e :: l).filter p).length = (if p e = true then 1 else 0) + (l.filter p).length := by
  rw [List.filter_cons]
  split
  · rw [List.length_cons, add_comm]
  · rw [zero_add]

/-- The degree map counts the ends at each node. -/
theorem getD_nodeEdges (id : NodeId) :
    ((nodeEdges state)[id]?).getD 0 = labelDegree state id := by
  rw [nodeEdges, BTreeMap.getD_addAll, Std.ExtTreeMap.getElem?_empty, Option.getD_none, zero_add,
    labelDegree]
  induction state.graph.edges with
  | nil => rfl
  | cons e l ih =>
      rw [List.flatMap_cons, BTreeMap.sumAt_append, ih, List.filter_cons]
      by_cases hs : Relation.isStructural e.relation
      · simp [hs]
      · simp only [hs, Bool.not_false, if_true, Bool.false_eq_true, if_false]
        rw [length_filter_cons, length_filter_cons, BTreeMap.sumAt_cons]
        cases e.target with
        | symbol r =>
            simp only [BTreeMap.sumAt_nil, decide_eq_true_eq, reduceCtorEq, if_false]
            omega
        | node t =>
            simp only [BTreeMap.sumAt_cons, BTreeMap.sumAt_nil, decide_eq_true_eq,
              EdgeTarget.node.injEq]
            omega

/-- One node changes the best of its community only. -/
theorem get_keepBest (best : BTreeMap ℕ (ℕ × String)) (n : Node) (cid : ℕ) :
    (keepBest state best n)[cid]? = if state.partition.nodeCommunity[n.id]? = some cid then
        Rank.keepLeast standing best[cid]? (labelDegree state n.id, n.label)
      else best[cid]? := by
  rw [keepBest, ← getD_nodeEdges]
  cases hn : state.partition.nodeCommunity[n.id]? with
  | none => rw [if_neg fun h => by cases h]
  | some cid' =>
      dsimp only
      by_cases hcid : cid' = cid
      · subst hcid
        rw [if_pos rfl]
        cases hbest : best[cid']? with
        | none => rw [Rank.keepLeast_none, BTreeMap.get_insert, if_pos rfl]
        | some b =>
            rw [Rank.keepLeast_some]
            dsimp only
            by_cases hlt : standing (((nodeEdges state)[n.id]?).getD 0, n.label) < standing b
            · rw [if_pos hlt, if_pos, BTreeMap.get_insert, if_pos rfl]
              exact (standing_lt_iff _ _).mp hlt
            · rw [if_neg hlt, if_neg, hbest]
              exact fun h => hlt ((standing_lt_iff _ _).mpr h)
      · rw [if_neg fun h => hcid (Option.some.inj h)]
        cases hbest : best[cid']? with
        | none => rw [BTreeMap.get_insert, if_neg hcid]
        | some b =>
            dsimp only
            split
            · rw [BTreeMap.get_insert, if_neg hcid]
            · rfl

theorem get_foldl_keepBest (nodes : List Node) (best : BTreeMap ℕ (ℕ × String)) (cid : ℕ) :
    (nodes.foldl (keepBest state) best)[cid]?
      = ((nodes.filter fun n => state.partition.nodeCommunity[n.id]? = some cid).map
          fun n => (labelDegree state n.id, n.label)).foldl (Rank.keepLeast standing) best[cid]? := by
  induction nodes generalizing best with
  | nil => rfl
  | cons n nodes ih =>
      rw [List.foldl_cons, ih, get_keepBest, List.filter_cons]
      by_cases h : state.partition.nodeCommunity[n.id]? = some cid
      · rw [if_pos h, if_pos (decide_eq_true h), List.map_cons, List.foldl_cons]
      · rw [if_neg h, if_neg (by simpa using h)]

/-- A rebuilt listing answers what the map answers. -/
theorem get_relabelled {ν : Type} (m : BTreeMap ℕ (ℕ × ν)) (cid : ℕ) :
    (BTreeMap.insertAll (∅ : BTreeMap ℕ ν) (m.toList.map fun b => (b.1, b.2.2)))[cid]?
      = (m[cid]?).map Prod.snd := by
  have hkeys : ((m.toList.map fun b => (b.1, b.2.2)).map Prod.fst).Nodup := by
    rw [List.map_map]
    have hfst : (Prod.fst ∘ fun b : ℕ × ℕ × ν => (b.1, b.2.2)) = Prod.fst := rfl
    rw [hfst, Std.ExtTreeMap.map_fst_toList_eq_keys]
    exact Std.ExtTreeMap.nodup_keys
  ext v
  rw [BTreeMap.get_insertAll_of_nodup hkeys, List.mem_map]
  constructor
  · intro ⟨b, hb, heq⟩
    cases heq
    rw [BTreeMap.mem_toList.mp hb]
    rfl
  · intro h
    obtain ⟨b, hb, rfl⟩ := Option.map_eq_some_iff.mp h
    exact ⟨(cid, b), BTreeMap.mem_toList.mpr hb, rfl⟩

/-- The label of a community is that of the first of its nodes in the order of rank: what
collecting and sorting its members would give. -/
theorem communityLabels_rule (state : GraphState) (cid : ℕ) :
    (new state).communityLabels[cid]?
      = ((Rank.sortBy (labelRank state) (placed state cid)).head?).map Node.label := by
  have hlabels : (new state).communityLabels[cid]?
      = (if state.partition.nodeCommunity.isEmpty then (∅ : BTreeMap ℕ String)
        else BTreeMap.insertAll ∅ ((state.graph.nodes.foldl (keepBest state) ∅).toList.map
          fun best => (best.1, best.2.2)))[cid]? := rfl
  rw [hlabels]
  by_cases hempty : state.partition.nodeCommunity.isEmpty
  · have hplaced : placed state cid = [] := by
      refine List.filter_eq_nil_iff.mpr fun n _ => ?_
      rw [Std.ExtTreeMap.isEmpty_iff.mp hempty]
      simp
    rw [if_pos hempty, hplaced]
    rfl
  · rw [if_neg hempty, get_relabelled, get_foldl_keepBest, Std.ExtTreeMap.getElem?_empty,
      Rank.foldl_keepLeast]
    have hsort := Rank.sortBy_map (f := standing)
      (fun n : Node => (labelDegree state n.id, n.label)) (placed state cid)
    rw [Option.toList_none, List.nil_append]
    refine (congrArg (fun l => l.head?.map Prod.snd) hsort).trans ?_
    rw [List.head?_map, Option.map_map]
    rfl

/-! ### The summaries -/

section Order

variable {state' : GraphState} (hnodes : state.graph.nodes.Perm state'.graph.nodes)
  (hedges : state.graph.edges.Perm state'.graph.edges)
  (hpartition : state.partition = state'.partition) (hworkspace : state.workspace = state'.workspace)

end Order

section Rows

variable {topGods : ℕ} {c : CommunitySummary}

end Rows

end GraphView

end Filigrio
