import Filigrio.Query.View

/-!
# Filigrio.Query.Neighbors

`get_neighbors`: the resolved neighbors of a node, from the index, and its unresolved edges,
from the edge list: those out of it by its id, those into it by its label.

Each of the two directions lists its edges once. In both directions together an edge that
satisfies both, a self-call or an unresolved reference of a node to its own name, is listed
twice; and an unresolved edge whose source is no node is not listed (`accounts_iff`).
-/

namespace Filigrio

/-- Which edges of a node are asked for. -/
inductive Direction
  | out
  | «in»
  | both
  deriving DecidableEq, Repr

namespace Direction

/-- `Direction::Out | Direction::Both`. -/
def wantOut (direction : Direction) : Bool := direction = out || direction = both

/-- `Direction::In | Direction::Both`. -/
def wantIn (direction : Direction) : Bool := direction = «in» || direction = both

end Direction

namespace Relation

/-- An absent filter means the semantic relations. -/
def normalize (entries : List String) : List String :=
  if entries.isEmpty then ["semantic"] else entries

/-- Whether one of the entries selects the relation. -/
def keeps (entries : List String) (relation : String) : Bool :=
  entries.any fun entry => relationMatchesFilter entry relation

end Relation

namespace GraphView

variable (view : GraphView)

/-- The edges into a node, the latest added first. -/
def incoming (ix : view.NodeIndex) : List (Arc view.state.graph.nodes.length) :=
  (view.arcs.filter fun a => a.target = ix).reverse

/-- Callees for `Out`, callers for `In`, in both directions both; no entries, no filter. -/
def neighborsAt (ix : view.NodeIndex) (relations : List String) (direction : Direction) :
    List (Edge × Node) :=
  let keep := fun a : Arc view.state.graph.nodes.length =>
    relations.isEmpty || Relation.keeps relations a.edge.relation
  (if direction.wantOut then
    ((view.outgoing ix).filter keep).map fun a => (a.edge, view.nodeWithCommunity a.target)
  else [])
  ++ if direction.wantIn then
    ((view.incoming ix).filter keep).map fun a => (a.edge, view.nodeWithCommunity a.source)
  else []

def neighborsById (id : NodeId) (relations : List String) (direction : Direction) :
    List (Edge × Node) :=
  match view.idxOf[id]? with
  | none => []
  | some ix => view.neighborsAt ix relations direction

/-- The edges of a node that did not bind. -/
def unresolvedOutById (id : NodeId) : List Edge :=
  view.state.graph.edges.filter fun e => decide (e.source = id) && !e.target.isNode

/-- The unresolved edges that name a label, with their callers. -/
def unresolvedInByLabel (label : String) : List (Edge × Node) :=
  view.state.graph.edges.filterMap fun e =>
    match e.target with
    | .symbol r =>
        if r.name = label then
          (view.idxOf[e.source]?).map fun ix => (e, view.state.graph.nodes.get ix)
        else none
    | .node _ => none

/-- A placeholder for the node that an unresolved edge does not have. -/
def createStubNodeForUnresolved (edge : Edge) : Node :=
  let name := match edge.target with
    | .symbol r => r.name
    | .node id => id.val
  { id := ⟨"unresolved-" ++ name⟩
    label := "unresolved: " ++ name
    kind := "unresolved"
    sourceFile := none
    sourceSpan := none
    attrs := ∅ }

/-- The answer to `get_neighbors`. -/
structure Neighbors where
  nodeId : NodeId
  direction : Direction
  resolved : List (Edge × Node)
  /-- The unresolved edges, where these were asked for. -/
  unresolved : List (Edge × Node)
  unresolvedCount : ℕ

/-- The unresolved edges of a node. -/
def unresolvedEdges (queryNode : Node) (direction : Direction) (relations : List String) :
    List (Edge × Node) :=
  (if direction.wantOut then
    ((view.unresolvedOutById queryNode.id).filter
      fun e => Relation.keeps relations e.relation).map
        fun e => (e, createStubNodeForUnresolved e)
  else [])
  ++ if direction.wantIn then
    (view.unresolvedInByLabel queryNode.label).filter
      fun p => Relation.keeps relations p.1.relation
  else []

/-- `handle_get_neighbors` on the node that the address resolved to. -/
def getNeighbors (queryNode : Node) (direction : Direction) (relations : List String)
    (includeUnresolved : Bool) : Neighbors :=
  let relationFilter := Relation.normalize relations
  let unresolved := view.unresolvedEdges queryNode direction relationFilter
  { nodeId := queryNode.id
    direction
    resolved := view.neighborsById queryNode.id relationFilter direction
    unresolved := if includeUnresolved then unresolved else []
    unresolvedCount := unresolved.length }

end GraphView

/-! ### The edges to account for -/

/-- Both ends of the bound edges are nodes. -/
def NoDangling (state : GraphState) : Prop :=
  ∀ e ∈ state.graph.edges, ∀ t, e.target = .node t →
    (∃ m ∈ state.graph.nodes, m.id = e.source) ∧ ∃ m ∈ state.graph.nodes, m.id = t

namespace Edge

/-- The edge is bound to the node, or names its label. -/
def names (e : Edge) (n : Node) : Bool :=
  match e.target with
  | .node id => id = n.id
  | .symbol r => r.name = n.label

/-- The edge is out of the node, or into it, as the direction asks. -/
def incident (e : Edge) (n : Node) (direction : Direction) : Bool :=
  (direction.wantOut && decide (e.source = n.id)) || (direction.wantIn && e.names n)

end Edge

/-- The edges of a state, bound or not, that a listing has to show. -/
def edgesToShow (state : GraphState) (n : Node) (relations : List String) (direction : Direction)
    (bound : Bool) : List Edge :=
  state.graph.edges.filter fun e =>
    Relation.keeps (Relation.normalize relations) e.relation && decide (e.target.isNode = bound)
      && e.incident n direction

/-- What `get_neighbors` answers about a node of a state, the unresolved edges included. -/
abbrev neighborsIn (state : GraphState) (n : Node) (relations : List String)
    (direction : Direction) : GraphView.Neighbors :=
  (GraphView.new state).getNeighbors n direction relations true

/-- **The law of neighbor listings**: every edge to show is listed exactly once, and counted,
and a node is listed for another one out of it exactly when that one is listed for it into
it, bound edges by their ends and the others by name. -/
structure Accounts (state : GraphState) (n : Node) (relations : List String)
    (direction : Direction) : Prop where
  resolved : ((neighborsIn state n relations direction).resolved.map Prod.fst).Perm
    (edgesToShow state n relations direction true)
  unresolved : ((neighborsIn state n relations direction).unresolved.map Prod.fst).Perm
    (edgesToShow state n relations direction false)
  counted : (neighborsIn state n relations direction).unresolvedCount
    = (edgesToShow state n relations direction false).length
  reciprocal : ∀ m ∈ state.graph.nodes, ∀ e,
    (∃ x, (e, x) ∈ (neighborsIn state n relations .out).resolved ∧ x.id = m.id)
      ↔ ∃ x, (e, x) ∈ (neighborsIn state m relations .in).resolved ∧ x.id = n.id
  reciprocalByName : ∀ m ∈ state.graph.nodes, ∀ e, e.names m →
    ((∃ x, (e, x) ∈ (neighborsIn state n relations .out).unresolved)
      ↔ ∃ x, (e, x) ∈ (neighborsIn state m relations .in).unresolved ∧ x.id = n.id)

/-- No edge to show lacks a caller, and none satisfies both directions. -/
structure ShownOnce (state : GraphState) (n : Node) (relations : List String)
    (direction : Direction) : Prop where
  addressed : direction.wantIn → ∀ e ∈ state.graph.edges,
    Relation.keeps (Relation.normalize relations) e.relation → e.target.isNode = false →
    e.names n → ∃ m ∈ state.graph.nodes, m.id = e.source
  apart : direction = .both → ∀ e ∈ state.graph.edges,
    Relation.keeps (Relation.normalize relations) e.relation → e.source = n.id → ¬ e.names n

/-! ### Listings as parts of the edge list -/

/-- Two parts of a list make up a third one exactly when they cover it without overlap. -/
theorem perm_filter_append_iff {α : Type*} [DecidableEq α] {p q r : α → Bool} {l : List α}
    (hp : ∀ x ∈ l, p x → r x) (hq : ∀ x ∈ l, q x → r x) :
    (l.filter p ++ l.filter q).Perm (l.filter r)
      ↔ (∀ x ∈ l, r x → p x ∨ q x) ∧ ∀ x ∈ l, p x → ¬ q x := by
  constructor
  · intro hperm
    refine ⟨?_, ?_⟩
    · intro x hx hr
      have hmem := hperm.mem_iff.mpr (List.mem_filter.mpr ⟨hx, hr⟩)
      rcases List.mem_append.mp hmem with hmem | hmem
      · exact Or.inl (List.mem_filter.mp hmem).2
      · exact Or.inr (List.mem_filter.mp hmem).2
    · intro x hx hpx hqx
      have hcount := hperm.count_eq x
      have hpos : 0 < l.count x := List.count_pos_iff.mpr hx
      rw [List.count_append, List.count_filter hpx, List.count_filter hqx,
        List.count_filter (hp x hx hpx)] at hcount
      omega
  · intro ⟨hcover, hapart⟩
    induction l with
    | nil => exact .refl _
    | cons x l ih =>
        have ih := ih (fun y hy => hp y (by simp [hy])) (fun y hy => hq y (by simp [hy]))
          (fun y hy => hcover y (by simp [hy])) (fun y hy => hapart y (by simp [hy]))
        cases hpx : p x with
        | true =>
            have hqx : q x = false := by simpa using hapart x (by simp) hpx
            simpa [hpx, hqx, hp x (by simp) hpx] using ih
        | false =>
            cases hqx : q x with
            | true =>
                simp only [List.filter_cons, hpx, hqx, hq x (by simp) hqx, if_true]
                exact List.perm_middle.trans (ih.cons x)
            | false =>
                have hrx : r x = false := by
                  by_contra hr
                  rcases hcover x (by simp) (by simpa using hr) with h | h
                  · simp [hpx] at h
                  · simp [hqx] at h
                simpa [hpx, hqx, hrx] using ih

namespace GraphView

section Listed

variable {state : GraphState}

/-- Without dangling edges the index holds every bound edge. -/
theorem map_edge_buildArcs (hd : NoDangling state) :
    (buildArcs state).map Arc.edge = state.graph.edges.filter fun e => e.target.isNode := by
  rw [buildArcs, List.map_filterMap, ← List.filterMap_eq_filter]
  refine List.filterMap_congr fun e he => ?_
  cases htarget : e.target with
  | symbol r => simp [EdgeTarget.isNode, Option.guard, htarget]
  | node t =>
      obtain ⟨hsource, hbound⟩ := hd e he t htarget
      obtain ⟨i, hi⟩ := exists_index hsource
      obtain ⟨j, hj⟩ := exists_index hbound
      simp [EdgeTarget.isNode, Option.guard, htarget, hi, hj]

/-- A part of the index, as a part of the edge list. -/
theorem map_edge_filter (hd : NoDangling state)
    {p : Arc state.graph.nodes.length → Bool} {q : Edge → Bool}
    (hpq : ∀ a ∈ buildArcs state, p a = q a.edge) :
    ((buildArcs state).filter p).map Arc.edge
      = state.graph.edges.filter fun e => e.target.isNode && q e := by
  have hcongr : (buildArcs state).filter p = (buildArcs state).filter (q ∘ Arc.edge) :=
    List.filter_congr hpq
  rw [hcongr, ← List.filter_map, map_edge_buildArcs hd, List.filter_filter]
  refine List.filter_congr fun e _ => ?_
  rw [Bool.and_comm]

variable {n : Node} {ix : Fin state.graph.nodes.length}

/-- An indexed id stands for one place. -/
theorem index_iff (hix : (buildIdxOf state)[n.id]? = some ix) {id : NodeId}
    {j : Fin state.graph.nodes.length} (hj : (buildIdxOf state)[id]? = some j) :
    j = ix ↔ id = n.id := by
  constructor
  · intro h
    rw [← id_of_buildIdxOf state hj, ← id_of_buildIdxOf state hix, h]
  · intro h
    rw [h, hix] at hj
    exact (Option.some.inj hj).symm

theorem source_iff (hix : (buildIdxOf state)[n.id]? = some ix)
    {a : Arc state.graph.nodes.length} (ha : a ∈ buildArcs state) :
    a.source = ix ↔ a.edge.source = n.id :=
  index_iff hix (ends_of_buildArcs state a ha).1

theorem target_iff (hix : (buildIdxOf state)[n.id]? = some ix)
    {a : Arc state.graph.nodes.length} (ha : a ∈ buildArcs state) :
    a.target = ix ↔ a.edge.target = .node n.id := by
  obtain ⟨-, t, htarget, ht⟩ := ends_of_buildArcs state a ha
  rw [index_iff hix ht, htarget, EdgeTarget.node.injEq]

theorem normalize_isEmpty (relations : List String) :
    (Relation.normalize relations).isEmpty = false := by
  unfold Relation.normalize
  split
  · rfl
  · rename_i h
    exact Bool.not_eq_true _ |>.mp h

theorem resolved_eq (hix : (buildIdxOf state)[n.id]? = some ix) (relations : List String)
    (direction : Direction) : (neighborsIn state n relations direction).resolved
      = (new state).neighborsAt ix (Relation.normalize relations) direction := by
  change (new state).neighborsById n.id (Relation.normalize relations) direction = _
  rw [neighborsById, show (new state).idxOf[n.id]? = some ix from hix]

/-- The resolved list: the bound edges out of the node, then those into it. -/
theorem resolved_perm (hd : NoDangling state) (hix : (buildIdxOf state)[n.id]? = some ix)
    (relations : List String) (direction : Direction) :
    ((neighborsIn state n relations direction).resolved.map Prod.fst).Perm
      ((state.graph.edges.filter fun e =>
          e.target.isNode && (Relation.keeps (Relation.normalize relations) e.relation
            && (direction.wantOut && decide (e.source = n.id))))
        ++ state.graph.edges.filter fun e =>
          e.target.isNode && (Relation.keeps (Relation.normalize relations) e.relation
            && (direction.wantIn && e.names n))) := by
  rw [resolved_eq hix]
  unfold neighborsAt outgoing incoming
  rw [List.map_append, normalize_isEmpty]
  refine List.Perm.append ?_ ?_
  · cases direction.wantOut with
    | false => simp
    | true =>
        rw [if_pos rfl, List.map_map, List.filter_reverse, List.filter_filter]
        refine ((List.reverse_perm _).map _).trans (.of_eq (map_edge_filter hd fun a ha => ?_))
        have hsource : decide (a.source = ix) = decide (a.edge.source = n.id) :=
          decide_eq_decide.mpr (source_iff hix ha)
        simp only [Bool.false_or, Bool.true_and]
        exact congrArg (Relation.keeps _ a.edge.relation && ·) hsource
  · cases direction.wantIn with
    | false => simp
    | true =>
        rw [if_pos rfl, List.map_map, List.filter_reverse, List.filter_filter]
        refine ((List.reverse_perm _).map _).trans (.of_eq (map_edge_filter hd fun a ha => ?_))
        have htarget : decide (a.target = ix) = a.edge.names n := by
          obtain ⟨-, t, ht, -⟩ := ends_of_buildArcs state a ha
          simp [target_iff hix ha, Edge.names, ht]
        simp only [Bool.false_or, Bool.true_and]
        exact congrArg (Relation.keeps _ a.edge.relation && ·) htarget

/-- The edges whose caller is listed for a label. -/
theorem map_unresolvedIn (view : GraphView) (label : String) (keep : Edge → Bool) :
    ((view.unresolvedInByLabel label).filter fun p => keep p.1).map Prod.fst
      = view.state.graph.edges.filter fun e => keep e
          && ((match e.target with
            | .symbol r => decide (r.name = label)
            | .node _ => false) && (view.idxOf[e.source]?).isSome) := by
  rw [unresolvedInByLabel, List.filter_filterMap, List.map_filterMap, ← List.filterMap_eq_filter]
  refine List.filterMap_congr fun e _ => ?_
  cases htarget : e.target with
  | node t => simp [Option.guard, htarget]
  | symbol r =>
      by_cases hname : r.name = label
      · cases hix : view.idxOf[e.source]? with
        | none => simp [Option.guard, htarget, hname, hix]
        | some ix =>
            cases hkeep : keep e <;>
              simp [Option.guard, Option.filter, htarget, hname, hix, hkeep]
      · simp [Option.guard, htarget, hname]

/-- The unresolved list: those out of the node, then those that name it and have a caller. -/
theorem unresolved_eq (n : Node) (relations : List String) (direction : Direction) :
    (neighborsIn state n relations direction).unresolved.map Prod.fst
      = (state.graph.edges.filter fun e =>
          !e.target.isNode && (Relation.keeps (Relation.normalize relations) e.relation
            && (direction.wantOut && decide (e.source = n.id))))
        ++ state.graph.edges.filter fun e =>
          !e.target.isNode && (Relation.keeps (Relation.normalize relations) e.relation
            && (direction.wantIn && (e.names n && ((buildIdxOf state)[e.source]?).isSome))) := by
  change ((new state).unresolvedEdges n direction (Relation.normalize relations)).map Prod.fst = _
  rw [unresolvedEdges, List.map_append]
  congr 1
  · cases direction.wantOut with
    | false => simp
    | true =>
        rw [if_pos rfl, List.map_map, unresolvedOutById, List.filter_filter]
        change ((state.graph.edges.filter _).map id) = _
        rw [List.map_id]
        refine List.filter_congr fun e _ => ?_
        cases e.target.isNode <;> simp [Bool.and_comm]
  · cases direction.wantIn with
    | false => simp
    | true =>
        rw [if_pos rfl]
        refine (map_unresolvedIn (new state) n.label
          fun e => Relation.keeps (Relation.normalize relations) e.relation).trans ?_
        refine List.filter_congr fun e _ => ?_
        change _ = (!e.target.isNode && (_ && (true && (e.names n
          && ((new state).idxOf[e.source]?).isSome))))
        cases htarget : e.target <;> simp [Edge.names, EdgeTarget.isNode, htarget]

end Listed

/-! ### One listing against another -/

section Reciprocal

variable {view : GraphView} {ix jx : view.NodeIndex} {entries : List String} {e : Edge}
  {m : Node}

/-- The node at an end of an indexed edge, by its id. -/
theorem id_iff (hjx : view.idxOf[m.id]? = some jx) {id : NodeId} {k : view.NodeIndex}
    (hk : view.idxOf[id]? = some k) : (view.nodeWithCommunity k).id = m.id ↔ k = jx := by
  rw [id_nodeWithCommunity, view.id_of_idxOf hk]
  constructor
  · intro h
    rw [h, hjx] at hk
    exact (Option.some.inj hk).symm
  · intro h
    rw [← view.id_of_idxOf hk, ← view.id_of_idxOf hjx, h]

/-- Listed out of the node, by the places of the ends. -/
theorem listed_out_iff (hne : entries.isEmpty = false) (hjx : view.idxOf[m.id]? = some jx) :
    (∃ x, (e, x) ∈ view.neighborsAt ix entries .out ∧ x.id = m.id)
      ↔ ∃ a ∈ view.arcs, a.edge = e ∧ Relation.keeps entries e.relation
        ∧ a.source = ix ∧ a.target = jx := by
  constructor
  · intro ⟨x, hx, hid⟩
    obtain ⟨a, ha, heq⟩ : ∃ a, (a ∈ view.outgoing ix ∧ Relation.keeps entries a.edge.relation)
        ∧ (a.edge, view.nodeWithCommunity a.target) = (e, x) := by
      simpa [neighborsAt, Direction.wantOut, Direction.wantIn, hne] using hx
    cases heq
    obtain ⟨harc, hsource⟩ : a ∈ view.arcs ∧ a.source = ix := by
      simpa [outgoing] using ha.1
    obtain ⟨-, t, -, ht⟩ := view.ends_of_mem a harc
    exact ⟨a, harc, rfl, ha.2, hsource, (id_iff hjx ht).mp hid⟩
  · intro ⟨a, ha, he, hkeep, hsource, htarget⟩
    obtain ⟨-, t, -, ht⟩ := view.ends_of_mem a ha
    refine ⟨view.nodeWithCommunity a.target, ?_, (id_iff hjx ht).mpr htarget⟩
    subst he
    simpa [neighborsAt, Direction.wantOut, Direction.wantIn, hne, outgoing]
      using ⟨a, ⟨ha, hkeep, hsource⟩, rfl, rfl⟩

/-- Listed into the node, by the places of the ends. -/
theorem listed_in_iff (hne : entries.isEmpty = false) (hjx : view.idxOf[m.id]? = some jx) :
    (∃ x, (e, x) ∈ view.neighborsAt ix entries .in ∧ x.id = m.id)
      ↔ ∃ a ∈ view.arcs, a.edge = e ∧ Relation.keeps entries e.relation
        ∧ a.target = ix ∧ a.source = jx := by
  constructor
  · intro ⟨x, hx, hid⟩
    obtain ⟨a, ha, heq⟩ : ∃ a, (a ∈ view.incoming ix ∧ Relation.keeps entries a.edge.relation)
        ∧ (a.edge, view.nodeWithCommunity a.source) = (e, x) := by
      simpa [neighborsAt, Direction.wantOut, Direction.wantIn, hne] using hx
    cases heq
    obtain ⟨harc, htarget⟩ : a ∈ view.arcs ∧ a.target = ix := by
      simpa [incoming] using ha.1
    have hs := (view.ends_of_mem a harc).1
    exact ⟨a, harc, rfl, ha.2, htarget, (id_iff hjx hs).mp hid⟩
  · intro ⟨a, ha, he, hkeep, htarget, hsource⟩
    have hs := (view.ends_of_mem a ha).1
    refine ⟨view.nodeWithCommunity a.source, ?_, (id_iff hjx hs).mpr hsource⟩
    subst he
    simpa [neighborsAt, Direction.wantOut, Direction.wantIn, hne, incoming]
      using ⟨a, ⟨ha, hkeep, htarget⟩, rfl, rfl⟩

/-- Listed for a label: an unresolved edge that names it, with its caller. -/
theorem mem_unresolvedIn {label : String} {x : Node} :
    (e, x) ∈ view.unresolvedInByLabel label
      ↔ e ∈ view.state.graph.edges ∧ (∃ r, e.target = .symbol r ∧ r.name = label)
        ∧ ∃ ix, view.idxOf[e.source]? = some ix ∧ view.state.graph.nodes.get ix = x := by
  rw [unresolvedInByLabel, List.mem_filterMap]
  constructor
  · intro h
    obtain ⟨e', he', hsome⟩ := h
    cases htarget : e'.target with
    | node t => simp [htarget] at hsome
    | symbol r =>
        simp only [htarget] at hsome
        split at hsome
        · obtain ⟨ix, hix, heq⟩ := Option.map_eq_some_iff.mp hsome
          cases heq
          exact ⟨he', ⟨r, htarget, ‹_›⟩, ix, hix, rfl⟩
        · cases hsome
  · intro h
    obtain ⟨he, ⟨r, htarget, hname⟩, ix, hix, hx⟩ := h
    refine ⟨e, he, ?_⟩
    simp only [htarget, hname, hix, if_true, Option.map_some, hx]

end Reciprocal

/-- An edge satisfies both directions only when both are asked for. -/
theorem both_iff (direction : Direction) :
    direction.wantOut = true ∧ direction.wantIn = true ↔ direction = .both := by
  cases direction <;> decide

section Counted

variable {state : GraphState} {n : Node} {relations : List String} {direction : Direction}

/-- The bound edges are listed once unless one satisfies both directions. -/
theorem resolved_perm_iff (hd : NoDangling state) (hn : n ∈ state.graph.nodes) :
    ((neighborsIn state n relations direction).resolved.map Prod.fst).Perm
        (edgesToShow state n relations direction true)
      ↔ (direction = .both → ∀ e ∈ state.graph.edges,
        Relation.keeps (Relation.normalize relations) e.relation → e.target.isNode = true →
        e.source = n.id → ¬ e.names n) := by
  obtain ⟨ix, hix⟩ := exists_index ⟨n, hn, rfl⟩
  rw [(resolved_perm hd hix relations direction).congr_left, edgesToShow, perm_filter_append_iff,
    ← both_iff]
  · constructor
    · intro ⟨_, hapart⟩ hboth e he hkeep hbound hsource hnames
      exact hapart e he (by simp [hkeep, hbound, hsource, hboth])
        (by simp [hkeep, hbound, hnames, hboth])
    · intro h
      refine ⟨?_, ?_⟩
      · intro e _ he
        simp only [Edge.incident, Bool.and_eq_true, Bool.or_eq_true, decide_eq_true_eq] at he
        simpa [he.1] using he.2
      · intro e he hout hin
        simp only [Bool.and_eq_true, decide_eq_true_eq] at hout hin
        exact h ⟨hout.2.2.1, hin.2.2.1⟩ e he hout.2.1 hout.1 hout.2.2.2 hin.2.2.2
  · intro e _ he
    simp only [Bool.and_eq_true] at he
    simp [Edge.incident, he]
  · intro e _ he
    simp only [Bool.and_eq_true] at he
    simp [Edge.incident, he]

/-- The other edges are listed once unless one has no caller, or satisfies both directions. -/
theorem unresolved_perm_iff (hn : n ∈ state.graph.nodes) :
    ((neighborsIn state n relations direction).unresolved.map Prod.fst).Perm
        (edgesToShow state n relations direction false)
      ↔ (direction.wantIn → ∀ e ∈ state.graph.edges,
          Relation.keeps (Relation.normalize relations) e.relation → e.target.isNode = false →
          e.names n → ∃ m ∈ state.graph.nodes, m.id = e.source)
        ∧ (direction = .both → ∀ e ∈ state.graph.edges,
          Relation.keeps (Relation.normalize relations) e.relation → e.target.isNode = false →
          e.source = n.id → ¬ e.names n) := by
  have hindexed : ∀ e : Edge, ((buildIdxOf state)[e.source]?).isSome
      ↔ ∃ m ∈ state.graph.nodes, m.id = e.source := by
    intro e
    rw [← mem_buildIdxOf, Std.ExtTreeMap.mem_iff_isSome_getElem?]
  rw [unresolved_eq, edgesToShow, perm_filter_append_iff, ← both_iff]
  · constructor
    · intro ⟨hcover, hapart⟩
      have haddressed : ∀ e ∈ state.graph.edges, direction.wantIn →
          Relation.keeps (Relation.normalize relations) e.relation → e.target.isNode = false →
          e.names n → ∃ m ∈ state.graph.nodes, m.id = e.source := by
        intro e he hin hkeep hbound hnames
        rcases hcover e he (by simp [hkeep, hbound, Edge.incident, hnames, hin]) with h | h
        · simp only [Bool.and_eq_true, decide_eq_true_eq] at h
          exact ⟨n, hn, h.2.2.2.symm⟩
        · simp only [Bool.and_eq_true] at h
          exact (hindexed e).mp h.2.2.2.2
      refine ⟨fun hin e he => haddressed e he hin, ?_⟩
      intro hboth e he hkeep hbound hsource hnames
      have hcaller := (hindexed e).mpr (haddressed e he hboth.2 hkeep hbound hnames)
      exact hapart e he (by simp [hkeep, hbound, hsource, hboth])
        (by simp [hkeep, hbound, hnames, hboth, hcaller])
    · intro ⟨haddressed, hapart⟩
      refine ⟨?_, ?_⟩
      · intro e he hshow
        simp only [Edge.incident, Bool.and_eq_true, Bool.or_eq_true, decide_eq_true_eq] at hshow
        obtain ⟨⟨hkeep, hbound⟩, hout | hin⟩ := hshow
        · exact Or.inl (by simp [hkeep, hbound, hout])
        · have hcaller := (hindexed e).mpr (haddressed hin.1 e he hkeep hbound hin.2)
          exact Or.inr (by simp [hkeep, hbound, hin, hcaller])
      · intro e he hout hin
        simp only [Bool.and_eq_true, Bool.not_eq_true', decide_eq_true_eq] at hout hin
        exact hapart ⟨hout.2.2.1, hin.2.2.1⟩ e he hout.2.1 hout.1 hout.2.2.2 hin.2.2.2.1
  · intro e _ he
    simp only [Bool.and_eq_true, Bool.not_eq_true'] at he
    simp [Edge.incident, he]
  · intro e _ he
    simp only [Bool.and_eq_true, Bool.not_eq_true'] at he
    simp [Edge.incident, he]

/-- A node is listed for another one exactly when that one is listed for it. -/
theorem listed_reciprocal (hn : n ∈ state.graph.nodes) {m : Node} (hm : m ∈ state.graph.nodes)
    (e : Edge) :
    (∃ x, (e, x) ∈ (neighborsIn state n relations .out).resolved ∧ x.id = m.id)
      ↔ ∃ x, (e, x) ∈ (neighborsIn state m relations .in).resolved ∧ x.id = n.id := by
  obtain ⟨ix, hix⟩ := exists_index ⟨n, hn, rfl⟩
  obtain ⟨jx, hjx⟩ := exists_index ⟨m, hm, rfl⟩
  have hout := @listed_out_iff (new state) ix jx _ e m (normalize_isEmpty relations) hjx
  have hin := @listed_in_iff (new state) jx ix _ e n (normalize_isEmpty relations) hix
  rw [resolved_eq hix, resolved_eq hjx]
  refine hout.trans (Iff.trans ?_ hin.symm)
  constructor
  · intro ⟨a, ha, he, hkeep, hsource, htarget⟩
    exact ⟨a, ha, he, hkeep, htarget, hsource⟩
  · intro ⟨a, ha, he, hkeep, htarget, hsource⟩
    exact ⟨a, ha, he, hkeep, hsource, htarget⟩

/-- An unresolved edge is listed out of its source exactly when it is listed into the nodes
it names. -/
theorem listed_reciprocal_by_name (hn : n ∈ state.graph.nodes) {m : Node} {e : Edge}
    (hnames : e.names m) :
    (∃ x, (e, x) ∈ (neighborsIn state n relations .out).unresolved)
      ↔ ∃ x, (e, x) ∈ (neighborsIn state m relations .in).unresolved ∧ x.id = n.id := by
  have hout : (∃ x, (e, x) ∈ (neighborsIn state n relations .out).unresolved)
      ↔ e ∈ (neighborsIn state n relations .out).unresolved.map Prod.fst := by
    simp
  have hin : ∀ x, (e, x) ∈ (neighborsIn state m relations .in).unresolved
      ↔ (e, x) ∈ (new state).unresolvedInByLabel m.label
        ∧ Relation.keeps (Relation.normalize relations) e.relation := by
    intro x
    change (e, x) ∈ [] ++ ((new state).unresolvedInByLabel m.label).filter _ ↔ _
    rw [List.nil_append, List.mem_filter]
  rw [hout, unresolved_eq]
  simp only [Direction.wantOut, Direction.wantIn, hin, mem_unresolvedIn, List.mem_append,
    List.mem_filter]
  constructor
  · intro h
    obtain ⟨he, hbound, hkeep, hsource⟩ : e ∈ state.graph.edges ∧ e.target.isNode = false
        ∧ Relation.keeps (Relation.normalize relations) e.relation ∧ e.source = n.id := by
      simpa using h
    obtain ⟨ix, hix⟩ := exists_index ⟨n, hn, hsource.symm⟩
    refine ⟨_, ⟨⟨he, ?_, ix, hix, rfl⟩, hkeep⟩, ?_⟩
    · cases htarget : e.target with
      | node t => simp [htarget, EdgeTarget.isNode] at hbound
      | symbol r => exact ⟨r, rfl, by simpa [Edge.names, htarget] using hnames⟩
    · rw [← hsource]
      exact id_of_buildIdxOf state hix
  · intro ⟨x, ⟨⟨he, ⟨r, htarget, _⟩, ix, hix, hx⟩, hkeep⟩, hid⟩
    have hsource : e.source = n.id := by
      rw [← hid, ← hx]
      exact (id_of_buildIdxOf state hix).symm
    exact Or.inl ⟨he, by simp [htarget, EdgeTarget.isNode, hkeep, hsource]⟩

end Counted

/-- **Neighbor listings account for every edge exactly once** unless an unresolved edge into
the node has no caller, or both directions are asked for and an edge satisfies both. -/
theorem accounts_iff (state : GraphState) (hd : NoDangling state) {n : Node}
    (hn : n ∈ state.graph.nodes) (relations : List String) (direction : Direction) :
    Accounts state n relations direction ↔ ShownOnce state n relations direction := by
  constructor
  · intro h
    obtain ⟨haddressed, hapart⟩ := (unresolved_perm_iff hn).mp h.unresolved
    refine ⟨haddressed, ?_⟩
    intro hboth e he hkeep
    cases hbound : e.target.isNode with
    | true => exact (resolved_perm_iff hd hn).mp h.resolved hboth e he hkeep hbound
    | false => exact hapart hboth e he hkeep hbound
  · intro h
    have hunresolved := (unresolved_perm_iff hn).mpr
      ⟨h.addressed, fun hboth e he hkeep _ => h.apart hboth e he hkeep⟩
    refine ⟨?_, hunresolved, ?_, ?_, ?_⟩
    · exact (resolved_perm_iff hd hn).mpr fun hboth e he hkeep _ => h.apart hboth e he hkeep
    · have hlen := hunresolved.length_eq
      rwa [List.length_map] at hlen
    · intro m hm e
      exact listed_reciprocal hn hm e
    · intro m _ e hnames
      exact listed_reciprocal_by_name hn hnames

/-! ### A recursive function -/

def defOf (name : String) : Node where
  id := ⟨"fn:a.rs:" ++ name⟩
  label := name
  kind := "function"
  sourceFile := some "a.rs"
  sourceSpan := none
  attrs := ∅

def callFrom (caller : String) (target : EdgeTarget) : Edge where
  source := ⟨"fn:a.rs:" ++ caller⟩
  relation := "calls"
  confidence := .extracted
  target := target

/-- `walk` calls itself and `leaf`, and names `walk` once more without binding it. -/
def recursiveState : GraphState :=
  { GraphState.empty with
    graph := ⟨[defOf "walk", defOf "leaf"],
      [callFrom "walk" (.node ⟨"fn:a.rs:walk"⟩), callFrom "walk" (.node ⟨"fn:a.rs:leaf"⟩),
        callFrom "walk" (.symbol ⟨"walk", ∅⟩)]⟩ }

theorem noDangling_recursiveState : NoDangling recursiveState := by
  intro e he t ht
  simp only [recursiveState, List.mem_cons, List.not_mem_nil, or_false] at he
  rcases he with rfl | rfl | rfl
  · cases ht
    exact ⟨⟨defOf "walk", by simp [recursiveState], rfl⟩,
      defOf "walk", by simp [recursiveState], rfl⟩
  · cases ht
    exact ⟨⟨defOf "walk", by simp [recursiveState], rfl⟩,
      defOf "leaf", by simp [recursiveState], rfl⟩
  · cases ht

/-- What `walk` calls is accounted for, and so is `leaf`; both directions of `walk` are not. -/
theorem accounts_iff_recursive :
    Accounts recursiveState (defOf "walk") [] .out
      ∧ Accounts recursiveState (defOf "leaf") [] .both
      ∧ ¬ Accounts recursiveState (defOf "walk") [] .both := by
  refine ⟨?_, ?_, ?_⟩
  · refine (accounts_iff recursiveState noDangling_recursiveState
      (by simp [recursiveState]) [] .out).mpr ⟨?_, nofun⟩
    intro h
    cases h
  · refine (accounts_iff recursiveState noDangling_recursiveState
      (by simp [recursiveState]) [] .both).mpr ⟨?_, ?_⟩
    · intro _ e he _ hbound hnames
      have hno : ∀ e ∈ recursiveState.graph.edges,
          ¬ (e.target.isNode = false ∧ e.names (defOf "leaf")) := by
        decide +kernel
      exact absurd ⟨hbound, hnames⟩ (hno e he)
    · intro _ e he _ hsource _
      have hno : ∀ e ∈ recursiveState.graph.edges, e.source ≠ (defOf "leaf").id := by
        decide +kernel
      exact hno e he hsource
  · intro h
    have honce := (accounts_iff recursiveState noDangling_recursiveState
      (by simp [recursiveState]) [] .both).mp h
    exact absurd (by decide +kernel) (honce.apart rfl (callFrom "walk" (.node ⟨"fn:a.rs:walk"⟩))
      (by simp [recursiveState]) (by decide +kernel) rfl)

/-- The unresolved reference of `walk` to its own name is counted twice, and the self-call is
listed twice. -/
theorem not_accounts : (recursiveState.graph.nodes.map Node.id).Nodup ∧ NoDangling recursiveState
    ∧ defOf "walk" ∈ recursiveState.graph.nodes
    ∧ ¬ Accounts recursiveState (defOf "walk") [] .both := by
  refine ⟨by decide +kernel, noDangling_recursiveState, by simp [recursiveState], ?_⟩
  intro h
  exact absurd h.counted (by decide +kernel)

end GraphView

end Filigrio
