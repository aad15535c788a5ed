import Filigrio.Query.View

/-!
# Filigrio.Query.Traverse

What `query` returns. Breadth first, the nodes are the first ones of the requested region,
nearest first, and all of it under an ample budget; in both modes nothing outside the region
is returned, and the edges join returned nodes when the budget covers the region. Otherwise
they need not, and depth first neither the best seed nor the whole region is sure to be
returned: `returnsRegion_iff` says when all of that holds.
-/

namespace Filigrio

namespace GraphView

variable {view : GraphView} {ranked : List Node} {filter : Option (List String)} {depth : ℕ}

open Worklist

theorem pops_pop {V : Type*} (mode : TraversalMode) : Pops (V := V) (pop mode) := by
  cases mode with
  | bfs => exact pops_front
  | dfs => exact pops_back

/-- The loop of `query` comes to an end. -/
theorem loop_stops (opts : QueryOpts) :
    (view.loop ranked opts).2 = false ∧ (view.loop ranked opts).1.queue = [] :=
  run_stops (pops_pop opts.mode) (Nat.lt_succ_self _)

theorem sound_loop (opts : QueryOpts) :
    Sound (view.matching opts.contextFilter) Arc.target opts.depth (view.seeds ranked) opts.budget
      (view.loop ranked opts).1 :=
  sound_run (pops_pop opts.mode)

/-! ### The requested region -/

/-- The node is at most `depth` matching edges away from a seed. -/
def Region (view : GraphView) (ranked : List Node) (filter : Option (List String)) (depth : ℕ)
    (ix : view.NodeIndex) : Prop :=
  Near (view.matching filter) Arc.target (view.seeds ranked) depth ix

/-- The least number of matching edges from a seed. -/
noncomputable def distance (view : GraphView) (ranked : List Node)
    (filter : Option (List String)) (ix : view.NodeIndex) : ℕ :=
  dist (view.matching filter) Arc.target (view.seeds ranked) ix

/-- An order of the region by distance. -/
structure NearestFirst (view : GraphView) (ranked : List Node) (filter : Option (List String))
    (depth : ℕ) (all : List view.NodeIndex) : Prop where
  nodup : all.Nodup
  mem : ∀ ix, ix ∈ all ↔ view.Region ranked filter depth ix
  sorted : all.Pairwise fun u v => view.distance ranked filter u ≤ view.distance ranked filter v

/-- Both ends of the edge are among the nodes. -/
def Joined (nodes : List Node) (e : Edge) : Prop :=
  ∃ x ∈ nodes, ∃ y ∈ nodes, e.source = x.id ∧ e.target = .node y.id

/-- **The law of traversal**: an ample budget returns the region in both modes; any budget
bounds the nodes, keeps the best seed, and keeps a first part of the region breadth first;
returned edges join returned nodes. -/
structure ReturnsRegion (view : GraphView) (ranked : List Node) (filter : Option (List String))
    (depth : ℕ) : Prop where
  ample : ∀ mode budget, view.state.graph.nodes.length ≤ budget → ∀ x,
    x ∈ (view.query ranked ⟨depth, budget, mode, filter⟩).nodes
      ↔ ∃ ix, view.Region ranked filter depth ix ∧ view.nodeWithCommunity ix = x
  bounded : ∀ mode budget, 1 ≤ budget →
    (view.query ranked ⟨depth, budget, mode, filter⟩).nodes.length ≤ budget
  top : ∀ mode budget, 1 ≤ budget → ∀ s, (view.seeds ranked).head? = some s →
    view.nodeWithCommunity s ∈ (view.query ranked ⟨depth, budget, mode, filter⟩).nodes
  nearest : ∀ budget, 1 ≤ budget → ∃ all, view.NearestFirst ranked filter depth all
    ∧ (view.query ranked ⟨depth, budget, .bfs, filter⟩).nodes <+: all.map view.nodeWithCommunity
  joined : ∀ mode budget, 1 ≤ budget →
    ∀ e ∈ (view.query ranked ⟨depth, budget, mode, filter⟩).edges,
      Joined (view.query ranked ⟨depth, budget, mode, filter⟩).nodes e

/-- The part of the law that holds of every query. -/
structure ReturnsNearest (view : GraphView) (ranked : List Node) (filter : Option (List String))
    (depth : ℕ) : Prop where
  stops : ∀ mode budget, (view.loop ranked ⟨depth, budget, mode, filter⟩).2 = false
  within : ∀ mode budget, ∀ x ∈ (view.query ranked ⟨depth, budget, mode, filter⟩).nodes,
    ∃ ix, view.Region ranked filter depth ix ∧ view.nodeWithCommunity ix = x
  ample : ∀ budget, view.state.graph.nodes.length ≤ budget → ∀ x,
    x ∈ (view.query ranked ⟨depth, budget, .bfs, filter⟩).nodes
      ↔ ∃ ix, view.Region ranked filter depth ix ∧ view.nodeWithCommunity ix = x
  bounded : ∀ mode budget,
    (view.query ranked ⟨depth, budget, mode, filter⟩).nodes.length ≤ budget
  top : ∀ budget, 1 ≤ budget → ∀ s, (view.seeds ranked).head? = some s →
    view.nodeWithCommunity s ∈ (view.query ranked ⟨depth, budget, .bfs, filter⟩).nodes
  nearest : ∀ budget, ∃ all, view.NearestFirst ranked filter depth all
    ∧ (view.query ranked ⟨depth, budget, .bfs, filter⟩).nodes
      = (all.map view.nodeWithCommunity).take budget
  joined : ∀ mode budget (region : Finset view.NodeIndex),
    (∀ ix, view.Region ranked filter depth ix → ix ∈ region) → region.card ≤ budget →
    ∀ e ∈ (view.query ranked ⟨depth, budget, mode, filter⟩).edges,
      Joined (view.query ranked ⟨depth, budget, mode, filter⟩).nodes e

/-! ### Every query -/

theorem mem_arcs_of_matching {ix : view.NodeIndex} {a : Arc view.state.graph.nodes.length}
    (h : a ∈ view.matching filter ix) : a ∈ view.arcs ∧ a.source = ix := by
  have hmem := List.mem_of_mem_filter h
  rw [outgoing, List.mem_reverse] at hmem
  exact ⟨List.mem_of_mem_filter hmem, of_decide_eq_true (List.mem_filter.mp hmem).2⟩

/-- An edge that was met joins returned nodes when its target was visited. -/
theorem joined_of_mem {opts : QueryOpts} {a : Arc view.state.graph.nodes.length}
    (ha : a ∈ (view.loop ranked opts).1.edges)
    (htarget : a.target ∈ (view.loop ranked opts).1.visited) :
    Joined (view.query ranked opts).nodes a.edge := by
  obtain ⟨⟨ix, hix, hout⟩, -, -⟩ := (sound_loop opts).edges a ha
  obtain ⟨harc, rfl⟩ := mem_arcs_of_matching hout
  obtain ⟨hsource, t, ht, hidx⟩ := view.ends_of_mem a harc
  refine ⟨_, List.mem_map_of_mem hix, _, List.mem_map_of_mem htarget, ?_, ?_⟩
  · rw [id_nodeWithCommunity, view.id_of_idxOf hsource]
  · rw [id_nodeWithCommunity, view.id_of_idxOf hidx, ht]

theorem mem_query {opts : QueryOpts} {x : Node} : x ∈ (view.query ranked opts).nodes
    ↔ ∃ ix ∈ (view.loop ranked opts).1.visited, view.nodeWithCommunity ix = x := List.mem_map

/-- The edges join returned nodes when the budget covers the region. -/
theorem joined_of_covers {mode : TraversalMode} {budget : ℕ} {region : Finset view.NodeIndex}
    (hregion : ∀ ix, view.Region ranked filter depth ix → ix ∈ region)
    (hbudget : region.card ≤ budget) :
    ∀ e ∈ (view.query ranked ⟨depth, budget, mode, filter⟩).edges,
      Joined (view.query ranked ⟨depth, budget, mode, filter⟩).nodes e := by
  intro e he
  obtain ⟨a, ha, rfl⟩ := List.mem_map.mp he
  exact joined_of_mem ha ((sound_loop _).closed (loop_stops _).2 hregion hbudget ha)

/-- The best seed comes first, breadth first. -/
theorem top_bfs {budget : ℕ} (hbudget : 1 ≤ budget) {s : view.NodeIndex}
    (hs : (view.seeds ranked).head? = some s) :
    s ∈ (view.loop ranked ⟨depth, budget, .bfs, filter⟩).1.visited := by
  obtain ⟨rest, hseeds⟩ := List.head?_eq_some_iff.mp hs
  have hpop : popFront (start (E := Arc view.state.graph.nodes.length) (view.seeds ranked)).queue
      = some ((s, 0), rest.map fun s => (s, 0)) := by
    rw [hseeds]
    rfl
  exact (run_first rfl rfl hpop hbudget).1.subset List.mem_cons_self

theorem returnsNearest (view : GraphView) (ranked : List Node) (filter : Option (List String))
    (depth : ℕ) : view.ReturnsNearest ranked filter depth := by
  have hall : ∀ budget, view.state.graph.nodes.length ≤ budget →
      (∀ ix, ix ∈ (view.loop ranked ⟨depth, budget, .bfs, filter⟩).1.visited
        ↔ view.Region ranked filter depth ix)
      ∧ (view.loop ranked ⟨depth, budget, .bfs, filter⟩).1.visited.Pairwise
        fun u v => view.distance ranked filter u ≤ view.distance ranked filter v := by
    intro budget hbudget
    exact breadth_run (by rwa [Fintype.card_fin]) (Nat.lt_succ_self _)
  refine ⟨fun mode budget => (loop_stops _).1, fun mode budget x hx => ?_,
    fun budget hbudget x => ?_, fun mode budget => ?_, fun budget hbudget s hs => ?_,
    fun budget => ?_, fun mode budget region => joined_of_covers⟩
  · obtain ⟨ix, hix, rfl⟩ := mem_query.mp hx
    exact ⟨ix, (sound_loop _).visited ix hix, rfl⟩
  · rw [mem_query]
    simp only [(hall budget hbudget).1]
  · rw [query, List.length_map]
    exact length_visited (Nat.zero_le _)
  · exact mem_query.mpr ⟨s, top_bfs hbudget hs, rfl⟩
  · -- The larger of the budget and the number of nodes leaves nothing out.
    obtain ⟨hmem, hsorted⟩ := hall (max budget view.state.graph.nodes.length) (le_max_right _ _)
    refine ⟨_, ⟨(sound_loop _).nodup, hmem, hsorted⟩, ?_⟩
    rw [query, ← List.map_take]
    exact congrArg _ (visited_take (le_max_left _ _) (Nat.zero_le _))

/-! ### When the law holds -/

/-- At most one seed, and nothing else within the depth. -/
def Alone (view : GraphView) (ranked : List Node) (filter : Option (List String)) (depth : ℕ) :
    Prop :=
  (view.seeds ranked).length ≤ 1
    ∧ (depth = 0 ∨ ∀ s ∈ view.seeds ranked, ∀ a ∈ view.matching filter s, a.target = s)

theorem nodup_seeds (h : (ranked.map Node.id).Nodup) : (view.seeds ranked).Nodup := by
  have hseeds : view.seeds ranked = (ranked.map Node.id).filterMap fun id => view.idxOf[id]? := by
    rw [List.filterMap_map]
    rfl
  rw [hseeds]
  refine h.filterMap fun id id' ix hid hid' => ?_
  rw [← view.id_of_idxOf hid, ← view.id_of_idxOf hid']

/-- A seed stands where its own id is indexed. -/
theorem idxOf_seed {s : view.NodeIndex} (hs : s ∈ view.seeds ranked) :
    view.idxOf[(view.state.graph.nodes.get s).id]? = some s := by
  obtain ⟨x, -, hx⟩ := List.mem_filterMap.mp hs
  rw [view.id_of_idxOf hx, hx]

/-- With a budget of one, the first entry taken is all that is visited. -/
theorem visited_one {mode : TraversalMode} {s : view.NodeIndex}
    {rest : List (view.NodeIndex × ℕ)}
    (hpop : pop mode ((view.seeds ranked).map fun s => (s, 0)) = some ((s, 0), rest)) :
    (view.loop ranked ⟨depth, 1, mode, filter⟩).1.visited = [s] := by
  have hlen : (view.loop ranked ⟨depth, 1, mode, filter⟩).1.visited.length ≤ 1 :=
    length_visited (Nat.zero_le _)
  have hfirst : [s] <+: (view.loop ranked ⟨depth, 1, mode, filter⟩).1.visited :=
    (run_first rfl rfl hpop le_rfl).1
  exact (hfirst.eq_of_length_le (by simpa using hlen)).symm

/-- Depth first, a budget of one keeps the last seed. -/
theorem head_eq_getLast (h : view.ReturnsRegion ranked filter depth) {s t : view.NodeIndex}
    (hs : (view.seeds ranked).head? = some s) (ht : (view.seeds ranked).getLast? = some t) :
    s = t := by
  have hpop : pop .dfs ((view.seeds ranked).map fun s => (s, 0))
      = some ((t, 0), ((view.seeds ranked).map fun s => (s, 0)).dropLast) := by
    simp [pop, popBack, List.getLast?_map, ht]
  obtain ⟨ix, hix, heq⟩ := mem_query.mp (h.top .dfs 1 le_rfl s hs)
  rw [visited_one hpop, List.mem_singleton] at hix
  subst hix
  have hid := congrArg Node.id heq
  rw [id_nodeWithCommunity, id_nodeWithCommunity] at hid
  have hidx := idxOf_seed (List.mem_of_getLast? ht)
  rw [hid, idxOf_seed (List.mem_of_head? hs)] at hidx
  exact Option.some.inj hidx

/-- With a budget of one, the edges of the only node returned lead back to it. -/
theorem target_eq_seed (h : view.ReturnsRegion ranked filter depth) (hdepth : depth ≠ 0)
    {s : view.NodeIndex} (hs : (view.seeds ranked).head? = some s)
    {a : Arc view.state.graph.nodes.length} (ha : a ∈ view.matching filter s) : a.target = s := by
  obtain ⟨rest, hseeds⟩ := List.head?_eq_some_iff.mp hs
  have hpop : pop .bfs ((view.seeds ranked).map fun s => (s, 0))
      = some ((s, 0), rest.map fun s => (s, 0)) := by
    rw [hseeds]
    rfl
  have hvisited := @visited_one view ranked filter depth .bfs s _ hpop
  have hmet : view.matching filter s <+: (view.loop ranked ⟨depth, 1, .bfs, filter⟩).1.edges :=
    (run_first rfl rfl hpop le_rfl).2 (Nat.pos_of_ne_zero hdepth)
  obtain ⟨x, -, y, hy, -, htarget⟩ := h.joined .bfs 1 le_rfl a.edge
    (List.mem_map_of_mem (hmet.subset ha))
  obtain ⟨ix, hix, rfl⟩ := mem_query.mp hy
  rw [hvisited, List.mem_singleton] at hix
  subst hix
  obtain ⟨-, t, ht, hidx⟩ := view.ends_of_mem a (mem_arcs_of_matching ha).1
  rw [ht, id_nodeWithCommunity, EdgeTarget.node.injEq] at htarget
  rw [htarget, idxOf_seed (List.mem_of_head? hs)] at hidx
  exact (Option.some.inj hidx).symm

/-- A seed that is alone is the whole region. -/
theorem Alone.region (h : view.Alone ranked filter depth) {ix : view.NodeIndex}
    (hix : view.Region ranked filter depth ix) : view.seeds ranked = [ix] := by
  obtain ⟨k, hk, hwalk⟩ := hix
  obtain ⟨hlen, hloops⟩ := h
  induction hwalk with
  | seed hs =>
      obtain ⟨rest, hseeds⟩ := List.mem_iff_append.mp hs
      obtain ⟨rest', hseeds⟩ := hseeds
      rw [hseeds, List.length_append, List.length_cons] at hlen
      rw [hseeds, List.length_eq_zero_iff.mp (by omega : rest.length = 0),
        List.length_eq_zero_iff.mp (by omega : rest'.length = 0)]
      rfl
  | @step k u a _ ha ih =>
      have hu := ih (by omega)
      have htarget := (hloops.resolve_left (by omega)) u (by rw [hu]; exact List.mem_cons_self) a ha
      rw [htarget, hu]

/-- The law of a seed that is alone. -/
theorem Alone.returnsRegion (h : view.Alone ranked filter depth) :
    view.ReturnsRegion ranked filter depth := by
  have hnearest := returnsNearest view ranked filter depth
  -- A seed is taken first in either mode, being the only one.
  have htop : ∀ mode budget, 1 ≤ budget → ∀ s, view.seeds ranked = [s] →
      s ∈ (view.loop ranked ⟨depth, budget, mode, filter⟩).1.visited := by
    intro mode budget hbudget s hs
    have hpop : pop mode ((view.seeds ranked).map fun s => (s, 0)) = some ((s, 0), []) := by
      rw [hs]
      cases mode <;> rfl
    exact (run_first rfl rfl hpop hbudget).1.subset List.mem_cons_self
  have hone : ∀ s, (view.seeds ranked).head? = some s → view.seeds ranked = [s] := fun s hs =>
    h.region ⟨0, Nat.zero_le _, .seed (List.mem_of_head? hs)⟩
  refine ⟨fun mode budget hbudget x => ⟨hnearest.within mode budget x, ?_⟩,
    fun mode budget _ => hnearest.bounded mode budget, fun mode budget hbudget s hs => ?_,
    fun budget _ => ?_, fun mode budget hbudget => ?_⟩
  · rintro ⟨ix, hix, rfl⟩
    have hpos : 1 ≤ budget := by
      have hlt := ix.isLt
      omega
    exact mem_query.mpr ⟨ix, htop mode budget hpos ix (h.region hix), rfl⟩
  · exact mem_query.mpr ⟨s, htop mode budget hbudget s (hone s hs), rfl⟩
  · obtain ⟨all, hall, heq⟩ := hnearest.nearest budget
    rw [heq]
    exact ⟨all, hall, List.take_prefix _ _⟩
  · have hregion : ∀ ix, view.Region ranked filter depth ix → ix ∈ (view.seeds ranked).toFinset := by
      intro ix hix
      rw [h.region hix]
      exact List.mem_toFinset.mpr List.mem_cons_self
    refine joined_of_covers hregion ?_
    · exact (List.toFinset_card_le _).trans (h.1.trans hbudget)

/-- **What a query returns.** Breadth first it is the nearest part of the region, with the best
seed; in both modes the edges are joined when the budget covers the region. The whole law
holds just for a seed that is alone. -/
theorem returnsRegion_iff (state : GraphState) (ranked : List Node)
    (hranked : (ranked.map Node.id).Nodup) (filter : Option (List String)) (depth : ℕ) :
    (new state).ReturnsNearest ranked filter depth
    ∧ ((new state).ReturnsRegion ranked filter depth
      ↔ (new state).Alone ranked filter depth) := by
  refine ⟨returnsNearest _ ranked filter depth, fun h => ?_, Alone.returnsRegion⟩
  cases hseeds : (new state).seeds ranked with
  | nil =>
      refine ⟨by simp [hseeds], Or.inr fun s hs => ?_⟩
      rw [hseeds] at hs
      cases hs
  | cons s rest =>
      have hs : ((new state).seeds ranked).head? = some s := by rw [hseeds]; rfl
      have hrest : rest = [] := by
        rcases List.eq_nil_or_concat rest with hnil | ⟨init, t, hrest⟩
        · exact hnil
        · have ht : ((new state).seeds ranked).getLast? = some t := by
            rw [hseeds, hrest, List.concat_eq_append, ← List.cons_append, List.getLast?_concat]
          have hst := head_eq_getLast h hs ht
          have hnodup : ((new state).seeds ranked).Nodup := nodup_seeds hranked
          rw [hseeds, hrest, hst] at hnodup
          simp at hnodup
      refine ⟨by rw [hseeds, hrest]; rfl, ?_⟩
      by_cases hdepth : depth = 0
      · exact Or.inl hdepth
      · refine Or.inr fun s' hs' a ha => ?_
        rw [hseeds, hrest, List.mem_singleton] at hs'
        subst hs'
        exact target_eq_seed h hdepth hs ha

/-! ### A shortcut -/

def sampleNode (id : String) : Node where
  id := ⟨id⟩
  label := id
  kind := "function"
  sourceFile := none
  sourceSpan := none
  attrs := ∅

def sampleCall (source target : String) : Edge where
  source := ⟨source⟩
  relation := "calls"
  confidence := .extracted
  target := .node ⟨target⟩

/-- `s` calls `a` and `t`, `a` calls `t`, `t` calls `u`. -/
def shortcutState : GraphState :=
  { GraphState.empty with
    graph :=
      { nodes := ["s", "a", "t", "u"].map sampleNode
        edges := [sampleCall "s" "a", sampleCall "a" "t", sampleCall "s" "t",
          sampleCall "t" "u"] } }

theorem returnsRegion_iff_shortcut :
    (new shortcutState).ReturnsNearest [sampleNode "s"] none 2
    ∧ ((new shortcutState).ReturnsRegion [sampleNode "s"] none 2
      ↔ (new shortcutState).Alone [sampleNode "s"] none 2) :=
  returnsRegion_iff shortcutState [sampleNode "s"] (by decide) none 2

/-- Depth first, `t` is reached on the long way round, where the depth is used up, and `u`,
two calls away, is missed. -/
theorem not_returnsRegion : ¬ (new shortcutState).ReturnsRegion [sampleNode "s"] none 2 := by
  intro h
  have hbfs : sampleNode "u"
      ∈ ((new shortcutState).query [sampleNode "s"] ⟨2, 4, .bfs, none⟩).nodes := by
    decide +kernel
  have hdfs : sampleNode "u"
      ∉ ((new shortcutState).query [sampleNode "s"] ⟨2, 4, .dfs, none⟩).nodes := by
    decide +kernel
  exact hdfs ((h.ample .dfs 4 le_rfl _).mpr ((h.ample .bfs 4 le_rfl _).mp hbfs))

end GraphView

end Filigrio
