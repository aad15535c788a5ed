import Filigrio.Resolve.Louvain

/-!
# Filigrio.Resolve.Cluster

`cluster_with`: the edges become weights between unordered pairs of nodes, the prior
partition gives the labels to start from, a strategy moves the labels, and the groups of
equal labels are scored and get their community ids.
-/

namespace Filigrio.Cluster

/-- Which Louvain regime to run. -/
inductive ClusterStrategy
  | simple
  | full
  deriving DecidableEq, Repr

/-- How an edge contributes weight to the undirected projection. -/
inductive EdgeWeighting
  | uniform
  | confidence
  deriving DecidableEq, Repr

structure ClusterConfig where
  strategy : ClusterStrategy
  weighting : EdgeWeighting
  resolution : ℚ

/-- The threshold of a strict gain. -/
def EPS : ℚ := 1 / 10 ^ 12

/-- Weight an edge contributes under a given scheme. -/
def edgeWeight : EdgeWeighting → Confidence → ℚ
  | .uniform, _ => 1
  | .confidence, .extracted => 1
  | .confidence, .inferred => 1 / 2
  | .confidence, .ambiguous => 1 / 4

/-! ### The weighted projection -/

section Projection

variable (nodes : List Node)

def index : BTreeMap NodeId (Fin nodes.length) :=
  BTreeMap.insertAll ∅ ((List.finRange nodes.length).map fun i => ((nodes.get i).id, i))

/-- One edge: the pair of its endpoints keeps its strongest weight. Unresolved edges, edges to
other nodes and self-loops are skipped. -/
def addEdge (weighting : EdgeWeighting)
    (pairw : BTreeMap (Fin nodes.length ×ₗ Fin nodes.length) ℚ) (e : Edge) :
    BTreeMap (Fin nodes.length ×ₗ Fin nodes.length) ℚ :=
  match e.target with
  | .symbol _ => pairw
  | .node t =>
      match (index nodes)[e.source]?, (index nodes)[t]? with
      | some u, some v =>
          if u ≠ v then
            let key := toLex (min u v, max u v)
            pairw.insert key (max ((pairw[key]?).getD 0) (edgeWeight weighting e.confidence))
          else pairw
      | _, _ => pairw

/-- Each unordered pair with its weight. -/
def pairWeights (weighting : EdgeWeighting) (edges : List Edge) :
    BTreeMap (Fin nodes.length ×ₗ Fin nodes.length) ℚ :=
  edges.foldl (addEdge nodes weighting) ∅

/-- The adjacency and the degrees of a table of pairs. -/
def graphOf {n : ℕ} (pairw : BTreeMap (Fin n ×ₗ Fin n) ℚ) : Graph n where
  adj := adjOf pairw
  deg u := BTreeMap.sumAt
    (pairw.toList.flatMap fun p => [((ofLex p.1).1, p.2), ((ofLex p.1).2, p.2)]) u

end Projection

/-! ### Labels and groups -/

/-- The initial labels: one for each prior community that is met, and one for each node
without a prior community. -/
def seedLabels : List (Option ℕ) → BTreeMap ℕ ℕ → ℕ → List ℕ
  | [], _, _ => []
  | some cid :: rest, priorLabel, nextLabel =>
      match priorLabel[cid]? with
      | some l => l :: seedLabels rest priorLabel nextLabel
      | none => nextLabel :: seedLabels rest (priorLabel.insert cid nextLabel) (nextLabel + 1)
  | none :: rest, priorLabel, nextLabel =>
      nextLabel :: seedLabels rest priorLabel (nextLabel + 1)

def seedLabel (nodes : List Node) (prior : Partition) (i : Fin nodes.length) : ℕ :=
  (seedLabels ((List.finRange nodes.length).map (priorOf nodes.get prior)) ∅ 0).getD i 0

section Groups

variable {n : ℕ}

/-- The first member of a group (`g[0]`); groups are not empty. -/
def leader (g : List (Fin n)) : ℕ := g.head?.elim 0 Fin.val

/-- Node indices by label, each group in index order, the groups ordered by first member. -/
def groupsOf (label : Fin n → ℕ) : List (List (Fin n)) :=
  let byLabel := BTreeMap.pushAll ∅ ((List.finRange n).map fun i => (label i, i))
  (byLabel.values.map (List.insertionSort (· ≤ ·))).insertionSort
    fun g h => leader g ≤ leader h

/-! ### Cohesion -/

/-- The group of each node (`vec![0; n]`, written group by group). -/
def groupOf (groups : List (List (Fin n))) (i : Fin n) : ℕ :=
  ((BTreeMap.insertAll ∅ ((List.finRange groups.length).flatMap fun g =>
    (members groups g).map fun i => (i, g.val)))[i]?).getD 0

/-- The weight inside each group. -/
def internalOf (pairw : BTreeMap (Fin n ×ₗ Fin n) ℚ) (groups : List (List (Fin n))) (g : ℕ) : ℚ :=
  BTreeMap.sumAt (pairw.toList.flatMap fun p =>
    let gu := groupOf groups (ofLex p.1).1
    let gv := groupOf groups (ofLex p.1).2
    if gu = gv then [(gu, p.2)] else []) g

/-- The weight between each group and the others. -/
def boundaryOf (pairw : BTreeMap (Fin n ×ₗ Fin n) ℚ) (groups : List (List (Fin n))) (g : ℕ) : ℚ :=
  BTreeMap.sumAt (pairw.toList.flatMap fun p =>
    let gu := groupOf groups (ofLex p.1).1
    let gv := groupOf groups (ofLex p.1).2
    if gu = gv then [] else [(gu, p.2), (gv, p.2)]) g

/-- Cohesion per group, as permille. The score is not negative, so that rounding a half up is
rounding it away from zero. -/
def cohesionPermille (pairw : BTreeMap (Fin n ×ₗ Fin n) ℚ) (groups : List (List (Fin n)))
    (g : Fin groups.length) : ℕ :=
  let total := internalOf pairw groups g + boundaryOf pairw groups g
  let coh := if total ≤ 0 then 1 else internalOf pairw groups g / total
  (max 0 (min 1000 (round (coh * 1000)))).toNat

end Groups

/-! ### The clusterer -/

/-- The labels the strategy settles on. -/
def optimize {n : ℕ} (cfg : ClusterConfig) (g : Graph n) (seed : Fin n → ℕ) :
    Except Error (Fin n → ℕ) :=
  let twoM := ∑ i, g.deg i
  if 0 < twoM then
    match cfg.strategy with
    | .simple => localMove g twoM cfg.resolution EPS seed
    | .full => louvainFull g twoM cfg.resolution EPS seed
  else .ok seed

/-- Score the groups of equal labels and give them their ids. -/
def finish (nodes : List Node) (pairw : BTreeMap (Fin nodes.length ×ₗ Fin nodes.length) ℚ)
    (prior : Partition) (label : Fin nodes.length → ℕ) : Except Error Partition :=
  let groups := groupsOf label
  stabilize nodes.get groups prior (cohesionPermille pairw groups)

/-- Cluster `nodes` over the resolved `edges`, warm-started from `prior`, under `cfg`. -/
def clusterWith (nodes : List Node) (edges : List Edge) (prior : Partition)
    (cfg : ClusterConfig) : Except Error Partition :=
  if nodes.length = 0 then .ok { nodeCommunity := ∅, communities := ∅ }
  else do
    let pairw := pairWeights nodes cfg.weighting edges
    let label ← optimize cfg (graphOf pairw) (seedLabel nodes prior)
    finish nodes pairw prior label

end Filigrio.Cluster
