import Filigrio.Lib.Tally
import Filigrio.Resolve.Stabilize

/-!
# Filigrio.Resolve.Louvain

The modularity optimisation of the clusterer: `localMove` moves single nodes to the
neighbouring community with the largest gain until a sweep moves none; `louvainFull` merges
the communities it found and goes on over the merged graph. Weights and degrees are exact
rationals where the code has floating-point numbers; a threshold `eps` stands for `EPS`.
-/

namespace Filigrio.Cluster

/-- A graph as the clusterer holds it: for every node its neighbours with the weights, and
its degree. -/
structure Graph (n : ℕ) where
  adj : Fin n → List (Fin n × ℚ)
  deg : Fin n → ℚ

/-- Pairs of nodes as keys. -/
instance transCmpPair {n : ℕ} : Std.TransCmp (@compare (Fin n ×ₗ Fin n) LinearOrder.toOrd) :=
  inferInstance

/-- The weighted adjacency of a table of unordered pairs. -/
def adjOf {n : ℕ} (pairs : BTreeMap (Fin n ×ₗ Fin n) ℚ) (u : Fin n) : List (Fin n × ℚ) :=
  pairs.toList.flatMap fun p =>
    (if (ofLex p.1).1 = u then [((ofLex p.1).2, p.2)] else [])
      ++ (if (ofLex p.1).2 = u then [((ofLex p.1).1, p.2)] else [])

/-- The state of a local-moving pass: the labels, and `sum_tot`, the total degree of the
nodes in each community. -/
structure Moves (n : ℕ) where
  label : Fin n → ℕ
  sumTot : ℕ → Option ℚ

section LocalMove

variable {n : ℕ} (g : Graph n) (twoM resolution eps : ℚ)

/-- The pass starts with the degrees added up under the labels. -/
def startMoves (label : Fin n → ℕ) : Moves n where
  label := label
  sumTot c := (BTreeMap.addAll ∅ ((List.finRange n).map fun i => (label i, g.deg i)))[c]?

/-- Weight from `i` into each neighbouring community, its own included. -/
def weightsInto (label : Fin n → ℕ) (i : Fin n) : BTreeMap ℕ ℚ :=
  (BTreeMap.addAll ∅ ((g.adj i).map fun jw => (label jw.1, jw.2))).addAt (label i) 0

/-- The gain of community `c` for a node that is in none. -/
def gainOf (wt : BTreeMap ℕ ℚ) (sumTot : ℕ → Option ℚ) (i : Fin n) (c : ℕ) : ℚ :=
  (wt[c]?).getD 0 - resolution * (sumTot c).getD 0 * g.deg i / twoM

/-- The candidate with the largest gain, a later one only on a strict gain. -/
def bestOf (gain : ℕ → ℚ) (candidates : List ℕ) (own : ℕ) : ℕ × ℚ :=
  candidates.foldl (fun best c => if best.2 + eps < gain c then (c, gain c) else best)
    (own, gain own)

/-- Visit one node: take it out of its community, and put it into the best one. Answers
whether it moved. -/
def visit (st : Moves n) (i : Fin n) : Except Error (Moves n × Bool) :=
  let ci := st.label i
  match st.sumTot ci with
  | none => .error (poisonedBookkeeping "sum_tot" ci)
  | some tot =>
      let sumTot := Function.update st.sumTot ci (some (tot - g.deg i))
      let wt := weightsInto g st.label i
      let best := (bestOf eps (gainOf g twoM resolution wt sumTot i) wt.keys ci).1
      .ok ({ label := Function.update st.label i best
             sumTot := Function.update sumTot best (some ((sumTot best).getD 0 + g.deg i)) },
        decide (best ≠ ci))

/-- One pass over the nodes; answers whether any moved. -/
def sweep (st : Moves n) : Except Error (Moves n × Bool) :=
  (List.finRange n).foldlM (fun acc i => do
    let r ← visit g twoM resolution eps acc.1 i
    pure (r.1, acc.2 || r.2)) (st, false)

/-- `while improved`, for at most `fuel` sweeps; answers whether it would go on. -/
def moveLoop : ℕ → Moves n → Except Error (Moves n × Bool)
  | 0, st => .ok (st, true)
  | fuel + 1, st => do
      let r ← sweep g twoM resolution eps st
      if r.2 then moveLoop fuel r.1 else pure (r.1, false)

/-- One Louvain local-moving pass to modularity convergence. `n ^ n` sweeps are enough
(`moveLoop_stops`). -/
def localMove (label : Fin n → ℕ) : Except Error (Fin n → ℕ) := do
  let r ← moveLoop g twoM resolution eps (n ^ n) (startMoves g label)
  pure r.1.label

end LocalMove

/-! ### Merging communities -/

/-- The keys of `densify`'s renumbering, in the order in which they are first met. -/
def firstLabels (labels : List ℕ) : List ℕ :=
  labels.foldl (fun seen l => if l ∈ seen then seen else seen ++ [l]) []

theorem mem_firstLabels_aux (labels seen : List ℕ) (l : ℕ) :
    l ∈ labels.foldl (fun seen l => if l ∈ seen then seen else seen ++ [l]) seen
      ↔ l ∈ seen ∨ l ∈ labels := by
  induction labels generalizing seen with
  | nil => simp
  | cons a labels ih =>
      rw [List.foldl_cons, ih]
      split
      · rename_i ha
        constructor
        · rintro (h | h)
          · exact Or.inl h
          · exact Or.inr (List.mem_cons_of_mem a h)
        · rintro (h | h)
          · exact Or.inl h
          · rcases List.mem_cons.mp h with rfl | h
            · exact Or.inl ha
            · exact Or.inr h
      · simp [or_assoc]

theorem mem_firstLabels {labels : List ℕ} {l : ℕ} : l ∈ firstLabels labels ↔ l ∈ labels := by
  rw [firstLabels, mem_firstLabels_aux]
  simp

/-- A labelling of `n` nodes by `k` dense labels. -/
structure Dense (n : ℕ) where
  k : ℕ
  comm : Fin n → Fin k

/-- Renumber arbitrary labels to a dense `0..k`, by first occurrence. -/
def densify {n : ℕ} (label : Fin n → ℕ) : Dense n where
  k := (firstLabels (List.ofFn label)).length
  comm i := ⟨(firstLabels (List.ofFn label)).idxOf (label i), List.idxOf_lt_length_of_mem
    (mem_firstLabels.mpr (List.mem_ofFn.mpr ⟨i, rfl⟩))⟩

/-- The weights between different communities, each edge counted from its smaller end. -/
def interPairs {n k : ℕ} (g : Graph n) (comm : Fin n → Fin k) : BTreeMap (Fin k ×ₗ Fin k) ℚ :=
  BTreeMap.addAll ∅ ((List.finRange n).flatMap fun u => (g.adj u).filterMap fun vw =>
    if u < vw.1 ∧ comm u ≠ comm vw.1 then
      some (toLex (min (comm u) (comm vw.1), max (comm u) (comm vw.1)), vw.2)
    else none)

/-- The merged graph over `k` communities: degrees add up, weights between communities add
up, the weight inside is dropped. -/
def aggregate {n k : ℕ} (g : Graph n) (comm : Fin n → Fin k) : Graph k where
  adj := adjOf (interPairs g comm)
  deg c := BTreeMap.sumAt ((List.finRange n).map fun i => (comm i, g.deg i)) c

section Full

variable {n : ℕ} (g : Graph n) (twoM resolution eps : ℚ)

/-- Higher levels: merge and move until no community moved, for at most `fuel` levels;
answers whether it would go on. -/
def levels : ℕ → Dense n → Except Error (Dense n × Bool)
  | 0, d => .ok (d, true)
  | fuel + 1, d => do
      let slabel ← localMove (aggregate g d.comm) twoM resolution eps fun c => c.val
      let sdense := densify slabel
      -- No super-node moved: a fixed point.
      if sdense.k = d.k then pure (d, false)
      else levels fuel { k := sdense.k, comm := fun i => sdense.comm (d.comm i) }

/-- Multi-level Louvain; `n` levels are enough (`levels_stops`). -/
def louvainFull (seed : Fin n → ℕ) : Except Error (Fin n → ℕ) := do
  let label ← localMove g twoM resolution eps seed
  let r ← levels g twoM resolution eps n (densify label)
  pure fun i => (r.1.comm i).val

end Full

end Filigrio.Cluster
