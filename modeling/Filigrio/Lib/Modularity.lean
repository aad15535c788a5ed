import Mathlib

/-!
# Modularity

The modularity of a grouping of the nodes of a weighted network, scaled by a resolution:
how much more weight lies inside the groups than the degrees alone would put there.
Three facts carry the greedy optimisation of it: moving one node to another group changes
it by the difference of two local gains (`modularity_update`); merging nodes that stay
together into one, and dropping the weight inside, changes it by a constant
(`modularity_comp`); and only the grouping matters, not the labels (`modularity_congr`).
-/

namespace Modularity

variable {V C K : Type*} [Fintype V] [Fintype C] [DecidableEq C] [Field K]

/-- A weighted network: symmetric weights without loops, and a degree for every node, which
may count weight that is not in the network. -/
@[ext]
structure Network (V K : Type*) [Zero K] where
  weight : V → V → K
  degree : V → K
  symm : ∀ u v, weight u v = weight v u
  loopless : ∀ v, weight v v = 0

namespace Network

variable (G : Network V K) (γ : K)

/-- The total degree (twice the total weight). -/
def total : K := ∑ v, G.degree v

/-- The weight between two nodes, less what their degrees make expected. -/
def couple (u v : V) : K := G.weight u v - γ * (G.degree u * G.degree v) / G.total

theorem couple_comm (u v : V) : G.couple γ u v = G.couple γ v u := by
  rw [couple, couple, G.symm u v, mul_comm (G.degree u)]

variable {L : Type*} [DecidableEq L]

/-- The couplings inside the groups. -/
def inside (label : V → L) : K := ∑ u, ∑ v, if label u = label v then G.couple γ u v else 0

/-- The modularity of a labelling. -/
def modularity (label : V → L) : K := G.inside γ label / G.total

/-- The coupling of a node with the other nodes of a group. -/
def gain [DecidableEq V] (label : V → L) (i : V) (c : L) : K :=
  ∑ v ∈ Finset.univ.erase i, if label v = c then G.couple γ i v else 0

variable {G γ}

/-- Labels matter up to renaming. -/
theorem modularity_congr {L' : Type*} [DecidableEq L'] {label : V → L} {label' : V → L'}
    (h : ∀ u v, label u = label v ↔ label' u = label' v) :
    G.modularity γ label = G.modularity γ label' := by
  simp only [modularity, inside, h]

/-! ### Moving one node -/

section Move

variable [DecidableEq V]

/-- The couplings that involve `i`, and the others. -/
theorem inside_eq (label : V → L) (i : V) :
    G.inside γ label = G.couple γ i i + 2 * G.gain γ label i (label i)
      + ∑ u ∈ Finset.univ.erase i, ∑ v ∈ Finset.univ.erase i,
          if label u = label v then G.couple γ u v else 0 := by
  have hrow : ∀ u, (∑ v, if label u = label v then G.couple γ u v else 0)
      = (if label u = label i then G.couple γ u i else 0)
        + ∑ v ∈ Finset.univ.erase i, if label u = label v then G.couple γ u v else 0 := fun u =>
    (Finset.add_sum_erase _ _ (Finset.mem_univ i)).symm
  have hcol : (∑ u ∈ Finset.univ.erase i, if label u = label i then G.couple γ u i else 0)
      = G.gain γ label i (label i) := by
    refine Finset.sum_congr rfl fun u _ => ?_
    rw [G.couple_comm]
  have hself : (∑ v ∈ Finset.univ.erase i, if label i = label v then G.couple γ i v else 0)
      = G.gain γ label i (label i) := by
    refine Finset.sum_congr rfl fun v _ => ?_
    simp only [eq_comm]
  rw [inside, ← Finset.add_sum_erase _ _ (Finset.mem_univ i)]
  simp only [hrow, Finset.sum_add_distrib, hcol, hself, if_true]
  ring

theorem gain_update (label : V → L) (i : V) (c c' : L) :
    G.gain γ (Function.update label i c) i c' = G.gain γ label i c' := by
  refine Finset.sum_congr rfl fun v hv => ?_
  rw [Function.update_of_ne (Finset.ne_of_mem_erase hv)]

/-- A move changes the modularity by the difference of the gains. -/
theorem modularity_update (label : V → L) (i : V) (c : L) :
    G.modularity γ (Function.update label i c)
      = G.modularity γ label
        + 2 * (G.gain γ label i c - G.gain γ label i (label i)) / G.total := by
  have hrest : (∑ u ∈ Finset.univ.erase i, ∑ v ∈ Finset.univ.erase i,
      if Function.update label i c u = Function.update label i c v then G.couple γ u v else 0)
      = ∑ u ∈ Finset.univ.erase i, ∑ v ∈ Finset.univ.erase i,
          if label u = label v then G.couple γ u v else 0 := by
    refine Finset.sum_congr rfl fun u hu => Finset.sum_congr rfl fun v hv => ?_
    rw [Function.update_of_ne (Finset.ne_of_mem_erase hu),
      Function.update_of_ne (Finset.ne_of_mem_erase hv)]
  rw [modularity, modularity, inside_eq _ i, inside_eq label i, hrest, gain_update,
    Function.update_self]
  ring

/-- The gain as it is counted: the weight into the group, less the expected one. -/
theorem gain_eq (label : V → L) (i : V) (c : L) :
    G.gain γ label i c = (∑ v, if label v = c then G.weight i v else 0)
      - γ * (∑ v ∈ Finset.univ.erase i, if label v = c then G.degree v else 0)
        * G.degree i / G.total := by
  have hloop : (∑ v, if label v = c then G.weight i v else 0)
      = ∑ v ∈ Finset.univ.erase i, if label v = c then G.weight i v else 0 := by
    rw [← Finset.add_sum_erase _ _ (Finset.mem_univ i), G.loopless, ite_self, zero_add]
  rw [hloop, gain, Finset.mul_sum, Finset.sum_mul, Finset.sum_div, ← Finset.sum_sub_distrib]
  refine Finset.sum_congr rfl fun v _ => ?_
  split
  · rw [couple]
    ring
  · simp

end Move

/-! ### Merging nodes -/

variable (G)

/-- One node for each class of `comm`: the weights between classes and the degrees add up,
the weight inside a class is dropped. -/
def merge (comm : V → C) : Network C K where
  weight a b := if a = b then 0
    else ∑ u, ∑ v, if comm u = a ∧ comm v = b then G.weight u v else 0
  degree a := ∑ u, if comm u = a then G.degree u else 0
  symm a b := by
    by_cases h : a = b
    · subst h
      rfl
    · rw [if_neg h, if_neg fun h' => h h'.symm, Finset.sum_comm]
      refine Finset.sum_congr rfl fun u _ => Finset.sum_congr rfl fun v _ => ?_
      simp only [G.symm v u, and_comm]
  loopless a := if_pos rfl

/-- The weight inside the classes. -/
def dropped (comm : V → C) : K := ∑ u, ∑ v, if comm u = comm v then G.weight u v else 0

variable {G}

theorem total_merge (comm : V → C) : (G.merge comm).total = G.total := by
  rw [total, total]
  simp only [merge]
  rw [Finset.sum_comm]
  simp

/-- Summing over the classes of two nodes. -/
theorem sum_classes (comm : V → C) (f : C → C → K) (F : V → V → K) :
    (∑ a, ∑ b, f a b * ∑ u, ∑ v, if comm u = a ∧ comm v = b then F u v else 0)
      = ∑ u, ∑ v, f (comm u) (comm v) * F u v := by
  simp only [Finset.mul_sum, mul_ite, mul_zero]
  have hswap : ∀ a, (∑ b, ∑ u, ∑ v, if comm u = a ∧ comm v = b then f a b * F u v else 0)
      = ∑ u, ∑ v, if comm u = a then f a (comm v) * F u v else 0 := by
    intro a
    rw [Finset.sum_comm]
    refine Finset.sum_congr rfl fun u _ => ?_
    rw [Finset.sum_comm]
    refine Finset.sum_congr rfl fun v _ => ?_
    by_cases h : comm u = a <;> simp [h]
  simp only [hswap]
  rw [Finset.sum_comm]
  refine Finset.sum_congr rfl fun u _ => ?_
  rw [Finset.sum_comm]
  refine Finset.sum_congr rfl fun v _ => ?_
  simp

/-- The couplings between two classes, with the weight inside a class apart. -/
theorem couple_merge (comm : V → C) (a b : C) :
    (∑ u, ∑ v, if comm u = a ∧ comm v = b then G.couple γ u v else 0)
      = (G.merge comm).couple γ a b
        + (if a = b then 1 else 0)
          * ∑ u, ∑ v, if comm u = a ∧ comm v = b then G.weight u v else 0 := by
  have hdegrees : (G.merge comm).degree a * (G.merge comm).degree b
      = ∑ u, ∑ v, if comm u = a ∧ comm v = b then G.degree u * G.degree v else 0 := by
    simp only [merge]
    rw [Finset.sum_mul_sum]
    refine Finset.sum_congr rfl fun u _ => Finset.sum_congr rfl fun v _ => ?_
    by_cases hu : comm u = a <;> by_cases hv : comm v = b <;> simp [hu, hv]
  have hsplit : (∑ u, ∑ v, if comm u = a ∧ comm v = b then G.couple γ u v else 0)
      = (∑ u, ∑ v, if comm u = a ∧ comm v = b then G.weight u v else 0)
        - γ * ((G.merge comm).degree a * (G.merge comm).degree b) / G.total := by
    rw [hdegrees, Finset.mul_sum, Finset.sum_div, ← Finset.sum_sub_distrib]
    refine Finset.sum_congr rfl fun u _ => ?_
    rw [Finset.mul_sum, Finset.sum_div, ← Finset.sum_sub_distrib]
    refine Finset.sum_congr rfl fun v _ => ?_
    split
    · rfl
    · simp
  rw [hsplit, couple, total_merge]
  by_cases hab : a = b
  · subst hab
    rw [(G.merge comm).loopless, if_pos rfl]
    ring
  · rw [if_neg hab]
    simp only [merge, if_neg hab]
    ring

/-- Merging changes the modularity of a grouping of the classes by a constant. -/
theorem modularity_comp (comm : V → C) (label : C → L) :
    G.modularity γ (fun v => label (comm v))
      = (G.merge comm).modularity γ label + G.dropped comm / G.total := by
  have hflat : G.inside γ (fun v => label (comm v))
      = ∑ a, ∑ b, (if label a = label b then 1 else 0)
        * ∑ u, ∑ v, if comm u = a ∧ comm v = b then G.couple γ u v else 0 := by
    rw [sum_classes]
    simp only [ite_mul, one_mul, zero_mul]
    rfl
  have hmerged : (G.merge comm).inside γ label
      = ∑ a, ∑ b, (if label a = label b then 1 else 0) * (G.merge comm).couple γ a b := by
    simp only [ite_mul, one_mul, zero_mul]
    rfl
  have hdropped : G.dropped comm = ∑ a, ∑ b, (if a = b then (1 : K) else 0)
      * ∑ u, ∑ v, if comm u = a ∧ comm v = b then G.weight u v else 0 := by
    rw [sum_classes]
    simp only [ite_mul, one_mul, zero_mul]
    rfl
  rw [modularity, modularity, total_merge, ← add_div, hflat, hmerged, hdropped,
    ← Finset.sum_add_distrib]
  congr 1
  refine Finset.sum_congr rfl fun a _ => ?_
  rw [← Finset.sum_add_distrib]
  refine Finset.sum_congr rfl fun b _ => ?_
  rw [couple_merge, mul_add]
  congr 1
  by_cases hab : a = b
  · simp [hab]
  · simp [hab]

end Network

end Modularity
