import Filigrio.Lib.Modularity
import Filigrio.Resolve.Louvain

/-!
# Filigrio.Resolve.LocalMove

A local-moving pass, visit by visit. `Sums` is the bookkeeping invariant: `sum_tot` has the
total degree of every community. Under it a visit succeeds, keeps it, takes only labels that
are in use, and moves only when that raises the modularity (`visit_spec`). There are finitely
many labellings with the labels in use, so the sweeps come to an end (`moveLoop_stops`).
-/

namespace Filigrio.Cluster

open Modularity

variable {n : ℕ}

/-- Symmetric, without loops. -/
structure Graph.Valid (g : Graph n) : Prop where
  symm : ∀ u v, BTreeMap.sumAt (g.adj u) v = BTreeMap.sumAt (g.adj v) u
  loopless : ∀ u w, (u, w) ∉ g.adj u

namespace Graph

/-- The network a graph stands for. -/
def network (g : Graph n) (hg : g.Valid) : Network (Fin n) ℚ where
  weight u v := BTreeMap.sumAt (g.adj u) v
  degree := g.deg
  symm := hg.symm
  loopless v := by
    refine BTreeMap.sumAt_of_notMem fun h => ?_
    obtain ⟨⟨u, w⟩, hmem, rfl⟩ := List.mem_map.mp h
    exact hg.loopless _ w hmem

end Graph

/-- The total degree of the nodes in a community. -/
def totOf (g : Graph n) (label : Fin n → ℕ) (c : ℕ) : ℚ :=
  ∑ v, if label v = c then g.deg v else 0

/-- `sum_tot` is the total degree of each community, and has an entry for each in use. -/
structure Sums (g : Graph n) (st : Moves n) : Prop where
  eq : ∀ c, (st.sumTot c).getD 0 = totOf g st.label c
  some : ∀ i, (st.sumTot (st.label i)).isSome

/-! ### The quantities of one visit -/

section Visit

variable {g : Graph n} {twoM resolution eps : ℚ} {st st' : Moves n}

theorem sumAt_relabel (label : Fin n → ℕ) (l : List (Fin n × ℚ)) (c : ℕ) :
    BTreeMap.sumAt (l.map fun jw => (label jw.1, jw.2)) c
      = ∑ v, if label v = c then BTreeMap.sumAt l v else 0 := by
  induction l with
  | nil => simp
  | cons jw l ih =>
      have hone : (∑ v, if label v = c then (if jw.1 = v then jw.2 else 0) else 0)
          = if label jw.1 = c then jw.2 else 0 := by
        rw [Finset.sum_eq_single jw.1]
        · simp
        · intro v _ hv
          simp [Ne.symm hv]
        · intro h
          exact absurd (Finset.mem_univ _) h
      rw [List.map_cons, BTreeMap.sumAt_cons, ih, ← hone, ← Finset.sum_add_distrib]
      refine Finset.sum_congr rfl fun v _ => ?_
      rw [BTreeMap.sumAt_cons]
      split <;> simp

theorem getD_weightsInto (hg : g.Valid) (label : Fin n → ℕ) (i : Fin n) (c : ℕ) :
    ((weightsInto g label i)[c]?).getD 0
      = ∑ v, if label v = c then (g.network hg).weight i v else 0 := by
  have hadd : ((weightsInto g label i)[c]?).getD 0
      = ((BTreeMap.addAll ∅ ((g.adj i).map fun jw => (label jw.1, jw.2)))[c]?).getD 0 := by
    rw [weightsInto, BTreeMap.get_addAt]
    split <;> simp
  rw [hadd, BTreeMap.getD_addAll, sumAt_relabel]
  simp [Graph.network]

theorem mem_keys_weightsInto {label : Fin n → ℕ} {i : Fin n} {c : ℕ}
    (h : c ∈ (weightsInto g label i).keys) : ∃ j, label j = c := by
  rw [Std.ExtTreeMap.mem_keys, Std.ExtTreeMap.mem_iff_isSome_getElem?, weightsInto,
    BTreeMap.get_addAt] at h
  split at h
  · rename_i hc
    exact ⟨i, hc⟩
  · rw [BTreeMap.get_addAll] at h
    split at h
    · rename_i hmem
      obtain ⟨p, hp, rfl⟩ := List.mem_map.mp hmem
      obtain ⟨jw, -, rfl⟩ := List.mem_map.mp hp
      exact ⟨jw.1, rfl⟩
    · simp at h

/-- The choice: the own community, or one with a gain larger by more than `eps`. -/
theorem bestOf_spec (heps : 0 ≤ eps) (gain : ℕ → ℚ) (candidates : List ℕ) (own : ℕ) :
    ((bestOf eps gain candidates own).1 = own ∨ (bestOf eps gain candidates own).1 ∈ candidates)
    ∧ ((bestOf eps gain candidates own).1 ≠ own →
        gain own + eps < gain (bestOf eps gain candidates own).1) := by
  have hloop : ∀ (l : List ℕ) (best : ℕ × ℚ), best.2 = gain best.1 →
      gain own ≤ best.2 → (best.1 ≠ own → gain own + eps < gain best.1) →
      let r := l.foldl (fun best c => if best.2 + eps < gain c then (c, gain c) else best) best
      (r.1 = best.1 ∨ r.1 ∈ l) ∧ (r.1 ≠ own → gain own + eps < gain r.1) := by
    intro l
    induction l with
    | nil =>
        intro best _ _ hbest
        exact ⟨Or.inl rfl, hbest⟩
    | cons c l ih =>
        intro best hval hown hbest
        rw [List.foldl_cons]
        by_cases hlt : best.2 + eps < gain c
        · rw [if_pos hlt]
          obtain ⟨hmem, hgain⟩ := ih (c, gain c) rfl (by dsimp only; linarith)
            fun _ => by dsimp only; linarith
          refine ⟨Or.inr ?_, hgain⟩
          rcases hmem with hmem | hmem
          · rw [hmem]
            exact List.mem_cons_self
          · exact List.mem_cons_of_mem c hmem
        · rw [if_neg hlt]
          obtain ⟨hmem, hgain⟩ := ih best hval hown hbest
          exact ⟨hmem.imp id (List.mem_cons_of_mem c), hgain⟩
  exact hloop candidates (own, gain own) rfl (le_refl _) fun h => absurd rfl h

theorem totOf_eq (label : Fin n → ℕ) (i : Fin n) (c : ℕ) :
    totOf g label c = (if label i = c then g.deg i else 0)
      + ∑ v ∈ Finset.univ.erase i, if label v = c then g.deg v else 0 :=
  (Finset.add_sum_erase _ _ (Finset.mem_univ i)).symm

/-- Taking a node out of its community leaves the sums over the others. -/
theorem sumTot_without (hst : Sums g st) {i : Fin n} {tot : ℚ}
    (htot : st.sumTot (st.label i) = some tot) (c : ℕ) :
    (Function.update st.sumTot (st.label i) (some (tot - g.deg i)) c).getD 0
      = ∑ v ∈ Finset.univ.erase i, if st.label v = c then g.deg v else 0 := by
  have hold := hst.eq c
  rw [totOf_eq st.label i] at hold
  by_cases hc : c = st.label i
  · subst hc
    rw [htot, Option.getD_some, if_pos rfl] at hold
    rw [Function.update_self, Option.getD_some, hold]
    ring
  · rw [if_neg fun h => hc h.symm, zero_add] at hold
    rw [Function.update_of_ne hc, hold]

/-- The gain that is computed is the coupling with the other nodes of the community. -/
theorem gainOf_eq (hg : g.Valid) (htotal : twoM = (g.network hg).total) (hst : Sums g st)
    {i : Fin n} {tot : ℚ} (htot : st.sumTot (st.label i) = some tot) (c : ℕ) :
    gainOf g twoM resolution (weightsInto g st.label i)
      (Function.update st.sumTot (st.label i) (some (tot - g.deg i))) i c
      = (g.network hg).gain resolution st.label i c := by
  rw [gainOf, getD_weightsInto hg, sumTot_without hst htot, Network.gain_eq, htotal]
  rfl

/-- Putting the node into a community adds its degree there. -/
theorem sums_visit (hst : Sums g st) {i : Fin n} {tot : ℚ}
    (htot : st.sumTot (st.label i) = some tot) (c : ℕ) :
    Sums g
      { label := Function.update st.label i c
        sumTot := Function.update (Function.update st.sumTot (st.label i) (some (tot - g.deg i))) c
          (some ((Function.update st.sumTot (st.label i) (some (tot - g.deg i)) c).getD 0
            + g.deg i)) } := by
  have hwithout := sumTot_without hst htot
  have hothers : ∀ c', (∑ v ∈ Finset.univ.erase i,
      if Function.update st.label i c v = c' then g.deg v else 0)
      = ∑ v ∈ Finset.univ.erase i, if st.label v = c' then g.deg v else 0 := by
    intro c'
    refine Finset.sum_congr rfl fun v hv => ?_
    rw [Function.update_of_ne (Finset.ne_of_mem_erase hv)]
  constructor
  · intro c'
    dsimp only
    rw [totOf_eq _ i, hothers, Function.update_self, ← hwithout]
    by_cases hc : c' = c
    · subst hc
      rw [Function.update_self, Option.getD_some, if_pos rfl, add_comm]
    · rw [Function.update_of_ne hc, if_neg fun h => hc h.symm, zero_add]
  · intro j
    dsimp only
    by_cases hl : Function.update st.label i c j = c
    · rw [hl, Function.update_self]
      rfl
    · have hji : j ≠ i := by
        rintro rfl
        exact hl (Function.update_self ..)
      rw [Function.update_of_ne hji] at hl ⊢
      rw [Function.update_of_ne hl]
      by_cases hown : st.label j = st.label i
      · rw [hown, Function.update_self]
        rfl
      · rw [Function.update_of_ne hown]
        exact hst.some j

/-- What a visit does: the node gets a label in use, and another one than its own only when
that raises the modularity. -/
theorem visit_spec (hg : g.Valid) (htotal : twoM = (g.network hg).total) (hpos : 0 < twoM)
    (heps : 0 ≤ eps) (hst : Sums g st) (i : Fin n) : ∃ st' c,
      visit g twoM resolution eps st i = .ok (st', decide (c ≠ st.label i))
      ∧ st'.label = Function.update st.label i c ∧ (∃ j, st.label j = c) ∧ Sums g st'
      ∧ (c ≠ st.label i → (g.network hg).modularity resolution st.label
          < (g.network hg).modularity resolution st'.label) := by
  obtain ⟨tot, htot⟩ := Option.isSome_iff_exists.mp (hst.some i)
  obtain ⟨hmem, hbetter⟩ := bestOf_spec heps (gainOf g twoM resolution
    (weightsInto g st.label i) (Function.update st.sumTot (st.label i) (some (tot - g.deg i))) i)
    (weightsInto g st.label i).keys (st.label i)
  rw [visit, htot]
  dsimp only
  generalize (bestOf eps (gainOf g twoM resolution (weightsInto g st.label i)
    (Function.update st.sumTot (st.label i) (some (tot - g.deg i))) i)
    (weightsInto g st.label i).keys (st.label i)).1 = c at hmem hbetter
  refine ⟨_, c, rfl, rfl, ?_, sums_visit hst htot c, fun hne => ?_⟩
  · rcases hmem with rfl | hmem
    · exact ⟨i, rfl⟩
    · exact mem_keys_weightsInto hmem
  · have hgain := hbetter hne
    rw [gainOf_eq hg htotal hst htot, gainOf_eq hg htotal hst htot] at hgain
    dsimp only
    rw [Network.modularity_update, ← htotal]
    have hraise : 0 < 2 * ((g.network hg).gain resolution st.label i c
        - (g.network hg).gain resolution st.label i (st.label i)) / twoM :=
      div_pos (by linarith) hpos
    linarith

end Visit

/-! ### Runs of visits -/

section Runs

variable {g : Graph n} {twoM resolution eps : ℚ} {st st' : Moves n}

/-- One visit of a node, whichever. -/
def Visits (g : Graph n) (twoM resolution eps : ℚ) (st st' : Moves n) : Prop :=
  ∃ i moved, visit g twoM resolution eps st i = .ok (st', moved)

/-- The states reached by visits. -/
abbrev Reaches (g : Graph n) (twoM resolution eps : ℚ) : Moves n → Moves n → Prop :=
  Relation.ReflTransGen (Visits g twoM resolution eps)

theorem sums_start (g : Graph n) (label : Fin n → ℕ) : Sums g (startMoves g label) := by
  have hsum : ∀ (l : List (Fin n)) (c : ℕ), BTreeMap.sumAt (l.map fun i => (label i, g.deg i)) c
      = (l.map fun i => if label i = c then g.deg i else 0).sum := by
    intro l c
    induction l with
    | nil => rfl
    | cons i l ih => rw [List.map_cons, BTreeMap.sumAt_cons, ih, List.map_cons, List.sum_cons]
  constructor
  · intro c
    rw [startMoves, BTreeMap.getD_addAll, hsum, totOf, ← Fin.sum_univ_def]
    simp
  · intro i
    have hmem : label i ∈ ((List.finRange n).map fun i => (label i, g.deg i)).map Prod.fst := by
      rw [List.map_map]
      exact List.mem_map.mpr ⟨i, List.mem_finRange i, rfl⟩
    dsimp only [startMoves]
    rw [BTreeMap.get_addAll, if_pos hmem]
    rfl

variable (hg : g.Valid) (htotal : twoM = (g.network hg).total) (hpos : 0 < twoM) (heps : 0 ≤ eps)
include hg htotal hpos heps

/-- A single visit, moved or not. -/
theorem visits_spec (hst : Sums g st) (h : Visits g twoM resolution eps st st') :
    Sums g st' ∧ Set.range st'.label ⊆ Set.range st.label
    ∧ (st'.label = st.label ∨ (g.network hg).modularity resolution st.label
        < (g.network hg).modularity resolution st'.label) := by
  obtain ⟨i, moved, hvisit⟩ := h
  obtain ⟨st'', c, hspec, hlabel, hused, hsums, hraise⟩ :=
    visit_spec hg htotal hpos heps hst i
  rw [hspec] at hvisit
  cases hvisit
  refine ⟨hsums, ?_, ?_⟩
  · rintro l ⟨j, rfl⟩
    rw [hlabel]
    by_cases hj : j = i
    · subst hj
      rw [Function.update_self]
      exact hused
    · rw [Function.update_of_ne hj]
      exact ⟨j, rfl⟩
  · by_cases hc : c = st.label i
    · refine Or.inl ?_
      rw [hlabel, hc, Function.update_eq_self]
    · exact Or.inr (hraise hc)

/-- A run of visits keeps the sums, uses no new label, and does not lose modularity. -/
theorem reaches_spec (hst : Sums g st) (h : Reaches g twoM resolution eps st st') :
    Sums g st' ∧ Set.range st'.label ⊆ Set.range st.label
    ∧ (st'.label = st.label ∨ (g.network hg).modularity resolution st.label
        < (g.network hg).modularity resolution st'.label) := by
  induction h with
  | refl => exact ⟨hst, subset_rfl, Or.inl rfl⟩
  | tail _ hlast ih =>
      obtain ⟨hsums, hrange, hraise⟩ := ih
      obtain ⟨hsums', hrange', hraise'⟩ := visits_spec hg htotal hpos heps hsums hlast
      refine ⟨hsums', hrange'.trans hrange, ?_⟩
      rcases hraise' with hsame | hraise'
      · rw [hsame]
        exact hraise
      · rcases hraise with hsame | hraise
        · rw [← hsame]
          exact Or.inr hraise'
        · exact Or.inr (hraise.trans hraise')

/-- A sweep succeeds; it answers that something moved exactly when the modularity rose, and
else has changed no label. -/
theorem foldlM_visit (l : List (Fin n)) (hst : Sums g st) (b : Bool) : ∃ st' b',
    l.foldlM (fun acc i => do
      let r ← visit g twoM resolution eps acc.1 i
      pure (r.1, acc.2 || r.2)) (st, b) = (Except.ok (st', b') : Except Error (Moves n × Bool))
    ∧ Reaches g twoM resolution eps st st'
    ∧ ((b' = b ∧ st'.label = st.label) ∨ (b' = true
      ∧ (g.network hg).modularity resolution st.label
        < (g.network hg).modularity resolution st'.label)) := by
  induction l generalizing st b with
  | nil => exact ⟨st, b, rfl, .refl, Or.inl ⟨rfl, rfl⟩⟩
  | cons i l ih =>
      obtain ⟨st₁, c, hvisit, hlabel, -, hsums, hraise⟩ :=
        visit_spec hg htotal hpos heps hst i
      obtain ⟨st', b', hrest, hreach, hresult⟩ := ih hsums (b || decide (c ≠ st.label i))
      refine ⟨st', b', ?_, .head ⟨i, _, hvisit⟩ hreach, ?_⟩
      · rw [List.foldlM_cons, hvisit]
        exact hrest
      · by_cases hc : c = st.label i
        · have hsame : st₁.label = st.label := by rw [hlabel, hc, Function.update_eq_self]
          rw [hsame] at hresult
          simpa [hc] using hresult
        · refine Or.inr ?_
          rcases hresult with ⟨hb, hsame⟩ | ⟨hb, hlt⟩
          · rw [hsame]
            exact ⟨by simpa [hc] using hb, hraise hc⟩
          · exact ⟨hb, (hraise hc).trans hlt⟩

/-- How many labellings with the given labels have a larger modularity. -/
noncomputable def above (γ : ℚ) (labels : Finset ℕ) (label : Fin n → ℕ) : ℕ :=
  ((Fintype.piFinset fun _ => labels).filter fun other =>
    (g.network hg).modularity γ label < (g.network hg).modularity γ other).card

/-- How a pass from `st` to `st'` can have gone: its first sweep moved nothing and the labels
are as they were, or it moved something and the modularity rose. -/
def Passed (twoM γ eps : ℚ) (st st' : Moves n) : Prop :=
  (st'.label = st.label ∧ ∃ st₁, sweep g twoM γ eps st = .ok (st₁, false))
  ∨ ((g.network hg).modularity γ st.label < (g.network hg).modularity γ st'.label
    ∧ ∃ st₁, sweep g twoM γ eps st = .ok (st₁, true))

/-- The loop stops: every sweep but the last leaves fewer labellings above. -/
theorem moveLoop_of_above {labels : Finset ℕ} {fuel : ℕ} (hst : Sums g st)
    (hlabels : ∀ i, st.label i ∈ labels) (hfuel : above hg resolution labels st.label < fuel) :
    ∃ st', moveLoop g twoM resolution eps fuel st = .ok (st', false)
      ∧ Reaches g twoM resolution eps st st' ∧ Passed hg twoM resolution eps st st' := by
  induction fuel generalizing st with
  | zero => omega
  | succ fuel ih =>
      obtain ⟨st₁, b, hsweep, hreach, hresult⟩ :=
        foldlM_visit hg htotal hpos heps (List.finRange n) hst false
      have hloop : moveLoop g twoM resolution eps (fuel + 1) st
          = if b then moveLoop g twoM resolution eps fuel st₁ else .ok (st₁, false) := by
        rw [moveLoop, sweep, hsweep]
        rfl
      rw [hloop]
      rcases hresult with ⟨rfl, hsame⟩ | ⟨rfl, hlt⟩
      · exact ⟨st₁, rfl, hreach, Or.inl ⟨hsame, st₁, hsweep⟩⟩
      · obtain ⟨hsums, hrange, -⟩ := reaches_spec hg htotal hpos heps hst hreach
        have hlabels' : ∀ i, st₁.label i ∈ labels := by
          intro i
          obtain ⟨j, hj⟩ := hrange ⟨i, rfl⟩
          exact hj ▸ hlabels j
        have hfewer : above hg resolution labels st₁.label < above hg resolution labels st.label := by
          refine Finset.card_lt_card ((Finset.ssubset_iff_of_subset ?_).mpr ?_)
          · intro other hother
            rw [Finset.mem_filter] at hother ⊢
            exact ⟨hother.1, hlt.trans hother.2⟩
          · refine ⟨st₁.label, ?_, ?_⟩
            · exact Finset.mem_filter.mpr ⟨Fintype.mem_piFinset.mpr hlabels', hlt⟩
            · intro hmem
              exact absurd (Finset.mem_filter.mp hmem).2 (lt_irrefl _)
        obtain ⟨st', hrun, hreach', -⟩ := ih hsums hlabels' (by omega)
        refine ⟨st', hrun, hreach.trans hreach', Or.inr ⟨?_, st₁, hsweep⟩⟩
        obtain ⟨-, -, hsame | hraise⟩ := reaches_spec hg htotal hpos heps hsums hreach'
        · rw [hsame]
          exact hlt
        · exact hlt.trans hraise

/-- `n ^ n` sweeps are enough. -/
theorem moveLoop_stops (seed : Fin n → ℕ) : ∃ st',
    moveLoop g twoM resolution eps (n ^ n) (startMoves g seed) = .ok (st', false)
      ∧ Reaches g twoM resolution eps (startMoves g seed) st'
      ∧ Passed hg twoM resolution eps (startMoves g seed) st' := by
  let labels := Finset.univ.image seed
  have hcard : labels.card ≤ n := by
    simpa using @Finset.card_image_le _ _ Finset.univ seed _
  have hlabels : ∀ i, seed i ∈ labels := fun i => Finset.mem_image_of_mem seed (Finset.mem_univ i)
  refine moveLoop_of_above hg htotal hpos heps (sums_start g seed) hlabels ?_
  have hself : seed ∈ Fintype.piFinset fun _ => labels := Fintype.mem_piFinset.mpr hlabels
  have hall : (Fintype.piFinset fun _ : Fin n => labels).card ≤ n ^ n := by
    rw [Fintype.card_piFinset, Finset.prod_const, Finset.card_univ, Fintype.card_fin]
    exact Nat.pow_le_pow_left hcard n
  refine lt_of_lt_of_le (Finset.card_lt_card ?_) hall
  refine (Finset.ssubset_iff_of_subset (Finset.filter_subset _ _)).mpr ⟨seed, hself, ?_⟩
  intro hmem
  exact absurd (Finset.mem_filter.mp hmem).2 (lt_irrefl _)

/-- A pass returns the labels of a state it reached. -/
theorem localMove_spec (seed : Fin n → ℕ) : ∃ st',
    localMove g twoM resolution eps seed = .ok st'.label
    ∧ Reaches g twoM resolution eps (startMoves g seed) st'
    ∧ Passed hg twoM resolution eps (startMoves g seed) st' := by
  obtain ⟨st', hrun, hreach, hpassed⟩ := moveLoop_stops hg htotal hpos heps seed
  refine ⟨st', ?_, hreach, hpassed⟩
  rw [localMove, hrun]
  rfl

/-- From labels that are all different, the first move loses a label for good. -/
theorem lost_label (hst : Sums g st) (hinj : Function.Injective st.label)
    (h : Reaches g twoM resolution eps st st') :
    st'.label = st.label ∨ ∃ i, st.label i ∉ Set.range st'.label := by
  induction h with
  | refl => exact Or.inl rfl
  | @tail st₁ st₂ hmid hlast ih =>
      obtain ⟨hsums, -, -⟩ := reaches_spec hg htotal hpos heps hst hmid
      rcases ih with hsame | ⟨i, hi⟩
      · obtain ⟨i, moved, hvisit⟩ := hlast
        obtain ⟨st₃, c, hspec, hlabel, -, -, -⟩ := visit_spec hg htotal hpos heps hsums i
        rw [hspec] at hvisit
        cases hvisit
        rw [hlabel, hsame]
        by_cases hc : c = st.label i
        · exact Or.inl (by rw [hc, Function.update_eq_self])
        · refine Or.inr ⟨i, ?_⟩
          rintro ⟨j, hj⟩
          by_cases hji : j = i
          · subst hji
            rw [Function.update_self] at hj
            exact hc hj
          · rw [Function.update_of_ne hji] at hj
            exact hji (hinj hj)
      · obtain ⟨-, hrange, -⟩ := visits_spec hg htotal hpos heps hsums hlast
        exact Or.inr ⟨i, fun hmem => hi (hrange hmem)⟩

end Runs

end Filigrio.Cluster
