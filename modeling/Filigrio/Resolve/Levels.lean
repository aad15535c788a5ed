import Filigrio.Resolve.LocalMove

/-!
# Filigrio.Resolve.Levels

The levels of the optimisation. The aggregated graph stands for the merged network
(`network_aggregate`), so the modularity of a grouping of super-nodes differs from that of the
nodes by a constant. A pass over fresh labels loses a label with its first move, so the number
of communities tells whether a super-node moved, and falls with every level but the last.
-/

namespace Filigrio.Cluster

open Modularity

variable {n k : ℕ}

/-! ### The aggregated graph -/

section Aggregate

variable {g : Graph n}

theorem sumAt_adjOf (pairs : BTreeMap (Fin n ×ₗ Fin n) ℚ) (u v : Fin n) :
    BTreeMap.sumAt (adjOf pairs u) v
      = (pairs[toLex (u, v)]?).getD 0 + (pairs[toLex (v, u)]?).getD 0 := by
  have hentry : ∀ p : (Fin n ×ₗ Fin n) × ℚ, BTreeMap.sumAt
      ((if (ofLex p.1).1 = u then [((ofLex p.1).2, p.2)] else [])
        ++ (if (ofLex p.1).2 = u then [((ofLex p.1).1, p.2)] else [])) v
      = (if p.1 = toLex (u, v) then p.2 else 0) + (if p.1 = toLex (v, u) then p.2 else 0) := by
    rintro ⟨k, w⟩
    obtain ⟨⟨a, b⟩, rfl⟩ := toLex.surjective k
    simp only [ofLex_toLex, BTreeMap.sumAt_append, EmbeddingLike.apply_eq_iff_eq, Prod.mk.injEq]
    by_cases ha : a = u <;> by_cases hb : b = u <;> simp [ha, hb, BTreeMap.sumAt_cons]
  rw [adjOf, BTreeMap.sumAt_flatMap]
  simp only [hentry]
  rw [List.sum_map_add, ← BTreeMap.sumAt_toList pairs, ← BTreeMap.sumAt_toList pairs,
    ← BTreeMap.sumAt_map, ← BTreeMap.sumAt_map]
  simp

theorem sumAt_adjOf_comm (pairs : BTreeMap (Fin n ×ₗ Fin n) ℚ) (u v : Fin n) :
    BTreeMap.sumAt (adjOf pairs u) v = BTreeMap.sumAt (adjOf pairs v) u := by
  rw [sumAt_adjOf, sumAt_adjOf, add_comm]

/-- Who is listed beside a node. -/
theorem mem_adjOf {pairs : BTreeMap (Fin n ×ₗ Fin n) ℚ} {u v : Fin n} {w : ℚ}
    (h : (v, w) ∈ adjOf pairs u) :
    pairs[toLex (u, v)]? = some w ∨ pairs[toLex (v, u)]? = some w := by
  obtain ⟨⟨key, w'⟩, hmem, hentry⟩ := List.mem_flatMap.mp h
  obtain ⟨⟨a, b⟩, rfl⟩ := toLex.surjective key
  rw [BTreeMap.mem_toList] at hmem
  rcases List.mem_append.mp hentry with hentry | hentry
  · obtain ⟨rfl, hone⟩ := List.mem_ite_nil_right.mp hentry
    cases List.mem_singleton.mp hone
    exact Or.inl hmem
  · obtain ⟨rfl, hone⟩ := List.mem_ite_nil_right.mp hentry
    cases List.mem_singleton.mp hone
    exact Or.inr hmem

/-- Entries kept under a condition, and put under new keys. -/
theorem sumAt_filterMap {κ : Type*} [LinearOrder κ] (p : Fin n → Prop) [DecidablePred p]
    (f : Fin n → κ) (l : List (Fin n × ℚ)) (key : κ) :
    BTreeMap.sumAt (l.filterMap fun vw => if p vw.1 then some (f vw.1, vw.2) else none) key
      = ∑ v, if p v ∧ f v = key then BTreeMap.sumAt l v else 0 := by
  induction l with
  | nil => simp
  | cons vw l ih =>
      have hone : (∑ v, if p v ∧ f v = key then (if vw.1 = v then vw.2 else 0) else 0)
          = if p vw.1 ∧ f vw.1 = key then vw.2 else 0 := by
        rw [Finset.sum_eq_single vw.1]
        · simp
        · intro v _ hv
          simp [Ne.symm hv]
        · intro h
          exact absurd (Finset.mem_univ _) h
      have hsplit : (∑ v, if p v ∧ f v = key then BTreeMap.sumAt (vw :: l) v else 0)
          = (if p vw.1 ∧ f vw.1 = key then vw.2 else 0)
            + ∑ v, if p v ∧ f v = key then BTreeMap.sumAt l v else 0 := by
        rw [← hone, ← Finset.sum_add_distrib]
        refine Finset.sum_congr rfl fun v _ => ?_
        rw [BTreeMap.sumAt_cons]
        split <;> simp
      rw [hsplit, List.filterMap_cons, ← ih]
      by_cases hp : p vw.1
      · simp [hp, BTreeMap.sumAt_cons]
      · simp [hp]

/-- The weight between two communities, as `aggregate` collects it. -/
theorem get_interPairs (comm : Fin n → Fin k) (a b : Fin k) :
    ((interPairs g comm)[toLex (a, b)]?).getD 0
      = ∑ u, ∑ v, if (u < v ∧ comm u ≠ comm v)
          ∧ toLex (min (comm u) (comm v), max (comm u) (comm v)) = toLex (a, b)
        then BTreeMap.sumAt (g.adj u) v else 0 := by
  have hrow : ∀ u, BTreeMap.sumAt ((g.adj u).filterMap fun vw =>
      if u < vw.1 ∧ comm u ≠ comm vw.1 then
        some (toLex (min (comm u) (comm vw.1), max (comm u) (comm vw.1)), vw.2)
      else none) (toLex (a, b)) = _ := fun u =>
    sumAt_filterMap (fun v => u < v ∧ comm u ≠ comm v)
      (fun v => toLex (min (comm u) (comm v), max (comm u) (comm v))) (g.adj u) (toLex (a, b))
  rw [interPairs, BTreeMap.getD_addAll, BTreeMap.sumAt_flatMap, Fin.sum_univ_def]
  simp only [hrow]
  simp

/-- Every pair is of two different communities. -/
theorem ne_of_get_interPairs {comm : Fin n → Fin k} {a b : Fin k} {w : ℚ}
    (h : (interPairs g comm)[toLex (a, b)]? = some w) : a ≠ b := by
  rw [interPairs, BTreeMap.get_addAll] at h
  split at h
  · rename_i hmem
    obtain ⟨⟨key, w'⟩, hin, rfl⟩ := List.mem_map.mp hmem
    obtain ⟨u, -, hu⟩ := List.mem_flatMap.mp hin
    obtain ⟨vw, -, hvw⟩ := List.mem_filterMap.mp hu
    split at hvw
    · rename_i hcond
      simp only [Option.some.injEq, Prod.mk.injEq, EmbeddingLike.apply_eq_iff_eq] at hvw
      obtain ⟨⟨rfl, rfl⟩, -⟩ := hvw
      intro heq
      exact hcond.2 (inf_eq_sup.mp heq)
    · cases hvw
  · simp at h

theorem valid_aggregate (g : Graph n) (comm : Fin n → Fin k) : (aggregate g comm).Valid where
  symm := sumAt_adjOf_comm _
  loopless _ _ h := (mem_adjOf h).elim (fun h => ne_of_get_interPairs h rfl)
    fun h => ne_of_get_interPairs h rfl

/-- The super-graph stands for the network with each community merged into one node. -/
theorem network_aggregate (hg : g.Valid) (comm : Fin n → Fin k) :
    (aggregate g comm).network (valid_aggregate g comm) = (g.network hg).merge comm := by
  have hweight : ∀ a b, a ≠ b → BTreeMap.sumAt ((aggregate g comm).adj a) b
      = ∑ u, ∑ v, if comm u = a ∧ comm v = b then BTreeMap.sumAt (g.adj u) v else 0 := by
    intro a b hab
    have hswap : (∑ u, ∑ v, if u < v ∧ comm u = b ∧ comm v = a then BTreeMap.sumAt (g.adj u) v else 0)
        = ∑ u, ∑ v, if v < u ∧ comm u = a ∧ comm v = b then BTreeMap.sumAt (g.adj u) v else 0 := by
      rw [Finset.sum_comm]
      refine Finset.sum_congr rfl fun u _ => Finset.sum_congr rfl fun v _ => ?_
      simp only [hg.symm v u, and_comm]
    have hordered : ∀ u v, (if (u < v ∧ comm u ≠ comm v)
          ∧ toLex (min (comm u) (comm v), max (comm u) (comm v)) = toLex (a, b)
        then BTreeMap.sumAt (g.adj u) v else 0)
        + (if (u < v ∧ comm u ≠ comm v)
          ∧ toLex (min (comm u) (comm v), max (comm u) (comm v)) = toLex (b, a)
        then BTreeMap.sumAt (g.adj u) v else 0)
        = (if u < v ∧ comm u = a ∧ comm v = b then BTreeMap.sumAt (g.adj u) v else 0)
          + (if u < v ∧ comm u = b ∧ comm v = a then BTreeMap.sumAt (g.adj u) v else 0) := by
      intro u v
      simp only [EmbeddingLike.apply_eq_iff_eq, Prod.mk.injEq]
      by_cases huv : u < v
      · rcases le_total (comm u) (comm v) with hle | hle
        · simp only [min_eq_left hle, max_eq_right hle]
          grind
        · simp only [min_eq_right hle, max_eq_left hle]
          grind
      · simp [huv]
    rw [aggregate, sumAt_adjOf, get_interPairs, get_interPairs, ← Finset.sum_add_distrib]
    simp only [← Finset.sum_add_distrib, hordered]
    simp only [Finset.sum_add_distrib, hswap]
    simp only [← Finset.sum_add_distrib]
    refine Finset.sum_congr rfl fun u _ => Finset.sum_congr rfl fun v _ => ?_
    rcases lt_trichotomy u v with h | h | h
    · simp [h, h.not_gt]
    · subst h
      have hne : ¬ (comm u = a ∧ comm u = b) := by
        rintro ⟨rfl, rfl⟩
        exact hab rfl
      simp [hne]
    · simp [h, h.not_gt]
  refine Network.ext (funext fun a => funext fun b => ?_) (funext fun c => ?_)
  · by_cases hab : a = b
    · subst hab
      rw [Network.loopless, Network.loopless]
    · simp only [Graph.network, Network.merge, if_neg hab]
      exact hweight a b hab
  · simp only [Graph.network, Network.merge, aggregate, BTreeMap.sumAt_map]
    rw [Fin.sum_univ_def]

end Aggregate

/-! ### Dense labels -/

theorem firstLabels_spec_aux (labels seen : List ℕ) (h : seen.Nodup) :
    (labels.foldl (fun seen l => if l ∈ seen then seen else seen ++ [l]) seen).Nodup := by
  induction labels generalizing seen with
  | nil => exact h
  | cons l labels ih =>
      rw [List.foldl_cons]
      split
      · exact ih seen h
      · rename_i hl
        refine ih _ (List.nodup_append.mpr ⟨h, List.nodup_singleton l, ?_⟩)
        intro a ha b hb
        rw [List.mem_singleton.mp hb]
        rintro rfl
        exact hl ha

theorem nodup_firstLabels (labels : List ℕ) : (firstLabels labels).Nodup :=
  firstLabels_spec_aux labels [] List.nodup_nil

/-- Dense labels are equal where the labels are. -/
theorem densify_comm {label : Fin n → ℕ} {i j : Fin n} :
    (densify label).comm i = (densify label).comm j ↔ label i = label j := by
  rw [densify, Fin.mk.injEq]
  exact List.idxOf_inj (mem_firstLabels.mpr (List.mem_ofFn.mpr ⟨i, rfl⟩))

/-- There are as many dense labels as labels in use. -/
theorem densify_k (label : Fin n → ℕ) : (densify label).k = (Finset.univ.image label).card := by
  have himage : Finset.univ.image label = (firstLabels (List.ofFn label)).toFinset := by
    ext l
    simp [mem_firstLabels, List.mem_ofFn]
  rw [himage, List.toFinset_card_of_nodup (nodup_firstLabels _)]
  rfl

theorem densify_k_le (label : Fin n → ℕ) : (densify label).k ≤ n := by
  rw [densify_k]
  simpa using @Finset.card_image_le _ _ Finset.univ label _

theorem densify_k_pos (label : Fin n → ℕ) (i : Fin n) : 0 < (densify label).k :=
  lt_of_le_of_lt (Nat.zero_le _) ((densify label).comm i).isLt

/-- Densifying keeps the modularity. -/
theorem modularity_densify (N : Network (Fin n) ℚ) (γ : ℚ) (label : Fin n → ℕ) :
    N.modularity γ (densify label).comm = N.modularity γ label :=
  Network.modularity_congr fun _ _ => densify_comm

/-! ### The levels -/

section Levels

variable {g : Graph n} {twoM resolution eps : ℚ}

/-- The modularity of a grouping of super-nodes, up to a constant. -/
theorem modularity_aggregate (hg : g.Valid) (comm : Fin n → Fin k) {L : Type*} [DecidableEq L]
    (label : Fin k → L) :
    (g.network hg).modularity resolution (fun i => label (comm i))
      = ((aggregate g comm).network (valid_aggregate g comm)).modularity resolution label
        + (g.network hg).dropped comm / (g.network hg).total := by
  rw [network_aggregate hg, Network.modularity_comp]

theorem total_aggregate (hg : g.Valid) (comm : Fin n → Fin k) :
    ((aggregate g comm).network (valid_aggregate g comm)).total = (g.network hg).total := by
  rw [network_aggregate hg, Network.total_merge]

variable (hg : g.Valid) (htotal : twoM = (g.network hg).total) (hpos : 0 < twoM) (heps : 0 ≤ eps)
include hg htotal hpos heps

/-- A pass over the super-nodes: either its first sweep moved none and there are as many
communities as before, or one moved, there are fewer, and the modularity rose. -/
theorem superMove_spec (comm : Fin n → Fin k) : ∃ slabel,
    localMove (aggregate g comm) twoM resolution eps (fun c => c.val) = .ok slabel
    ∧ (((densify slabel).k = k ∧ ∃ st₁, sweep (aggregate g comm) twoM resolution eps
          (startMoves (aggregate g comm) fun c => c.val) = .ok (st₁, false))
      ∨ ((densify slabel).k < k ∧ (∃ st₁, sweep (aggregate g comm) twoM resolution eps
          (startMoves (aggregate g comm) fun c => c.val) = .ok (st₁, true))
        ∧ (g.network hg).modularity resolution comm
          < (g.network hg).modularity resolution fun i => (densify slabel).comm (comm i))) := by
  have hg' := valid_aggregate g comm
  have htotal' : twoM = ((aggregate g comm).network hg').total := by
    rw [total_aggregate hg, htotal]
  have hsums := sums_start (aggregate g comm) fun c => c.val
  obtain ⟨st', hrun, hreach, hpassed⟩ :=
    localMove_spec hg' htotal' hpos heps fun c => c.val
  have hfresh : Finset.card (Finset.univ.image fun c : Fin k => c.val) = k := by
    rw [Finset.card_image_of_injective _ Fin.val_injective, Finset.card_univ, Fintype.card_fin]
  refine ⟨st'.label, hrun, ?_⟩
  rcases hpassed with ⟨hsame, hsweep⟩ | ⟨hraise, hsweep⟩
  · refine Or.inl ⟨?_, hsweep⟩
    rw [densify_k, hsame]
    exact hfresh
  · have hne : st'.label ≠ fun c => c.val := by
      intro heq
      rw [heq] at hraise
      exact lt_irrefl _ hraise
    obtain ⟨i, hlost⟩ := (lost_label hg' htotal' hpos heps hsums Fin.val_injective
      hreach).resolve_left hne
    obtain ⟨-, hrange, -⟩ := reaches_spec hg' htotal' hpos heps hsums hreach
    refine Or.inr ⟨?_, hsweep, ?_⟩
    · rw [densify_k]
      refine lt_of_lt_of_eq (Finset.card_lt_card ?_) hfresh
      refine (Finset.ssubset_iff_of_subset ?_).mpr ⟨i.val, ?_, ?_⟩
      · intro l hl
        obtain ⟨j, -, rfl⟩ := Finset.mem_image.mp hl
        obtain ⟨j', hj'⟩ := hrange ⟨j, rfl⟩
        exact Finset.mem_image.mpr ⟨j', Finset.mem_univ j', hj'⟩
      · exact Finset.mem_image_of_mem _ (Finset.mem_univ i)
      · intro hmem
        obtain ⟨j, -, hj⟩ := Finset.mem_image.mp hmem
        exact hlost ⟨j, hj⟩
    · have hbefore : (g.network hg).modularity resolution comm
          = (g.network hg).modularity resolution fun i => (comm i).val :=
        Network.modularity_congr fun _ _ => Fin.val_inj.symm
      rw [hbefore, modularity_aggregate hg comm fun c => c.val,
        modularity_aggregate hg comm (densify st'.label).comm, modularity_densify]
      exact add_lt_add_of_lt_of_le hraise (le_refl _)

/-- As many levels as communities are enough, and none loses modularity. -/
theorem levels_stop (hn : 0 < n) (fuel : ℕ) (d : Dense n) (hk : d.k ≤ fuel) : ∃ d',
    levels g twoM resolution eps fuel d = .ok (d', false)
    ∧ (g.network hg).modularity resolution d.comm
      ≤ (g.network hg).modularity resolution d'.comm := by
  induction fuel generalizing d with
  | zero =>
      have hlt := (d.comm ⟨0, hn⟩).isLt
      omega
  | succ fuel ih =>
      obtain ⟨slabel, hrun, hresult⟩ :=
        superMove_spec hg htotal hpos heps d.comm
      have hlevel : levels g twoM resolution eps (fuel + 1) d
          = if (densify slabel).k = d.k then .ok (d, false)
            else levels g twoM resolution eps fuel
              { k := (densify slabel).k, comm := fun i => (densify slabel).comm (d.comm i) } := by
        rw [levels, hrun]
        rfl
      rw [hlevel]
      rcases hresult with ⟨hsame, -⟩ | ⟨hless, -, hraise⟩
      · exact ⟨d, if_pos hsame, le_refl _⟩
      · rw [if_neg hless.ne]
        obtain ⟨d', hrest, hle⟩ := ih
          { k := (densify slabel).k, comm := fun i => (densify slabel).comm (d.comm i) }
          (by dsimp only; omega)
        exact ⟨d', hrest, hraise.le.trans hle⟩

end Levels

/-! ### The whole optimisation -/

/-- A local-moving pass from any seed comes to an end; whichever nodes are visited on the way,
`sum_tot` stays the total degree of each community, every visit succeeds, and it moves its
node only when that raises the modularity. -/
structure PassTerminates (g : Graph n) (hg : g.Valid) (twoM resolution eps : ℚ) : Prop where
  stops : ∀ seed, ∃ st, moveLoop g twoM resolution eps (n ^ n) (startMoves g seed) = .ok (st, false)
    ∧ Reaches g twoM resolution eps (startMoves g seed) st
    ∧ localMove g twoM resolution eps seed = .ok st.label
  visits : ∀ seed st, Reaches g twoM resolution eps (startMoves g seed) st →
    (∀ c, (st.sumTot c).getD 0 = totOf g st.label c) ∧
    ∀ i, ∃ st' moved, visit g twoM resolution eps st i = .ok (st', moved) ∧
      if moved then (g.network hg).modularity resolution st.label
          < (g.network hg).modularity resolution st'.label
      else st'.label = st.label

/-- Louvain over a graph: its passes terminate, over the graph and over every aggregated one;
aggregation keeps the modularity up to a constant; the number of communities tells whether a
super-node moved; the levels come to an end within `n`, with no less modularity than the
seed had. -/
structure LouvainTerminates (g : Graph n) (hg : g.Valid) (twoM resolution eps : ℚ) : Prop where
  pass : PassTerminates g hg twoM resolution eps
  superPass : ∀ {k} (comm : Fin n → Fin k),
    PassTerminates (aggregate g comm) (valid_aggregate g comm) twoM resolution eps
  merged : ∀ {k} (comm : Fin n → Fin k), ∃ c, ∀ label : Fin k → ℕ,
    (g.network hg).modularity resolution (fun i => label (comm i))
      = ((aggregate g comm).network (valid_aggregate g comm)).modularity resolution label + c
  unmoved : ∀ {k} (comm : Fin n → Fin k), ∃ slabel,
    localMove (aggregate g comm) twoM resolution eps (fun c => c.val) = .ok slabel ∧
    ((densify slabel).k = k ↔ ∃ st, sweep (aggregate g comm) twoM resolution eps
      (startMoves (aggregate g comm) fun c => c.val) = .ok (st, false))
  stops : ∀ seed, ∃ label d, localMove g twoM resolution eps seed = .ok label ∧
    levels g twoM resolution eps n (densify label) = .ok (d, false) ∧
    louvainFull g twoM resolution eps seed = .ok (fun i => (d.comm i).val) ∧
    (g.network hg).modularity resolution seed
      ≤ (g.network hg).modularity resolution (fun i => (d.comm i).val)

theorem pass_terminates {g : Graph n} (hg : g.Valid) {twoM resolution eps : ℚ}
    (htotal : twoM = (g.network hg).total) (hpos : 0 < twoM) (heps : 0 ≤ eps) :
    PassTerminates g hg twoM resolution eps where
  stops seed := by
    obtain ⟨st, hrun, hreach, -⟩ := moveLoop_stops hg htotal hpos heps seed
    refine ⟨st, hrun, hreach, ?_⟩
    rw [localMove, hrun]
    rfl
  visits seed st hreach := by
    obtain ⟨hsums, -, -⟩ := reaches_spec hg htotal hpos heps (sums_start g seed) hreach
    refine ⟨hsums.eq, fun i => ?_⟩
    obtain ⟨st', c, hvisit, hlabel, -, -, hraise⟩ := visit_spec hg htotal hpos heps hsums i
    refine ⟨st', _, hvisit, ?_⟩
    by_cases hc : c = st.label i
    · simp [hc, hlabel]
    · simpa [hc] using hraise hc

/-- Louvain terminates and never loses modularity, over every weighted graph. -/
theorem louvain_terminates (g : Graph n) (hg : g.Valid) (hpos : 0 < ∑ i, g.deg i)
    (resolution : ℚ) {eps : ℚ} (heps : 0 < eps) :
    LouvainTerminates g hg (∑ i, g.deg i) resolution eps := by
  have htotal : ∑ i, g.deg i = (g.network hg).total := rfl
  have hn : 0 < n := by
    rcases Nat.eq_zero_or_pos n with rfl | hn
    · simp at hpos
    · exact hn
  refine ⟨pass_terminates hg htotal hpos heps.le, fun comm => ?_, fun comm => ?_, fun comm => ?_,
    fun seed => ?_⟩
  · exact pass_terminates _ (by rw [total_aggregate hg, htotal]) hpos heps.le
  · exact ⟨_, fun label => modularity_aggregate hg comm label⟩
  · obtain ⟨slabel, hrun, hresult⟩ := superMove_spec hg htotal hpos heps.le comm
    refine ⟨slabel, hrun, ?_⟩
    rcases hresult with ⟨hsame, hsweep⟩ | ⟨hless, ⟨st₁, hsweep⟩, -⟩
    · exact ⟨fun _ => hsweep, fun _ => hsame⟩
    · refine ⟨fun hsame => absurd hsame hless.ne, ?_⟩
      rintro ⟨st, hsweep'⟩
      rw [hsweep] at hsweep'
      cases hsweep'
  · obtain ⟨st, hrun, hreach, -⟩ := localMove_spec hg htotal hpos heps.le seed
    obtain ⟨-, -, hraise⟩ := reaches_spec hg htotal hpos heps.le (sums_start g seed) hreach
    obtain ⟨d, hlevels, hle⟩ := levels_stop hg htotal hpos heps.le hn n (densify st.label)
      (densify_k_le st.label)
    refine ⟨st.label, d, hrun, hlevels, ?_, ?_⟩
    · rw [louvainFull, hrun]
      show (levels g _ resolution eps n (densify st.label) >>= _) = _
      rw [hlevels]
      rfl
    · have hval : (g.network hg).modularity resolution (fun i => (d.comm i).val)
          = (g.network hg).modularity resolution d.comm :=
        Network.modularity_congr fun _ _ => Fin.val_inj
      rw [modularity_densify] at hle
      rw [hval]
      rcases hraise with hsame | hraise
      · rwa [hsame] at hle
      · exact hraise.le.trans hle

/-- Three nodes in a row. -/
def pathGraph : Graph 3 where
  adj := ![[(1, 1)], [(0, 1), (2, 1)], [(1, 1)]]
  deg := ![1, 2, 1]

theorem pathGraph_valid : pathGraph.Valid where
  symm := by decide +kernel
  loopless u w h := by fin_cases u <;> simp [pathGraph] at h

theorem louvain_terminates_path :
    LouvainTerminates pathGraph pathGraph_valid (∑ i, pathGraph.deg i) 1 (1 / 10 ^ 12) :=
  louvain_terminates pathGraph pathGraph_valid (by decide +kernel) 1 (by norm_num)

end Filigrio.Cluster
