import Filigrio.Resolve.Stabilize

/-!
# Filigrio.Resolve.Inherit

What `stabilize` guarantees about the ids it hands out. The claiming loop is a choice in
turn: a group takes the best id that no group before it has taken. `Claimed` says so for
the groups that had their turn; one turn keeps it (`Claimed.claim`), and the loop ends
with all groups having had theirs (`claimed_claims`).
-/

namespace Filigrio.Cluster

variable {n : ℕ} {nodes : Fin n → Node} {groups : List (List (Fin n))} {prior : Partition}

/-! ### Overlaps -/

/-- How many members of a group the prior community has. -/
def overlap (nodes : Fin n → Node) (groups : List (List (Fin n))) (prior : Partition)
    (g : Fin groups.length) (cid : ℕ) : ℕ :=
  (members groups g).countP fun i => priorOf nodes prior i = some cid

theorem count_filterMap {l : List (Fin n)} {f : Fin n → Option ℕ} {c : ℕ} :
    (l.filterMap f).count c = l.countP fun i => f i = some c := by
  induction l with
  | nil => rfl
  | cons i l ih =>
      rw [List.countP_cons, List.filterMap_cons]
      cases hi : f i with
      | none => simp [ih]
      | some a =>
          rw [List.count_cons, ih]
          simp

/-- The tally has the positive overlaps. -/
theorem mem_overlaps {g : Fin groups.length} {cid c : ℕ} :
    (cid, c) ∈ (overlaps nodes groups prior g).toList
      ↔ c = overlap nodes groups prior g cid ∧ 0 < c := by
  rw [BTreeMap.mem_toList, overlaps, BTreeMap.get_addAll, BTreeMap.sumAt_ones, count_filterMap]
  have hmem : cid ∈ (((members groups g).filterMap (priorOf nodes prior)).map
      fun cid => (cid, 1)).map Prod.fst ↔ 0 < overlap nodes groups prior g cid := by
    rw [overlap, ← count_filterMap, List.count_pos_iff, List.map_map]
    simp
  simp only [hmem]
  split
  · rename_i hpos
    simp only [Std.ExtTreeMap.getElem?_empty, Option.getD_none, Nat.zero_add, Option.some.injEq]
    constructor
    · rintro rfl
      exact ⟨rfl, hpos⟩
    · rintro ⟨rfl, -⟩
      rfl
  · rename_i hzero
    simp only [Std.ExtTreeMap.getElem?_empty, reduceCtorEq, false_iff]
    rintro ⟨rfl, hpos⟩
    exact hzero hpos

theorem foldl_keepBetter (l : List (ℕ × ℕ)) (b : ℕ × ℕ) : ∃ m,
    l.foldl keepBetter (some b) = some m ∧ m ∈ b :: l ∧ ∀ x ∈ b :: l, ¬ Better x m := by
  induction l generalizing b with
  | nil => exact ⟨b, rfl, by simp, by simp [Better]⟩
  | cons a l ih =>
      rw [List.foldl_cons, keepBetter]
      by_cases hba : Better b a
      · rw [if_pos hba]
        obtain ⟨m, hm, hmem, hbest⟩ := ih b
        refine ⟨m, hm, ?_, fun x hx => ?_⟩
        · simp only [List.mem_cons] at hmem ⊢
          tauto
        · have hb := hbest b List.mem_cons_self
          simp only [List.mem_cons] at hx
          rcases hx with rfl | rfl | hx
          · exact hb
          · unfold Better at hba hb ⊢
            omega
          · exact hbest x (List.mem_cons_of_mem b hx)
      · rw [if_neg hba]
        obtain ⟨m, hm, hmem, hbest⟩ := ih a
        refine ⟨m, hm, List.mem_cons_of_mem b hmem, fun x hx => ?_⟩
        have ha := hbest a List.mem_cons_self
        rcases List.mem_cons.mp hx with rfl | hx
        · unfold Better at hba ha ⊢
          omega
        · exact hbest x hx

/-- The pick is the best overlap that is not taken. -/
theorem pick_eq_some {g : Fin groups.length} {taken : Finset ℕ} {cid : ℕ}
    (h : pick (overlaps nodes groups prior g) taken = some cid) :
    cid ∉ taken ∧ 0 < overlap nodes groups prior g cid
    ∧ ∀ cid', cid' ∉ taken →
        overlap nodes groups prior g cid' ≤ overlap nodes groups prior g cid := by
  rw [pick, Option.map_eq_some_iff] at h
  obtain ⟨best, hbest, rfl⟩ := h
  obtain ⟨hfold, hpos⟩ := Option.filter_eq_some_iff.mp hbest
  cases hfree : (overlaps nodes groups prior g).toList.filter fun p => p.1 ∉ taken with
  | nil =>
      rw [hfree] at hfold
      cases hfold
  | cons b l =>
      obtain ⟨m, hm, hmem, hmax⟩ := foldl_keepBetter l b
      rw [hfree, List.foldl_cons, keepBetter, hm] at hfold
      cases hfold
      rw [← hfree] at hmem hmax
      obtain ⟨hin, hnew⟩ := List.mem_filter.mp hmem
      obtain ⟨hcount, -⟩ := mem_overlaps.mp hin
      refine ⟨by simpa using hnew, by rw [← hcount]; simpa using hpos, fun cid' hcid' => ?_⟩
      rcases Nat.eq_zero_or_pos (overlap nodes groups prior g cid') with hzero | hpos'
      · omega
      · have hin' := mem_overlaps.mpr ⟨rfl, hpos'⟩
        have hworse := hmax _ (List.mem_filter.mpr ⟨hin', by simpa using hcid'⟩)
        unfold Better at hworse
        dsimp only at hworse
        omega

/-- Without a pick, every prior community with members in the group is taken. -/
theorem pick_eq_none {g : Fin groups.length} {taken : Finset ℕ}
    (h : pick (overlaps nodes groups prior g) taken = none) {cid : ℕ}
    (hpos : 0 < overlap nodes groups prior g cid) : cid ∈ taken := by
  by_contra hnew
  have hin : (cid, overlap nodes groups prior g cid)
      ∈ (overlaps nodes groups prior g).toList.filter fun p => p.1 ∉ taken :=
    List.mem_filter.mpr ⟨mem_overlaps.mpr ⟨rfl, hpos⟩, by simpa using hnew⟩
  cases hfree : (overlaps nodes groups prior g).toList.filter fun p => p.1 ∉ taken with
  | nil =>
      rw [hfree] at hin
      cases hin
  | cons b l =>
      obtain ⟨m, hm, hmem, -⟩ := foldl_keepBetter l b
      rw [← hfree] at hmem
      have hcount := (mem_overlaps.mp (List.mem_filter.mp hmem).1).2
      rw [pick, hfree, List.foldl_cons, keepBetter, hm] at h
      simp [Option.filter, hcount] at h

/-! ### The claiming loop -/

/-- The groups in `done` had their turn: they hold different ids they overlap, and whatever
a group would rather have is held by one that claimed before it. -/
structure Claimed (nodes : Fin n → Node) (groups : List (List (Fin n))) (prior : Partition)
    (done : List (Fin groups.length)) (st : Claims groups.length) : Prop where
  had_turn : ∀ g cid, st.assigned g = some cid → g ∈ done
  taken : ∀ cid, cid ∈ st.taken ↔ ∃ g, st.assigned g = some cid
  inj : ∀ g h cid, st.assigned g = some cid → st.assigned h = some cid → g = h
  pos : ∀ g cid, st.assigned g = some cid → 0 < overlap nodes groups prior g cid
  best : ∀ g cid cid', st.assigned g = some cid →
    overlap nodes groups prior g cid < overlap nodes groups prior g cid' →
    ∃ f, st.assigned f = some cid' ∧ ClaimsFirst nodes groups prior f g
  left : ∀ g ∈ done, st.assigned g = none → ∀ cid, 0 < overlap nodes groups prior g cid →
    ∃ f, st.assigned f = some cid ∧ ClaimsFirst nodes groups prior f g

theorem Claimed.start :
    Claimed nodes groups prior [] { assigned := fun _ => none, taken := ∅ } := by
  constructor <;> simp

/-- One turn. -/
theorem Claimed.claim {done : List (Fin groups.length)} {st : Claims groups.length}
    {g : Fin groups.length} (h : Claimed nodes groups prior done st) (hg : g ∉ done)
    (hfirst : ∀ f ∈ done, ClaimsFirst nodes groups prior f g) :
    Claimed nodes groups prior (done ++ [g]) (claim nodes groups prior st g) := by
  have hnone : st.assigned g = none := by
    cases hget : st.assigned g with
    | none => rfl
    | some cid => exact absurd (h.had_turn g cid hget) hg
  have hholder : ∀ cid ∈ st.taken,
      ∃ f, st.assigned f = some cid ∧ ClaimsFirst nodes groups prior f g := by
    intro cid hcid
    obtain ⟨f, hf⟩ := (h.taken cid).mp hcid
    exact ⟨f, hf, hfirst f (h.had_turn f cid hf)⟩
  rw [Cluster.claim]
  cases hpick : pick (overlaps nodes groups prior g) st.taken with
  | none =>
      refine ⟨?_, h.taken, h.inj, h.pos, h.best, ?_⟩
      · intro f cid hf
        exact List.mem_append_left _ (h.had_turn f cid hf)
      · intro f hf hfnone cid hpos
        rcases List.mem_append.mp hf with hf | hf
        · exact h.left f hf hfnone cid hpos
        · obtain rfl := List.mem_singleton.mp hf
          exact hholder cid (pick_eq_none hpick hpos)
  | some new =>
      obtain ⟨hnew, hpos, hmax⟩ := pick_eq_some hpick
      have hkeep : ∀ f cid, st.assigned f = some cid →
          Function.update st.assigned g (some new) f = some cid := by
        intro f cid hf
        rw [Function.update_of_ne, hf]
        rintro rfl
        rw [hnone] at hf
        cases hf
      have hcases : ∀ f cid, Function.update st.assigned g (some new) f = some cid →
          (f = g ∧ cid = new) ∨ st.assigned f = some cid := by
        intro f cid hf
        by_cases hfg : f = g
        · subst hfg
          rw [Function.update_self] at hf
          cases hf
          exact Or.inl ⟨rfl, rfl⟩
        · rw [Function.update_of_ne hfg] at hf
          exact Or.inr hf
      have hself : Function.update st.assigned g (some new) g = some new :=
        Function.update_self ..
      refine ⟨?_, ?_, ?_, ?_, ?_, ?_⟩
      · intro f cid hf
        rcases hcases f cid hf with ⟨rfl, -⟩ | hf
        · simp
        · exact List.mem_append_left _ (h.had_turn f cid hf)
      · intro cid
        dsimp only
        rw [Finset.mem_insert, h.taken]
        constructor
        · rintro (rfl | ⟨f, hf⟩)
          · exact ⟨g, hself⟩
          · exact ⟨f, hkeep f cid hf⟩
        · rintro ⟨f, hf⟩
          rcases hcases f cid hf with ⟨-, rfl⟩ | hf
          · exact Or.inl rfl
          · exact Or.inr ⟨f, hf⟩
      · intro f f' cid hf hf'
        rcases hcases f cid hf with ⟨rfl, rfl⟩ | hold
        · rcases hcases f' cid hf' with ⟨rfl, -⟩ | hold'
          · rfl
          · exact absurd ((h.taken cid).mpr ⟨f', hold'⟩) hnew
        · rcases hcases f' cid hf' with ⟨rfl, rfl⟩ | hold'
          · exact absurd ((h.taken cid).mpr ⟨f, hold⟩) hnew
          · exact h.inj f f' cid hold hold'
      · intro f cid hf
        rcases hcases f cid hf with ⟨rfl, rfl⟩ | hf
        · exact hpos
        · exact h.pos f cid hf
      · intro f cid cid' hf hlt
        rcases hcases f cid hf with ⟨rfl, rfl⟩ | hf
        · have htaken : cid' ∈ st.taken := by
            by_contra hfree
            have hle := hmax cid' hfree
            omega
          obtain ⟨f', hf', hfirst'⟩ := hholder cid' htaken
          exact ⟨f', hkeep f' cid' hf', hfirst'⟩
        · obtain ⟨f', hf', hfirst'⟩ := h.best f cid cid' hf hlt
          exact ⟨f', hkeep f' cid' hf', hfirst'⟩
      · intro f hf hfnone cid hcid
        dsimp only at hfnone
        have hfg : f ≠ g := by
          rintro rfl
          rw [hself] at hfnone
          cases hfnone
        have hdone : f ∈ done := by
          rcases List.mem_append.mp hf with hf | hf
          · exact hf
          · exact absurd (List.mem_singleton.mp hf) hfg
        rw [Function.update_of_ne hfg] at hfnone
        obtain ⟨f', hf', hfirst'⟩ := h.left f hdone hfnone cid hcid
        exact ⟨f', hkeep f' cid hf', hfirst'⟩

theorem Claimed.foldl {done todo : List (Fin groups.length)} {st : Claims groups.length}
    (h : Claimed nodes groups prior done st) (hnodup : (done ++ todo).Nodup)
    (hsorted : (done ++ todo).Pairwise (ClaimsFirst nodes groups prior)) :
    Claimed nodes groups prior (done ++ todo) (todo.foldl (Cluster.claim nodes groups prior) st) := by
  induction todo generalizing done st with
  | nil => simpa using h
  | cons g todo ih =>
      have hsplit : done ++ g :: todo = (done ++ [g]) ++ todo := by simp
      have hg : g ∉ done := fun hmem =>
        (List.nodup_append.mp hnodup).2.2 g hmem g List.mem_cons_self rfl
      have hfirst : ∀ f ∈ done, ClaimsFirst nodes groups prior f g := fun f hf =>
        (List.pairwise_append.mp hsorted).2.2 f hf g List.mem_cons_self
      rw [hsplit] at hnodup hsorted ⊢
      rw [List.foldl_cons]
      exact ih (h.claim hg hfirst) hnodup hsorted

theorem claimOrder_pairwise :
    (claimOrder nodes groups prior).Pairwise (ClaimsFirst nodes groups prior) := by
  have htotal : Std.Total (ClaimsFirst nodes groups prior) := by
    constructor
    intro x y
    unfold ClaimsFirst
    omega
  have htrans : IsTrans _ (ClaimsFirst nodes groups prior) := by
    constructor
    intro x y z hxy hyz
    unfold ClaimsFirst at hxy hyz ⊢
    omega
  exact List.pairwise_insertionSort _ _

/-- In the end every group had its turn. -/
theorem claimed_claims : Claimed nodes groups prior (claimOrder nodes groups prior)
    (claims nodes groups prior) := by
  have hnodup : (claimOrder nodes groups prior).Nodup :=
    (List.perm_insertionSort _ _).nodup_iff.mpr (List.nodup_finRange _)
  have hstart : Claimed nodes groups prior [] { assigned := fun _ => none, taken := ∅ } :=
    Claimed.start
  exact hstart.foldl hnodup claimOrder_pairwise

theorem skipUsed_notMem (used : Finset ℕ) (counter : ℕ) :
    skipUsed used used.card counter ∉ used := by
  have hstep : ∀ fuel counter, skipUsed used fuel counter ∈ used →
      fuel < (used.filter fun c => counter ≤ c).card := by
    intro fuel
    induction fuel with
    | zero =>
        intro counter hmem
        exact Finset.card_pos.mpr ⟨counter, Finset.mem_filter.mpr ⟨hmem, le_refl counter⟩⟩
    | succ fuel ih =>
        intro counter hmem
        rw [skipUsed] at hmem
        split at hmem
        · rename_i hused
          have hlt := ih (counter + 1) hmem
          have hsub : used.filter (fun c => counter + 1 ≤ c)
              ⊆ (used.filter fun c => counter ≤ c).erase counter := by
            intro c hc
            simp only [Finset.mem_filter, Finset.mem_erase] at hc ⊢
            exact ⟨by omega, hc.1, by omega⟩
          have hin : counter ∈ used.filter fun c => counter ≤ c :=
            Finset.mem_filter.mpr ⟨hused, le_refl counter⟩
          have hcard := Finset.card_le_card hsub
          rw [Finset.card_erase_of_mem hin] at hcard
          have hpos := Finset.card_pos.mpr ⟨counter, hin⟩
          omega
        · rename_i hfree
          exact absurd hmem hfree
  intro hmem
  have hlt := hstep _ counter hmem
  have hle := Finset.card_filter_le used fun c => counter ≤ c
  omega

/-- Filling the slots gives every group an id: its own, or one that is not in use. -/
theorem fillSlots_spec (slots : List (Option ℕ)) (used : Finset ℕ) (counter : ℕ) :
    ∃ ids : List ℕ, fillSlots slots used counter = ids.map some ∧ ids.length = slots.length
      ∧ (∀ c ∈ ids, some c ∈ slots ∨ c ∉ used)
      ∧ (∀ (i : ℕ) c, slots[i]? = some (some c) → ids[i]? = some c)
      ∧ (∀ i : ℕ, slots[i]? = some none → ∃ c, ids[i]? = some c ∧ c ∉ used)
      ∧ ((∀ c, some c ∈ slots → c ∈ used) → (slots.filterMap id).Nodup → ids.Nodup) := by
  induction slots generalizing used counter with
  | nil => exact ⟨[], rfl, rfl, by simp, by simp, by simp, by simp⟩
  | cons slot slots ih =>
      cases slot with
      | some a =>
          obtain ⟨ids, hfill, hlen, hmem, hsome, hnone, hnodup⟩ := ih used counter
          refine ⟨a :: ids, by rw [fillSlots, hfill]; rfl, by simp [hlen], ?_, ?_, ?_, ?_⟩
          · intro c hc
            rcases List.mem_cons.mp hc with rfl | hc
            · exact Or.inl List.mem_cons_self
            · exact (hmem c hc).imp (List.mem_cons_of_mem _) id
          · intro i c hi
            cases i with
            | zero => simpa using hi
            | succ i => simpa using hsome i c (by simpa using hi)
          · intro i hi
            cases i with
            | zero => simp at hi
            | succ i => simpa using hnone i (by simpa using hi)
          · intro hused hdistinct
            simp only [List.filterMap_cons, id_eq, List.nodup_cons] at hdistinct
            refine List.nodup_cons.mpr ⟨fun ha => ?_, hnodup ?_ hdistinct.2⟩
            · rcases hmem a ha with hin | hout
              · exact hdistinct.1 (List.mem_filterMap.mpr ⟨_, hin, rfl⟩)
              · exact hout (hused a List.mem_cons_self)
            · intro c hc
              exact hused c (List.mem_cons_of_mem _ hc)
      | none =>
          have hfresh := skipUsed_notMem used counter
          generalize hf : skipUsed used used.card counter = fresh at hfresh
          obtain ⟨ids, hfill, hlen, hmem, hsome, hnone, hnodup⟩ := ih (insert fresh used) fresh
          have hout : ∀ c, c ∉ insert fresh used → c ∉ used := fun c hc hin =>
            hc (Finset.mem_insert_of_mem hin)
          refine ⟨fresh :: ids, by rw [fillSlots, hf, hfill]; rfl, by simp [hlen], ?_, ?_, ?_, ?_⟩
          · intro c hc
            rcases List.mem_cons.mp hc with rfl | hc
            · exact Or.inr hfresh
            · exact (hmem c hc).imp (List.mem_cons_of_mem _) (hout c)
          · intro i c hi
            cases i with
            | zero => simp at hi
            | succ i => simpa using hsome i c (by simpa using hi)
          · intro i hi
            cases i with
            | zero => exact ⟨fresh, rfl, hfresh⟩
            | succ i =>
                obtain ⟨c, hc, hnew⟩ := hnone i (by simpa using hi)
                exact ⟨c, by simpa using hc, hout c hnew⟩
          · intro hused hdistinct
            simp only [List.filterMap_cons, id_eq] at hdistinct
            refine List.nodup_cons.mpr ⟨fun ha => ?_, hnodup ?_ hdistinct⟩
            · rcases hmem fresh ha with hin | hnew
              · exact hfresh (hused fresh (List.mem_cons_of_mem _ hin))
              · exact hnew (Finset.mem_insert_self fresh used)
            · intro c hc
              exact Finset.mem_insert_of_mem (hused c (List.mem_cons_of_mem _ hc))

/-- Which prior id a group keeps, if any. -/
def kept (nodes : Fin n → Node) (groups : List (List (Fin n))) (prior : Partition)
    (g : Fin groups.length) : Option ℕ := (claims nodes groups prior).assigned g

/-- The id a group ends with. -/
def idOf (nodes : Fin n → Node) (groups : List (List (Fin n))) (prior : Partition)
    (g : Fin groups.length) : ℕ := ((assigned nodes groups prior)[g.val]?.join).getD 0

/-- Every group ends with an id of its own: the prior one it keeps, or one nobody keeps. -/
theorem idOf_spec :
    (∀ g, (assigned nodes groups prior)[g.val]?.join = some (idOf nodes groups prior g))
    ∧ Function.Injective (idOf nodes groups prior)
    ∧ (∀ g cid, kept nodes groups prior g = some cid → idOf nodes groups prior g = cid)
    ∧ ∀ g, kept nodes groups prior g = none →
        ∀ h, kept nodes groups prior h ≠ some (idOf nodes groups prior g) := by
  have hclaimed : Claimed nodes groups prior (claimOrder nodes groups prior)
      (claims nodes groups prior) := claimed_claims
  obtain ⟨ids, hfill, hlen, hmem, hsome, hnone, hnodup⟩ := fillSlots_spec
    ((List.finRange groups.length).map (kept nodes groups prior))
    (claims nodes groups prior).taken 0
  have hassigned : assigned nodes groups prior = ids.map some := hfill
  rw [List.length_map, List.length_finRange] at hlen
  have hget : ∀ g : Fin groups.length, ids[g.val]? = some (idOf nodes groups prior g) := by
    intro g
    have hin : g.val < ids.length := by
      rw [hlen]
      exact g.isLt
    rw [idOf, hassigned, List.getElem?_map, List.getElem?_eq_getElem hin]
    rfl
  have hslot : ∀ g : Fin groups.length,
      ((List.finRange groups.length).map (kept nodes groups prior))[g.val]?
        = some (kept nodes groups prior g) := by
    intro g
    simp
  refine ⟨fun g => ?_, fun g h heq => ?_, fun g cid hkept => ?_, fun g hfresh h hkept => ?_⟩
  · rw [hassigned, List.getElem?_map, hget]
    rfl
  · have hdistinct : ids.Nodup := by
      refine hnodup ?_ ?_
      · intro c hc
        obtain ⟨g, -, hg⟩ := List.mem_map.mp hc
        exact (hclaimed.taken c).mpr ⟨g, hg⟩
      · rw [List.filterMap_map]
        refine List.Nodup.filterMap ?_ (List.nodup_finRange _)
        intro g h c hg hh
        exact hclaimed.inj g h c hg hh
    have hg := hget g
    rw [heq, ← hget h] at hg
    have hin : g.val < ids.length := by
      rw [hlen]
      exact g.isLt
    exact Fin.ext ((List.getElem?_inj hin hdistinct).mp hg)
  · have hg := hsome g.val cid (by rw [hslot, hkept])
    rw [hget] at hg
    exact Option.some.inj hg
  · obtain ⟨c, hc, hnew⟩ := hnone g.val (by rw [hslot, hfresh])
    rw [hget] at hc
    cases hc
    exact hnew ((hclaimed.taken _).mpr ⟨h, hkept⟩)

/-! ### The partition -/

/-- The pairs that enter the node table. -/
def nodeRows (nodes : Fin n → Node) (groups : List (List (Fin n))) (prior : Partition)
    (gs : List (Fin groups.length)) : List (NodeId × ℕ) :=
  gs.flatMap fun g => (members groups g).map fun i => ((nodes i).id, idOf nodes groups prior g)

/-- The pairs that enter the community table. -/
def communityRows (nodes : Fin n → Node) (groups : List (List (Fin n))) (prior : Partition)
    (cohesion : Fin groups.length → ℕ) (gs : List (Fin groups.length)) :
    List (ℕ × CommunityMeta) :=
  gs.map fun g => (idOf nodes groups prior g,
    metaOf groups prior cohesion (idOf nodes groups prior g) g)

/-- The tables `stabilize` makes. -/
def stabilized (nodes : Fin n → Node) (groups : List (List (Fin n))) (prior : Partition)
    (cohesion : Fin groups.length → ℕ) : Partition where
  nodeCommunity := BTreeMap.insertAll ∅ (nodeRows nodes groups prior (List.finRange _))
  communities := BTreeMap.insertAll ∅ (communityRows nodes groups prior cohesion (List.finRange _))

theorem get_communities (cohesion : Fin groups.length → ℕ) {c : ℕ} {m : CommunityMeta} :
    (stabilized nodes groups prior cohesion).communities[c]? = some m
      ↔ ∃ g, idOf nodes groups prior g = c ∧ metaOf groups prior cohesion c g = m := by
  have hnodup : ((communityRows nodes groups prior cohesion (List.finRange _)).map
      Prod.fst).Nodup := by
    rw [communityRows, List.map_map]
    exact (List.nodup_finRange _).map idOf_spec.2.1
  rw [stabilized, BTreeMap.get_insertAll_of_nodup hnodup, communityRows, List.mem_map]
  simp only [Prod.mk.injEq, List.mem_finRange, true_and]
  constructor
  · rintro ⟨g, rfl, rfl⟩
    exact ⟨g, rfl, rfl⟩
  · rintro ⟨g, rfl, rfl⟩
    exact ⟨g, rfl, rfl⟩

/-! ### Who inherits -/

end Filigrio.Cluster
