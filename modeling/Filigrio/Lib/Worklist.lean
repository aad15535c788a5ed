import Mathlib

/-!
# Worklists

A traversal of a directed multigraph that keeps the vertices to come, with their depths, in
one list: an entry is taken out, its vertex is visited unless it has been or the budget is
spent, and the targets of its edges are put in at the end. Taking out is a parameter: from
the front the traversal is breadth first, from the back depth first.

Whichever entry is taken, the traversal ends, visits only vertices within the depth
(`Sound`), and a smaller budget visits a first part of what a larger one does
(`visited_take`). From the front it visits all of them, nearest first (`Breadth`).
-/

namespace Worklist

/-- The vertices visited, in order; the entries to come; the edges met. -/
structure State (V E : Type*) where
  visited : List V
  queue : List (V × ℕ)
  edges : List E

variable {V E : Type*} [DecidableEq V]

section Run

variable (pop : List (V × ℕ) → Option ((V × ℕ) × List (V × ℕ))) (out : V → List E)
  (target : E → V) (depth budget : ℕ)

/-- The entry `(v, k)` has been taken out of the queue. -/
def visit (st : State V E) (v : V) (k : ℕ) : State V E :=
  if v ∈ st.visited ∨ budget ≤ st.visited.length then st
  else if depth ≤ k then { st with visited := st.visited ++ [v] }
  else
    { visited := st.visited ++ [v]
      queue := st.queue ++ (out v).map fun e => (target e, k + 1)
      edges := st.edges ++ out v }

/-- One turn of the loop, unless the queue is empty. -/
def step (st : State V E) : Option (State V E) :=
  match pop st.queue with
  | none => none
  | some ((v, k), rest) => some (visit out target depth budget { st with queue := rest } v k)

/-- At most `fuel` turns; answers whether it would go on. -/
def run : ℕ → State V E → State V E × Bool
  | 0, st => (st, true)
  | fuel + 1, st =>
    match step pop out target depth budget st with
    | none => (st, false)
    | some st' => run fuel st'

/-- The loop starts with the seeds in the queue. -/
def start (seeds : List V) : State V E :=
  { visited := [], queue := seeds.map fun s => (s, 0), edges := [] }

end Run

/-- `pop` takes one entry out, whenever there is one. -/
def Pops (pop : List (V × ℕ) → Option ((V × ℕ) × List (V × ℕ))) : Prop :=
  ∀ q, (pop q = none → q = []) ∧ ∀ x rest, pop q = some (x, rest) → q.Perm (x :: rest)

/-- The oldest entry. -/
def popFront : List (V × ℕ) → Option ((V × ℕ) × List (V × ℕ))
  | [] => none
  | x :: rest => some (x, rest)

/-- The newest entry. -/
def popBack (q : List (V × ℕ)) : Option ((V × ℕ) × List (V × ℕ)) :=
  q.getLast?.map fun x => (x, q.dropLast)

omit [DecidableEq V] in
theorem pops_front : Pops (V := V) popFront := by
  intro q
  cases q with
  | nil => simp [popFront]
  | cons x rest => simp [popFront]

omit [DecidableEq V] in
theorem pops_back : Pops (V := V) popBack := by
  intro q
  induction q using List.reverseRecOn with
  | nil => simp [popBack]
  | append_singleton q x _ =>
      refine ⟨by simp [popBack], fun y rest h => ?_⟩
      simp only [popBack, List.getLast?_concat, Option.map_some, List.dropLast_concat,
        Option.some.injEq, Prod.mk.injEq] at h
      obtain ⟨rfl, rfl⟩ := h
      exact List.perm_append_singleton x q

variable {pop : List (V × ℕ) → Option ((V × ℕ) × List (V × ℕ))} {out : V → List E}
  {target : E → V} {depth budget : ℕ} {st st' : State V E} {fuel : ℕ}

/-! ### One turn -/

/-- What a turn can do with the entry it took: pass over it, visit its vertex only, or visit
it and put the targets of its edges into the queue. -/
theorem step_cases (h : step pop out target depth budget st = some st') : ∃ v k rest,
    pop st.queue = some ((v, k), rest) ∧
    ((v ∈ st.visited ∨ budget ≤ st.visited.length) ∧ st' = { st with queue := rest }
      ∨ v ∉ st.visited ∧ st.visited.length < budget ∧ depth ≤ k
        ∧ st' = { st with queue := rest, visited := st.visited ++ [v] }
      ∨ v ∉ st.visited ∧ st.visited.length < budget ∧ k < depth ∧ st' =
        { visited := st.visited ++ [v]
          queue := rest ++ (out v).map fun e => (target e, k + 1)
          edges := st.edges ++ out v }) := by
  unfold step at h
  split at h
  · cases h
  · rename_i v k rest hpop
    refine ⟨v, k, rest, hpop, ?_⟩
    simp only [visit, Option.some.injEq] at h
    split at h
    · rename_i hskip
      exact Or.inl ⟨hskip, h.symm⟩
    · rename_i hskip
      rw [not_or, not_le] at hskip
      split at h
      · rename_i hdeep
        exact Or.inr (Or.inl ⟨hskip.1, hskip.2, hdeep, h.symm⟩)
      · rename_i hdeep
        exact Or.inr (Or.inr ⟨hskip.1, hskip.2, by omega, h.symm⟩)

theorem step_eq_none (hpop : Pops pop) (h : step pop out target depth budget st = none) :
    st.queue = [] := by
  unfold step at h
  split at h
  · rename_i hnone
    exact (hpop _).1 hnone
  · cases h

/-- What every turn keeps, a run keeps. -/
theorem run_keeps {P : State V E → Prop}
    (hstep : ∀ {st st'}, P st → step pop out target depth budget st = some st' → P st')
    (hst : P st) : P (run pop out target depth budget fuel st).1 := by
  induction fuel generalizing st with
  | zero => exact hst
  | succ fuel ih =>
      rw [run]
      cases hnext : step pop out target depth budget st with
      | none => exact hst
      | some st' => exact ih (hstep hst hnext)

theorem visited_step (h : step pop out target depth budget st = some st') :
    st.visited <+: st'.visited := by
  obtain ⟨v, k, rest, -, ⟨-, rfl⟩ | ⟨-, -, -, rfl⟩ | ⟨-, -, -, rfl⟩⟩ := step_cases h
  · exact List.prefix_rfl
  · exact List.prefix_append _ _
  · exact List.prefix_append _ _

theorem visited_run : st.visited <+: (run pop out target depth budget fuel st).1.visited :=
  run_keeps (P := fun st' => st.visited <+: st'.visited)
    (fun hpre hstep => hpre.trans (visited_step hstep)) List.prefix_rfl

/-- Nothing is visited once the budget is spent. -/
theorem visited_spent (h : budget ≤ st.visited.length) :
    (run pop out target depth budget fuel st).1.visited = st.visited := by
  refine run_keeps (P := fun st' => st'.visited = st.visited) (fun {st₁ st₂} heq hstep => ?_) rfl
  obtain ⟨v, k, rest, -, ⟨-, rfl⟩ | ⟨-, hlt, -⟩ | ⟨-, hlt, -⟩⟩ := step_cases hstep
  · exact heq
  · rw [heq] at hlt
    omega
  · rw [heq] at hlt
    omega

theorem edges_run : st.edges <+: (run pop out target depth budget fuel st).1.edges := by
  refine run_keeps (P := fun st' => st.edges <+: st'.edges) (fun {st₁ st₂} hpre hstep => ?_)
    List.prefix_rfl
  obtain ⟨v, k, rest, -, ⟨-, rfl⟩ | ⟨-, -, -, rfl⟩ | ⟨-, -, -, rfl⟩⟩ := step_cases hstep
  · exact hpre
  · exact hpre
  · exact hpre.trans (List.prefix_append _ _)

/-- The first vertex taken out is visited first, and its edges are met first. -/
theorem run_first {v : V} {rest : List (V × ℕ)} (hvisited : st.visited = [])
    (hedges : st.edges = []) (hpop : pop st.queue = some ((v, 0), rest)) (hbudget : 1 ≤ budget) :
    [v] <+: (run pop out target depth budget (fuel + 1) st).1.visited
    ∧ (0 < depth → out v <+: (run pop out target depth budget (fuel + 1) st).1.edges) := by
  obtain ⟨st', hstep⟩ : ∃ st', step pop out target depth budget st = some st' := by
    rw [step, hpop]
    exact ⟨_, rfl⟩
  obtain ⟨hfirst, hmet⟩ : st'.visited = [v] ∧ (0 < depth → st'.edges = out v) := by
    obtain ⟨w, k, rest', hpop', hcases⟩ := step_cases hstep
    rw [hpop] at hpop'
    cases hpop'
    rw [hvisited, hedges] at hcases
    obtain ⟨hskip | hspent, -⟩ | ⟨-, -, hdeep, rfl⟩ | ⟨-, -, -, rfl⟩ := hcases
    · cases hskip
    · rw [List.length_nil] at hspent
      omega
    · exact ⟨rfl, fun hpos => by omega⟩
    · exact ⟨rfl, fun _ => rfl⟩
  rw [run, hstep]
  refine ⟨?_, fun hpos => ?_⟩
  · rw [← hfirst]
    exact visited_run
  · rw [← hmet hpos]
    exact edges_run

/-! ### The end of the loop -/

section Stops

variable [Fintype V]

/-- The entries in the queue, and those that can still come. -/
def pending (out : V → List E) (st : State V E) : ℕ :=
  st.queue.length + ∑ v, if v ∈ st.visited then 0 else (out v).length

/-- Visiting a vertex uses up its edges. -/
theorem sum_unvisited {visited : List V} {v : V} (h : v ∉ visited) :
    (∑ u, if u ∈ visited ++ [v] then 0 else (out u).length) + (out v).length
      = ∑ u, if u ∈ visited then 0 else (out u).length := by
  rw [← Finset.sum_erase_add _ _ (Finset.mem_univ v),
    ← Finset.sum_erase_add (Finset.univ : Finset V)
      (fun u => if u ∈ visited then 0 else (out u).length) (Finset.mem_univ v)]
  rw [if_neg h, if_pos (by simp), add_zero]
  congr 1
  refine Finset.sum_congr rfl fun u hu => ?_
  simp [Finset.ne_of_mem_erase hu]

theorem pending_step (hpop : Pops pop) (h : step pop out target depth budget st = some st') :
    pending out st' < pending out st := by
  obtain ⟨v, k, rest, hnext, hcases⟩ := step_cases h
  have hlen : st.queue.length = rest.length + 1 := ((hpop _).2 _ _ hnext).length_eq
  obtain ⟨-, rfl⟩ | ⟨hnew, -, -, rfl⟩ | ⟨hnew, -, -, rfl⟩ := hcases
  · simp only [pending]
    omega
  · have hsum := @sum_unvisited V E _ out _ _ _ hnew
    simp only [pending]
    omega
  · have hsum := @sum_unvisited V E _ out _ _ _ hnew
    simp only [pending, List.length_append, List.length_map]
    omega

/-- The loop comes to an end by itself. -/
theorem run_stops (hpop : Pops pop) (hfuel : pending out st < fuel) :
    (run pop out target depth budget fuel st).2 = false
      ∧ (run pop out target depth budget fuel st).1.queue = [] := by
  induction fuel generalizing st with
  | zero => omega
  | succ fuel ih =>
      rw [run]
      cases hnext : step pop out target depth budget st with
      | none => exact ⟨rfl, step_eq_none hpop hnext⟩
      | some st' =>
          have hless := pending_step hpop hnext
          exact ih (by omega)

end Stops

/-! ### Two budgets -/

/-- Two budgets run alike until the smaller one is spent. -/
theorem run_eq_or {b : ℕ} (hb : b ≤ budget) :
    run pop out target depth b fuel st = run pop out target depth budget fuel st
    ∨ (b ≤ (run pop out target depth b fuel st).1.visited.length
      ∧ (run pop out target depth b fuel st).1.visited
        <+: (run pop out target depth budget fuel st).1.visited) := by
  induction fuel generalizing st with
  | zero => exact Or.inl rfl
  | succ fuel ih =>
      by_cases hspent : b ≤ st.visited.length
      · refine Or.inr ?_
        rw [visited_spent hspent]
        exact ⟨hspent, visited_run⟩
      · have hstep : step pop out target depth b st = step pop out target depth budget st := by
          have hleft : ¬ budget ≤ st.visited.length := by omega
          simp only [step, visit, hspent, hleft]
        rw [run, run, hstep]
        cases step pop out target depth budget st with
        | none => exact Or.inl rfl
        | some st' => exact ih

theorem length_visited (h : st.visited.length ≤ budget) :
    (run pop out target depth budget fuel st).1.visited.length ≤ budget := by
  refine run_keeps (P := fun st => st.visited.length ≤ budget) (fun {st₁ st₂} hle hstep => ?_) h
  obtain ⟨v, k, rest, -, ⟨-, rfl⟩ | ⟨-, hlt, -, rfl⟩ | ⟨-, hlt, -, rfl⟩⟩ := step_cases hstep
  · exact hle
  · simp only [List.length_append, List.length_singleton]
    omega
  · simp only [List.length_append, List.length_singleton]
    omega

/-- A smaller budget visits the first vertices that a larger one visits. -/
theorem visited_take {b : ℕ} (hb : b ≤ budget) (h : st.visited.length ≤ b) :
    (run pop out target depth b fuel st).1.visited
      = (run pop out target depth budget fuel st).1.visited.take b := by
  have hlen : (run pop out target depth b fuel st).1.visited.length ≤ b := length_visited h
  have hruns := @run_eq_or V E _ pop out target depth budget st fuel b hb
  rcases hruns with heq | ⟨hspent, hpre⟩
  · rw [← heq, List.take_of_length_le hlen]
  · rw [List.prefix_iff_eq_take.mp hpre]
    congr 1
    omega

/-! ### What is reached -/

section Reach

variable (out target) (seeds : List V)

/-- `Walk k v`: some walk of `k` edges from a seed ends at `v`. -/
inductive Walk : ℕ → V → Prop
  | seed {s : V} : s ∈ seeds → Walk 0 s
  | step {k : ℕ} {u : V} {e : E} : Walk k u → e ∈ out u → Walk (k + 1) (target e)

/-- At most `depth` edges away from a seed. -/
def Near (depth : ℕ) (v : V) : Prop := ∃ k ≤ depth, Walk out target seeds k v

/-- The distance from the seeds. -/
noncomputable def dist (v : V) : ℕ := sInf {k | Walk out target seeds k v}

variable {out target seeds} {k : ℕ} {v : V}

omit [DecidableEq V] in
theorem walk_dist (h : Walk out target seeds k v) :
    Walk out target seeds (dist out target seeds v) v :=
  Nat.sInf_mem (s := {k | Walk out target seeds k v}) ⟨k, h⟩

omit [DecidableEq V] in
theorem dist_le (h : Walk out target seeds k v) : dist out target seeds v ≤ k := Nat.sInf_le h

variable (out target depth seeds) in
/-- What holds whichever entries are taken out: only near vertices are visited, each once;
an edge that was met leaves a visited vertex, and its target is near, and visited or still
in the queue unless the budget is spent. -/
structure Sound (budget : ℕ) (st : State V E) : Prop where
  nodup : st.visited.Nodup
  queue : ∀ x ∈ st.queue, x.2 ≤ depth ∧ Walk out target seeds x.2 x.1
  visited : ∀ v ∈ st.visited, Near out target seeds depth v
  edges : ∀ e ∈ st.edges, (∃ u ∈ st.visited, e ∈ out u) ∧ Near out target seeds depth (target e)
    ∧ (target e ∈ st.visited ∨ (∃ k, (target e, k) ∈ st.queue) ∨ budget ≤ st.visited.length)

omit [DecidableEq V] in
theorem sound_start : Sound out target depth seeds budget (start seeds) where
  nodup := List.nodup_nil
  queue x hx := by
    obtain ⟨s, hs, rfl⟩ := List.mem_map.mp hx
    exact ⟨Nat.zero_le _, .seed hs⟩
  visited v hv := by cases hv
  edges e he := by cases he

omit [DecidableEq V] in
/-- Where the targets of the edges met are, after the entry of `v` was taken out. -/
theorem Sound.edges_step {e : E} {rest : List (V × ℕ)} {visited : List V}
    (h : Sound out target depth seeds budget st) (he : e ∈ st.edges)
    (hqueue : st.queue.Perm ((v, k) :: rest)) (hsub : st.visited ⊆ visited)
    (hlen : st.visited.length ≤ visited.length) (hv : v ∈ visited ∨ budget ≤ visited.length) :
    (∃ u ∈ visited, e ∈ out u) ∧ Near out target seeds depth (target e)
    ∧ (target e ∈ visited ∨ (∃ k, (target e, k) ∈ rest) ∨ budget ≤ visited.length) := by
  obtain ⟨⟨u, hu, hout⟩, hnear, hwhere⟩ := h.edges e he
  refine ⟨⟨u, hsub hu, hout⟩, hnear, ?_⟩
  rcases hwhere with hin | ⟨k', hin⟩ | hspent
  · exact Or.inl (hsub hin)
  · rcases List.mem_cons.mp (hqueue.mem_iff.mp hin) with heq | hin
    · cases heq
      exact hv.imp id Or.inr
    · exact Or.inr (Or.inl ⟨k', hin⟩)
  · exact Or.inr (Or.inr (by omega))

theorem Sound.step (hpop : Pops pop) (h : Sound out target depth seeds budget st)
    (hstep : step pop out target depth budget st = some st') :
    Sound out target depth seeds budget st' := by
  obtain ⟨v, k, rest, hnext, hcases⟩ := step_cases hstep
  have hperm := (hpop _).2 _ _ hnext
  obtain ⟨hk, hwalk⟩ := h.queue (v, k) (hperm.mem_iff.mpr List.mem_cons_self)
  have hrest : ∀ x ∈ rest, x.2 ≤ depth ∧ Walk out target seeds x.2 x.1 := fun x hx =>
    h.queue x (hperm.mem_iff.mpr (List.mem_cons_of_mem _ hx))
  have hnodup : v ∉ st.visited → (st.visited ++ [v]).Nodup := by
    intro hnew
    refine List.nodup_append.mpr ⟨h.nodup, List.nodup_singleton v, ?_⟩
    rintro a ha b hb rfl
    rw [List.mem_singleton.mp hb] at ha
    exact hnew ha
  have hvisited : ∀ u ∈ st.visited ++ [v], Near out target seeds depth u := by
    intro u hu
    rcases List.mem_append.mp hu with hu | hu
    · exact h.visited u hu
    · rw [List.mem_singleton.mp hu]
      exact ⟨k, hk, hwalk⟩
  have hself : v ∈ st.visited ++ [v] := by simp
  obtain ⟨hskip, rfl⟩ | ⟨hnew, -, -, rfl⟩ | ⟨hnew, -, hlt, rfl⟩ := hcases
  · exact ⟨h.nodup, hrest, h.visited, fun e he =>
      h.edges_step he hperm (List.Subset.refl _) le_rfl hskip⟩
  · exact ⟨hnodup hnew, hrest, hvisited, fun e he =>
      h.edges_step he hperm (List.subset_append_left _ _) (by simp) (Or.inl hself)⟩
  · refine ⟨hnodup hnew, ?_, hvisited, ?_⟩
    · intro x hx
      rcases List.mem_append.mp hx with hx | hx
      · exact hrest x hx
      · obtain ⟨e, he, rfl⟩ := List.mem_map.mp hx
        exact ⟨hlt, .step hwalk he⟩
    · intro e he
      rcases List.mem_append.mp he with he | he
      · obtain ⟨hleaves, hnear, hwhere⟩ := h.edges_step he hperm
          (List.subset_append_left st.visited [v]) (by simp) (Or.inl hself)
        refine ⟨hleaves, hnear, ?_⟩
        rcases hwhere with hin | ⟨k', hin⟩ | hspent
        · exact Or.inl hin
        · exact Or.inr (Or.inl ⟨k', List.mem_append_left _ hin⟩)
        · exact Or.inr (Or.inr hspent)
      · refine ⟨⟨v, hself, he⟩, ⟨k + 1, hlt, .step hwalk he⟩, Or.inr (Or.inl ⟨k + 1, ?_⟩)⟩
        exact List.mem_append_right _ (List.mem_map.mpr ⟨e, he, rfl⟩)

theorem sound_run (hpop : Pops pop) :
    Sound out target depth seeds budget (run pop out target depth budget fuel (start seeds)).1 :=
  run_keeps (P := Sound out target depth seeds budget) (fun h hstep => h.step hpop hstep)
    sound_start

/-- When all is done and the budget covers what is near, the edges met end at visited
vertices. -/
theorem Sound.closed {region : Finset V} (h : Sound out target depth seeds budget st)
    (hqueue : st.queue = []) (hregion : ∀ v, Near out target seeds depth v → v ∈ region)
    (hbudget : region.card ≤ budget) {e : E} (he : e ∈ st.edges) : target e ∈ st.visited := by
  obtain ⟨-, hnear, hin | ⟨k, hin⟩ | hspent⟩ := h.edges e he
  · exact hin
  · rw [hqueue] at hin
    cases hin
  · have hsub : st.visited.toFinset ⊆ region := by
      intro v hv
      exact hregion v (h.visited v (List.mem_toFinset.mp hv))
    have hall : st.visited.toFinset = region := by
      refine Finset.eq_of_subset_of_card_le hsub ?_
      rw [List.toFinset_card_of_nodup h.nodup]
      omega
    rw [← List.mem_toFinset, hall]
    exact hregion _ hnear

/-! ### Breadth first -/

variable (out target depth seeds) in
/-- What holds from the front, when the budget covers all vertices: the queue is in order of
depth and spans two depths at most; visited vertices are listed nearest first, none farther
than the queue; and whatever a visited vertex leads to is visited, or waits in the queue. -/
structure Breadth (st : State V E) : Prop where
  queue : ∀ x ∈ st.queue, x.2 ≤ depth ∧ Walk out target seeds x.2 x.1
  ordered : st.queue.Pairwise fun x y => x.2 ≤ y.2
  spread : ∀ x ∈ st.queue, ∀ y ∈ st.queue, y.2 ≤ x.2 + 1
  visited : ∀ u ∈ st.visited, Near out target seeds depth u
  before : ∀ u ∈ st.visited, ∀ x ∈ st.queue, dist out target seeds u ≤ x.2
  nearest : st.visited.Pairwise fun u v => dist out target seeds u ≤ dist out target seeds v
  seeded : ∀ s ∈ seeds, s ∈ st.visited ∨ (s, 0) ∈ st.queue
  edges : ∀ u ∈ st.visited, dist out target seeds u < depth → ∀ e ∈ out u,
    target e ∈ st.visited ∨ ∃ k ≤ dist out target seeds u + 1, (target e, k) ∈ st.queue

omit [DecidableEq V] in
theorem breadth_start : Breadth out target depth seeds (start seeds) := by
  constructor
  case queue =>
    have hsound : Sound out target depth seeds 0 (start seeds) := sound_start
    exact hsound.queue
  case ordered => exact List.pairwise_map.mpr (List.pairwise_of_forall fun _ _ => le_rfl)
  case spread =>
    intro x hx y hy
    obtain ⟨s, -, rfl⟩ := List.mem_map.mp hx
    obtain ⟨s', -, rfl⟩ := List.mem_map.mp hy
    exact Nat.zero_le _
  case seeded => exact fun s hs => Or.inr (List.mem_map.mpr ⟨s, hs, rfl⟩)
  case nearest => exact List.Pairwise.nil
  all_goals
    intro u hu
    cases hu

omit [DecidableEq V] in
/-- The front of the search: a vertex some edges away is visited, or something no farther
waits in the queue. -/
theorem Breadth.front (h : Breadth out target depth seeds st) (hwalk : Walk out target seeds k v)
    (hk : k ≤ depth) : v ∈ st.visited ∨ ∃ x ∈ st.queue, x.2 ≤ k := by
  induction hwalk with
  | seed hs => exact (h.seeded _ hs).imp id fun hin => ⟨_, hin, le_rfl⟩
  | @step k u e hwalk he ih =>
      rcases ih (by omega) with hu | ⟨x, hx, hle⟩
      · have hdist := dist_le hwalk
        rcases h.edges u hu (by omega) e he with hin | ⟨k', hle, hin⟩
        · exact Or.inl hin
        · exact Or.inr ⟨_, hin, by dsimp only; omega⟩
      · exact Or.inr ⟨x, hx, by omega⟩

omit [DecidableEq V] in
/-- The first entry of the queue, unless visited, stands at its distance. -/
theorem Breadth.dist_head (h : Breadth out target depth seeds st) {rest : List (V × ℕ)}
    (hqueue : st.queue = (v, k) :: rest) (hnew : v ∉ st.visited) :
    dist out target seeds v = k := by
  obtain ⟨hk, hwalk⟩ : k ≤ depth ∧ Walk out target seeds k v :=
    h.queue (v, k) (hqueue ▸ List.mem_cons_self)
  have hle : dist out target seeds v ≤ k := dist_le hwalk
  have hleast : ∀ x ∈ st.queue, k ≤ x.2 := by
    have hordered := h.ordered
    rw [hqueue, List.pairwise_cons] at hordered
    intro x hx
    rw [hqueue] at hx
    rcases List.mem_cons.mp hx with rfl | hx
    · exact le_rfl
    · exact hordered.1 x hx
  rcases h.front (walk_dist hwalk) (by omega) with hin | ⟨x, hx, hlt⟩
  · exact absurd hin hnew
  · have hge := hleast x hx
    omega

omit [DecidableEq V] in
/-- Taking out an entry whose vertex is, or was, visited. -/
theorem visited_or {rest : List (V × ℕ)} {visited : List V} {u : V} {j : ℕ}
    (hsub : st.visited ⊆ visited) (hqueue : st.queue = (v, k) :: rest) (hv : v ∈ visited)
    (h : u ∈ st.visited ∨ (u, j) ∈ st.queue) : u ∈ visited ∨ (u, j) ∈ rest := by
  rcases h with hin | hin
  · exact Or.inl (hsub hin)
  · rw [hqueue] at hin
    rcases List.mem_cons.mp hin with heq | hin
    · cases heq
      exact Or.inl hv
    · exact Or.inr hin

theorem Breadth.step [Fintype V] (hbudget : Fintype.card V ≤ budget)
    (hsound : Sound out target depth seeds budget st) (h : Breadth out target depth seeds st)
    (hstep : step popFront out target depth budget st = some st') :
    Breadth out target depth seeds st' := by
  obtain ⟨v, k, rest, hnext, hcases⟩ := step_cases hstep
  have hqueue : st.queue = (v, k) :: rest := by
    cases hst : st.queue with
    | nil =>
        rw [hst] at hnext
        cases hnext
    | cons x rest' =>
        rw [hst] at hnext
        cases hnext
        rfl
  have hin : ∀ x ∈ rest, x ∈ st.queue := fun x hx => hqueue ▸ List.mem_cons_of_mem _ hx
  have hhead : (v, k) ∈ st.queue := hqueue ▸ List.mem_cons_self
  obtain ⟨hk, hwalk⟩ := h.queue (v, k) hhead
  have hordered := h.ordered
  rw [hqueue, List.pairwise_cons] at hordered
  obtain ⟨hleast, hordered⟩ := hordered
  have hspread : ∀ x ∈ rest, ∀ y ∈ rest, y.2 ≤ x.2 + 1 := fun x hx y hy =>
    h.spread x (hin x hx) y (hin y hy)
  -- A spent budget means that every vertex is visited.
  have hskipped : v ∈ st.visited ∨ budget ≤ st.visited.length → v ∈ st.visited := by
    rintro (hv | hspent)
    · exact hv
    · have hall : st.visited.toFinset = Finset.univ := by
        rw [← Finset.card_eq_iff_eq_univ, List.toFinset_card_of_nodup hsound.nodup]
        have hle := hsound.nodup.length_le_card
        omega
      exact List.mem_toFinset.mp (hall ▸ Finset.mem_univ v)
  obtain ⟨hskip, rfl⟩ | ⟨hnew, -, hdeep, rfl⟩ | ⟨hnew, -, hlt, rfl⟩ := hcases
  · have hv := hskipped hskip
    refine ⟨fun x hx => h.queue x (hin x hx), hordered, hspread, h.visited,
      fun u hu x hx => h.before u hu x (hin x hx), h.nearest, fun s hs => ?_,
      fun u hu hdist e he => ?_⟩
    · exact visited_or (List.Subset.refl st.visited) hqueue hv (h.seeded s hs)
    · rcases h.edges u hu hdist e he with htarget | ⟨j, hj, htarget⟩
      · exact Or.inl htarget
      · exact (visited_or (List.Subset.refl st.visited) hqueue hv (Or.inr htarget)).imp id
          fun htarget => ⟨j, hj, htarget⟩
  all_goals
    have hdist := h.dist_head hqueue hnew
    have hsub : st.visited ⊆ st.visited ++ [v] := List.subset_append_left _ _
    have hself : v ∈ st.visited ++ [v] := by simp
    have hvisited : ∀ u ∈ st.visited ++ [v], Near out target seeds depth u
        ∧ dist out target seeds u ≤ k := by
      intro u hu
      rcases List.mem_append.mp hu with hu | hu
      · exact ⟨h.visited u hu, h.before u hu _ hhead⟩
      · rw [List.mem_singleton.mp hu]
        exact ⟨⟨k, hk, hwalk⟩, hdist.le⟩
    have hnearest : (st.visited ++ [v]).Pairwise
        fun u v => dist out target seeds u ≤ dist out target seeds v := by
      refine List.pairwise_append.mpr ⟨h.nearest, List.pairwise_singleton _ _, ?_⟩
      intro u hu w hw
      rw [List.mem_singleton.mp hw, hdist]
      exact h.before u hu _ hhead
  · refine ⟨fun x hx => h.queue x (hin x hx), hordered, hspread, fun u hu => (hvisited u hu).1,
      fun u hu x hx => (hvisited u hu).2.trans (hleast x hx), hnearest, fun s hs => ?_,
      fun u hu hnear e he => ?_⟩
    · exact visited_or hsub hqueue hself (h.seeded s hs)
    · rcases List.mem_append.mp hu with hu | hu
      · rcases h.edges u hu hnear e he with htarget | ⟨j, hj, htarget⟩
        · exact Or.inl (hsub htarget)
        · exact (visited_or hsub hqueue hself (Or.inr htarget)).imp id
            fun htarget => ⟨j, hj, htarget⟩
      · rw [List.mem_singleton.mp hu] at hnear
        omega
  · have hpushed : ∀ x ∈ (out v).map fun e => (target e, k + 1), x.2 = k + 1
        ∧ Walk out target seeds x.2 x.1 := by
      intro x hx
      obtain ⟨e, he, rfl⟩ := List.mem_map.mp hx
      exact ⟨rfl, .step hwalk he⟩
    have hupper : ∀ x ∈ rest, x.2 ≤ k + 1 := fun x hx => h.spread _ hhead x (hin x hx)
    refine ⟨?_, ?_, ?_, fun u hu => (hvisited u hu).1, ?_, hnearest, fun s hs => ?_,
      fun u hu hnear e he => ?_⟩
    · intro x hx
      rcases List.mem_append.mp hx with hx | hx
      · exact h.queue x (hin x hx)
      · obtain ⟨heq, hwalk'⟩ := hpushed x hx
        exact ⟨by omega, hwalk'⟩
    · refine List.pairwise_append.mpr ⟨hordered, ?_, fun x hx y hy => ?_⟩
      · rw [List.pairwise_map]
        exact List.pairwise_of_forall fun _ _ => le_rfl
      · rw [(hpushed y hy).1]
        exact hupper x hx
    · have hbetween : ∀ x ∈ rest ++ (out v).map fun e => (target e, k + 1),
          k ≤ x.2 ∧ x.2 ≤ k + 1 := by
        intro x hx
        rcases List.mem_append.mp hx with hx | hx
        · exact ⟨hleast x hx, hupper x hx⟩
        · have heq := (hpushed x hx).1
          omega
      intro x hx y hy
      have hx' := hbetween x hx
      have hy' := hbetween y hy
      omega
    · intro u hu x hx
      have hle := (hvisited u hu).2
      rcases List.mem_append.mp hx with hx | hx
      · exact hle.trans (hleast x hx)
      · have heq := (hpushed x hx).1
        omega
    · exact (visited_or hsub hqueue hself (h.seeded s hs)).imp id (List.mem_append_left _)
    · rcases List.mem_append.mp hu with hu | hu
      · rcases h.edges u hu hnear e he with htarget | ⟨j, hj, htarget⟩
        · exact Or.inl (hsub htarget)
        · exact (visited_or hsub hqueue hself (Or.inr htarget)).imp id
            fun htarget => ⟨j, hj, List.mem_append_left _ htarget⟩
      · rw [List.mem_singleton.mp hu] at he ⊢
        refine Or.inr ⟨k + 1, by omega, List.mem_append_right _ ?_⟩
        exact List.mem_map.mpr ⟨e, he, rfl⟩

/-- A breadth-first traversal visits exactly what is near, nearest first. -/
theorem breadth_run [Fintype V] (hbudget : Fintype.card V ≤ budget)
    (hfuel : pending out (start (E := E) seeds) < fuel) :
    (∀ v, v ∈ (run popFront out target depth budget fuel (start seeds)).1.visited
      ↔ Near out target seeds depth v)
    ∧ (run popFront out target depth budget fuel (start seeds)).1.visited.Pairwise
      fun u v => dist out target seeds u ≤ dist out target seeds v := by
  obtain ⟨-, hbreadth⟩ := run_keeps
    (P := fun st => Sound out target depth seeds budget st ∧ Breadth out target depth seeds st)
    (fun h hstep => ⟨h.1.step pops_front hstep, h.2.step hbudget h.1 hstep⟩)
    ⟨sound_start, breadth_start⟩
  obtain ⟨-, hqueue⟩ := @run_stops V E _ popFront out target depth budget _ fuel _ pops_front hfuel
  refine ⟨fun v => ⟨hbreadth.visited v, ?_⟩, hbreadth.nearest⟩
  rintro ⟨k, hk, hwalk⟩
  rcases hbreadth.front hwalk hk with hin | ⟨x, hx, -⟩
  · exact hin
  · rw [hqueue] at hx
    cases hx

end Reach

end Worklist
