import Mathlib.Data.List.Basic
import Mathlib.Tactic.Common

/-!
# Ordered search in a graph

A vertex is a result, or a list of vertices to try in order. A depth-first *walk* threads
one set of visited vertices through every branch, abandoned ones included; a *search*
only refuses to run in circles. Both take fuel. When the fuel exceeds the number of
vertices that branch, the walk finds what the search finds (`walk_eq_search`), and
something exactly if a result can be reached (`walk_isSome`): a vertex that an abandoned
branch visited is *settled*, its successors having been visited too.
-/

namespace Search

variable {V R : Type*} [DecidableEq V]

/-- Try the vertices in order until one yields a result, threading the visited ones. -/
def tryAll (f : List V → V → Option R × List V) : List V → List V → Option R × List V
  | [], visited => (none, visited)
  | w :: ws, visited =>
    match f visited w with
    | (some r, visited') => (some r, visited')
    | (none, visited') => tryAll f ws visited'

omit [DecidableEq V] in
theorem tryAll_singleton (f : List V → V → Option R × List V) (w : V) (visited : List V) :
    tryAll f [w] visited = f visited w := by
  unfold tryAll
  cases f visited w with
  | mk res visited' => cases res <;> rfl

variable (next : V → R ⊕ List V)

/-- The walk: the result, and every vertex visited on the way to it. -/
def walk : ℕ → List V → V → Option R × List V
  | 0, visited, _ => (none, visited)
  | fuel + 1, visited, v =>
    if v ∈ visited then (none, visited)
    else
      match next v with
      | .inl r => (some r, v :: visited)
      | .inr ws => tryAll (walk fuel) ws (v :: visited)

/-- The search without a memory: it only keeps the path it is on. -/
def search : ℕ → List V → V → Option R
  | 0, _, _ => none
  | fuel + 1, path, v =>
    if v ∈ path then none
    else
      match next v with
      | .inl r => some r
      | .inr ws => ws.findSome? (search fuel (v :: path))

/-- A result that can be reached. -/
inductive Reaches : V → R → Prop
  | here {v : V} {r : R} : next v = .inl r → Reaches v r
  | step {v w : V} {ws : List V} {r : R} : next v = .inr ws → w ∈ ws → Reaches w r → Reaches v r

/-- A part of the graph that no successor leaves, and whose branching vertices are listed. -/
structure Region (U : List V) (S : V → Prop) : Prop where
  succ : ∀ {v w : V} {ws : List V}, S v → next v = .inr ws → w ∈ ws → S w
  branch : ∀ {v : V} {ws : List V}, S v → next v = .inr ws → ws ≠ [] → v ∈ U

/-- The listed vertices that are still to be visited. -/
def rest (U visited : List V) : ℕ := (U.filter fun u => u ∉ visited).length

/-- Every visited vertex is on the path or settled. -/
structure Settled (visited path : List V) : Prop where
  onPath : path ⊆ visited
  settled : ∀ u ∈ visited, u ∉ path → ∃ ws, next u = .inr ws ∧ ws ⊆ visited

variable {next} {U visited visited' path path' ws : List V} {S : V → Prop} {v w : V} {r : R}
  {fuel n : ℕ}

theorem rest_mono (h : visited ⊆ visited') : rest U visited' ≤ rest U visited := by
  unfold rest
  refine (List.monotone_filter_right U fun u hu => ?_).length_le
  simp only [decide_eq_true_eq] at hu ⊢
  exact fun hmem => hu (h hmem)

theorem rest_cons (hU : v ∈ U) (hv : v ∉ visited) : rest U (v :: visited) < rest U visited := by
  have hsub : (U.filter fun u => u ∉ v :: visited).Sublist (U.filter fun u => u ∉ visited) := by
    refine List.monotone_filter_right U fun u hu => ?_
    simp only [decide_eq_true_eq] at hu ⊢
    exact fun hmem => hu (List.mem_cons_of_mem v hmem)
  refine Nat.lt_of_le_of_ne hsub.length_le fun hlen => ?_
  have heq := hsub.eq_of_length hlen
  have hmem : v ∈ U.filter fun u => u ∉ visited := List.mem_filter.mpr ⟨hU, by simpa using hv⟩
  rw [← heq, List.mem_filter] at hmem
  simp at hmem

omit [DecidableEq V] in
theorem settled_nil : Settled next [] [] where
  onPath := List.nil_subset _
  settled u hu := by cases hu

omit [DecidableEq V] in
theorem Settled.push (h : Settled next visited path) : Settled next (v :: visited) (v :: path) where
  onPath := List.cons_subset_cons v h.onPath
  settled u hu hpath := by
    have hne : u ≠ v := fun h => hpath (h ▸ List.mem_cons_self)
    have hvisited : u ∈ visited := (List.mem_cons.mp hu).resolve_left hne
    obtain ⟨ws, hnext, hws⟩ := h.settled u hvisited fun h => hpath (List.mem_cons_of_mem v h)
    exact ⟨ws, hnext, List.subset_cons_of_subset v hws⟩

/-- Leaving a vertex whose successors have all been tried settles it. -/
theorem Settled.pop (h : Settled next visited (v :: path)) (hnext : next v = .inr ws)
    (hws : ws ⊆ visited) : Settled next visited path where
  onPath := fun u hu => h.onPath (List.mem_cons_of_mem v hu)
  settled u hu hpath := by
    by_cases huv : u = v
    · exact ⟨ws, huv ▸ hnext, hws⟩
    · exact h.settled u hu fun h => (List.mem_cons.mp h).elim huv hpath

/-- Nothing is found from a visited vertex, on the path or beside it. -/
theorem Settled.search_eq_none (h : Settled next visited path) :
    ∀ {n : ℕ} {path' : List V} {u : V}, path ⊆ path' → u ∈ visited → search next n path' u = none
  | 0, _, _, _, _ => rfl
  | n + 1, path', u, hpath, hu => by
      unfold search
      split
      · rfl
      · rename_i hu'
        obtain ⟨ws, hnext, hws⟩ := h.settled u hu fun h => hu' (hpath h)
        rw [hnext]
        refine List.findSome?_eq_none_iff.mpr fun w hw => ?_
        exact h.search_eq_none (List.subset_cons_of_subset u hpath) (hws hw)

/-- What one walk does: it finds what the search finds, or settles the vertex. -/
def Finds (next : V → R ⊕ List V) (U visited path : List V) (v : V) (res : Option R × List V) :
    Prop :=
  (∀ n, rest U path < n → search next n path v = res.1) ∧
    (res.1 = none → visited ⊆ res.2 ∧ v ∈ res.2 ∧ Settled next res.2 path)

/-- Trying successors in order finds what the search through them finds. -/
theorem tryAll_finds {f : List V → V → Option R × List V} (hS : ∀ w ∈ ws, S w)
    (hf : ∀ visited w, S w → rest U visited < fuel → Settled next visited path →
      Finds next U visited path w (f visited w))
    (hfuel : rest U visited < fuel) (h : Settled next visited path) :
    (∀ n, rest U path < n → ws.findSome? (search next n path) = (tryAll f ws visited).1) ∧
      ((tryAll f ws visited).1 = none → visited ⊆ (tryAll f ws visited).2 ∧
        ws ⊆ (tryAll f ws visited).2 ∧ Settled next (tryAll f ws visited).2 path) := by
  induction ws generalizing visited with
  | nil => exact ⟨fun _ _ => rfl, fun _ => ⟨fun _ h => h, List.nil_subset _, h⟩⟩
  | cons w ws ih =>
      obtain ⟨hsearch, hnone⟩ := hf visited w (hS w List.mem_cons_self) hfuel h
      unfold tryAll
      cases hres : f visited w with
      | mk res visited' =>
          rw [hres] at hsearch hnone
          cases res with
          | some r =>
              refine ⟨fun n hn => ?_, fun h => by cases h⟩
              rw [List.findSome?_cons, hsearch n hn]
          | none =>
              obtain ⟨hmono, hw, hsettled⟩ := hnone rfl
              obtain ⟨hrest, hmore⟩ := ih (fun w hw => hS w (List.mem_cons_of_mem _ hw))
                (Nat.lt_of_le_of_lt (rest_mono hmono) hfuel) hsettled
              refine ⟨fun n hn => ?_, fun h => ?_⟩
              · rw [List.findSome?_cons, hsearch n hn]
                exact hrest n hn
              · obtain ⟨hmono', hws, hsettled'⟩ := hmore h
                exact ⟨fun u hu => hmono' (hmono hu),
                  List.cons_subset.mpr ⟨hmono' hw, hws⟩, hsettled'⟩

theorem walk_finds (hregion : Region next U S) : ∀ {fuel : ℕ} {visited path : List V} {v : V},
    S v → rest U visited < fuel → Settled next visited path →
    Finds next U visited path v (walk next fuel visited v)
  | 0, _, _, _, _, hfuel, _ => absurd hfuel (Nat.not_lt_zero _)
  | fuel + 1, visited, path, v, hv, hfuel, h => by
      unfold walk
      split
      · rename_i hmem
        exact ⟨fun n _ => h.search_eq_none (fun _ h => h) hmem, fun _ => ⟨fun _ h => h, hmem, h⟩⟩
      · rename_i hmem
        have hpath : v ∉ path := fun hp => hmem (h.onPath hp)
        cases hnext : next v with
        | inl r =>
            refine ⟨fun n hn => ?_, fun h => by cases h⟩
            obtain ⟨n, rfl⟩ := Nat.exists_eq_succ_of_ne_zero (Nat.ne_zero_of_lt hn)
            rw [search, if_neg hpath, hnext]
        | inr ws =>
            by_cases hnil : ws = []
            · subst hnil
              refine ⟨fun n _ => ?_, fun _ => ⟨List.subset_cons_self _ _, List.mem_cons_self,
                h.push.pop hnext (List.nil_subset _)⟩⟩
              cases n with
              | zero => rfl
              | succ n => rw [search, if_neg hpath, hnext]; rfl
            · -- a vertex that branches is listed, so less is left to visit
              have hU := hregion.branch hv hnext hnil
              have hless : rest U (v :: visited) < fuel := by
                have := rest_cons hU hmem
                omega
              obtain ⟨hsearch, hnone⟩ := tryAll_finds (f := walk next fuel)
                (fun w hw => hregion.succ hv hnext hw)
                (fun visited w hw hfuel hs => walk_finds hregion hw hfuel hs) hless h.push
              refine ⟨fun n hn => ?_, fun hres => ?_⟩
              · obtain ⟨n, rfl⟩ := Nat.exists_eq_succ_of_ne_zero (Nat.ne_zero_of_lt hn)
                have hn' : rest U (v :: path) < n := by
                  have := rest_cons hU hpath
                  omega
                rw [search, if_neg hpath, hnext]
                exact hsearch n hn'
              · obtain ⟨hmono, hws, hsettled⟩ := hnone hres
                exact ⟨fun u hu => hmono (List.mem_cons_of_mem v hu), hmono List.mem_cons_self,
                  hsettled.pop hnext hws⟩

/-- **A walk with a shared memory is the search without one.** -/
theorem walk_eq_search (hregion : Region next U S) (hv : S v) (hfuel : U.length < fuel)
    (hn : U.length < n) : (walk next fuel [] v).1 = search next n [] v := by
  have hrest : rest U [] = U.length := by simp [rest]
  exact ((walk_finds hregion hv (hrest ▸ hfuel) settled_nil).1 n (hrest ▸ hn)).symm

omit [DecidableEq V] in
theorem settled_self (path : List V) : Settled next path path where
  onPath := fun _ h => h
  settled _ hu hpath := absurd hu hpath

/-- With enough fuel the search does not depend on it. -/
theorem search_fuel (hregion : Region next U S) (hv : S v) (hfuel : rest U path < fuel)
    (hn : rest U path < n) : search next fuel path v = search next n path v := by
  have hfinds := (walk_finds hregion hv hfuel (settled_self path)).1
  exact (hfinds fuel hfuel).trans (hfinds n hn).symm

/-- What the walk finds can be reached. -/
theorem reaches_of_walk : ∀ {fuel : ℕ} {visited : List V} {v : V},
    (walk next fuel visited v).1 = some r → Reaches next v r
  | 0, _, _, h => by cases h
  | fuel + 1, visited, v, h => by
      unfold walk at h
      split at h
      · cases h
      · cases hnext : next v with
        | inl r' =>
            rw [hnext] at h
            cases h
            exact .here hnext
        | inr ws =>
            rw [hnext] at h
            have hall : ∀ (us visited : List V),
                (tryAll (walk next fuel) us visited).1 = some r → ∃ w ∈ us, Reaches next w r := by
              intro us
              induction us with
              | nil => intro visited h; cases h
              | cons w us ih =>
                  intro visited h
                  unfold tryAll at h
                  cases hres : walk next fuel visited w with
                  | mk res visited' =>
                      rw [hres] at h
                      cases res with
                      | some r' =>
                          cases h
                          exact ⟨w, List.mem_cons_self, reaches_of_walk (congrArg Prod.fst hres)⟩
                      | none =>
                          obtain ⟨w', hw', hreach⟩ := ih _ h
                          exact ⟨w', List.mem_cons_of_mem w hw', hreach⟩
            obtain ⟨w, hw, hreach⟩ := hall ws _ h
            exact .step hnext hw hreach

omit [DecidableEq V] in
/-- From settled vertices alone no result can be reached. -/
theorem Settled.not_reaches (h : Settled next visited []) (hreach : Reaches next v r) :
    v ∉ visited := by
  induction hreach with
  | here hnext =>
      intro hv
      obtain ⟨ws, hws, -⟩ := h.settled _ hv (by simp)
      rw [hws] at hnext
      cases hnext
  | step hnext hw _ ih =>
      intro hv
      obtain ⟨ws, hws, hsub⟩ := h.settled _ hv (by simp)
      rw [hws] at hnext
      cases hnext
      exact ih (hsub hw)

/-- **A walk is complete**: it finds something exactly if a result can be reached. -/
theorem walk_isSome (hregion : Region next U S) (hv : S v) (hfuel : U.length < fuel) :
    (walk next fuel [] v).1.isSome = true ↔ ∃ r, Reaches next v r := by
  constructor
  · intro h
    obtain ⟨r, hr⟩ := Option.isSome_iff_exists.mp h
    exact ⟨r, reaches_of_walk hr⟩
  · rintro ⟨r, hreach⟩
    by_contra hnone
    have hrest : rest U [] = U.length := by simp [rest]
    obtain ⟨-, hmem, hsettled⟩ := (walk_finds hregion hv (hrest ▸ hfuel) settled_nil).2
      (Option.not_isSome_iff_eq_none.mp hnone)
    exact hsettled.not_reaches hreach hmem

end Search
