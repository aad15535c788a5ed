import Filigrio.Core.State
import Filigrio.Daemon.Cache

/-!
# Filigrio.Daemon.Resident

The cache over whole runs: a state is shared through an `Arc`, its query view sits in
the same entry, and the manifests stay when the graphs are paged out. `cache_invariants`
says what holds after any sequence of calls. `Effect` says once what a call can do to the
fields; every invariant is read off it.
-/

namespace Filigrio.Daemon

/-! ### Insertion into a well-formed cache -/

namespace ProjectStateCache

variable {σ : Type} {c c' : ProjectStateCache σ} {id : String} {state : σ} {d : Bool}
  {evicted : List (Evicted σ)}

/-- The order lists the resident projects once each, they fit the capacity, and only
resident projects are dirty. -/
structure Wf (c : ProjectStateCache σ) : Prop where
  order : c.order.Perm c.graphs.keys
  size : c.graphs.size ≤ c.capacity
  room : 1 ≤ c.capacity
  dirty : ∀ id ∈ c.dirty, id ∈ c.graphs

theorem Wf.nodup (h : c.Wf) : c.order.Nodup := h.order.nodup_iff.mpr Std.ExtTreeMap.nodup_keys

theorem Wf.mem_order (h : c.Wf) : id ∈ c.order ↔ id ∈ c.graphs :=
  h.order.mem_iff.trans Std.ExtTreeMap.mem_keys

theorem new_wf (n : ℕ) : (new n : ProjectStateCache σ).Wf where
  order := by simp [new]
  size := by simp [new]
  room := le_max_right n 1
  dirty := by simp [new]

theorem mem_touch (i : String) : i ∈ (c.touch id).order ↔ i = id ∨ i ∈ c.order := by
  show i ∈ c.order.erase id ++ [id] ↔ _
  by_cases hi : i = id
  · simp [hi]
  · simp [hi, List.mem_erase_of_ne hi]

theorem touch_nodup (h : c.order.Nodup) : (c.touch id).order.Nodup := by
  show (c.order.erase id ++ [id]).Nodup
  rw [List.nodup_append_comm, List.singleton_append, List.nodup_cons]
  exact ⟨h.not_mem_erase, h.erase id⟩

theorem touch_perm (id : String) (state : σ) (h : c.Wf) : (c.touch id).order.Perm (c.graphs.insert id state).keys := by
  rw [List.perm_ext_iff_of_nodup (touch_nodup h.nodup) Std.ExtTreeMap.nodup_keys]
  intro i
  rw [mem_touch, h.mem_order, Std.ExtTreeMap.mem_keys, Std.ExtTreeMap.mem_insert, compare_eq_iff_eq]
  exact or_congr_left eq_comm

theorem Wf.touch (h : c.Wf) (hid : id ∈ c.graphs) : (c.touch id).Wf where
  order := by
    rw [List.perm_ext_iff_of_nodup (touch_nodup h.nodup) Std.ExtTreeMap.nodup_keys]
    intro i
    rw [mem_touch, h.mem_order, touch_graphs, Std.ExtTreeMap.mem_keys]
    exact ⟨fun hi => hi.elim (fun heq => heq ▸ hid) fun hmem => hmem, Or.inr⟩
  size := h.size
  room := h.room
  dirty := h.dirty

/-- Nothing is paged out while there is room. -/
theorem evict_of_room {capacity : ℕ} {graphs : BTreeMap String σ} (order : List String)
    (dirty : Finset String) (h : graphs.size ≤ capacity) :
    evictToCapacity capacity graphs dirty order = (⟨capacity, graphs, order, dirty⟩, []) := by
  cases order with
  | nil => rfl
  | cons victim order =>
      unfold evictToCapacity
      rw [if_pos h]

/-- Insertion either finds room, or pages out the project at the front of the order. -/
theorem insert_wf_cases (h : c.Wf) (hinsert : c.insert id state d = (c', evicted)) :
    (c' = ⟨c.capacity, c.graphs.insert id state, (c.touch id).order,
        if d then Insert.insert id c.dirty else c.dirty.erase id⟩ ∧
      c'.graphs.size ≤ c.capacity ∧ evicted = []) ∨
    ∃ victim rest sv, (c.touch id).order = victim :: rest ∧ victim ≠ id ∧
      c.graphs[victim]? = some sv ∧
      c' = ⟨c.capacity, (c.graphs.insert id state).erase victim, rest,
        (if d then Insert.insert id c.dirty else c.dirty.erase id).erase victim⟩ ∧
      c'.graphs.size ≤ c.capacity ∧
      evicted = [⟨victim, if victim ∈ c.dirty then some sv else none⟩] := by
  unfold insert at hinsert
  by_cases hroom : (c.graphs.insert id state).size ≤ c.capacity
  · rw [evict_of_room _ _ hroom] at hinsert
    cases hinsert
    exact Or.inl ⟨rfl, hroom, rfl⟩
  · right
    have hperm := touch_perm id state h
    have hlength : (c.touch id).order.length = (c.graphs.insert id state).size := by
      rw [hperm.length_eq, Std.ExtTreeMap.length_keys]
    have hroom' := h.room
    cases horder : (c.touch id).order with
    | nil =>
        rw [horder, List.length_nil] at hlength
        omega
    | cons victim rest =>
        have hsize : 1 < (victim :: rest).length := by
          rw [← horder, hlength]
          omega
        -- the inserted project is last, and there are at least two
        have hne : victim ≠ id := by
          intro heq
          have hnodup : (victim :: rest).Nodup := horder ▸ touch_nodup h.nodup
          have hlast : (victim :: rest).getLast? = some id := by
            rw [← horder]
            exact List.getLast?_concat
          cases rest with
          | nil => simp at hsize
          | cons second rest =>
              rw [List.getLast?_cons_cons] at hlast
              exact (List.nodup_cons.mp hnodup).1 (heq ▸ List.mem_of_getLast? hlast)
        have hmem : victim ∈ c.graphs.insert id state := by
          rw [← Std.ExtTreeMap.mem_keys, ← hperm.mem_iff, horder]
          exact List.mem_cons_self
        obtain ⟨sv, hsv⟩ := Option.isSome_iff_exists.mp (Std.ExtTreeMap.isSome_getElem?_iff_mem.mpr hmem)
        have hfull : ((c.graphs.insert id state).erase victim).size ≤ c.capacity := by
          have hins : (c.graphs.insert id state).size ≤ c.graphs.size + 1 :=
            Std.ExtTreeMap.size_insert_le
          rw [Std.ExtTreeMap.size_erase, if_pos (Std.ExtTreeMap.contains_iff_mem.mpr hmem)]
          have := h.size
          omega
        rw [horder] at hinsert
        unfold evictToCapacity at hinsert
        rw [if_neg hroom, hsv] at hinsert
        dsimp only at hinsert
        rw [evict_of_room _ _ hfull] at hinsert
        cases hinsert
        rw [BTreeMap.get_insert, if_neg (Ne.symm hne)] at hsv
        refine ⟨victim, rest, sv, rfl, hne, hsv, rfl, hfull, ?_⟩
        simp only [mem_insert_dirty, if_neg (Ne.symm hne)]

theorem Wf.insert (h : c.Wf) (hinsert : c.insert id state d = (c', evicted)) : c'.Wf := by
  have hdirty : ∀ i, i ∈ (if d then Insert.insert id c.dirty else c.dirty.erase id) →
      i ∈ c.graphs.insert id state := by
    intro i hi
    rw [mem_insert_dirty] at hi
    rw [Std.ExtTreeMap.mem_insert, compare_eq_iff_eq]
    split at hi
    · exact Or.inl ‹_›
    · exact Or.inr (h.dirty i hi)
  obtain ⟨rfl, hsize, -⟩ | ⟨victim, rest, sv, horder, hne, hsv, rfl, hsize, -⟩ :=
    insert_wf_cases h hinsert
  · exact ⟨touch_perm id state h, hsize, h.room, hdirty⟩
  · refine ⟨?_, hsize, h.room, ?_⟩
    · have hperm := touch_perm id state h
      have hnodup : (victim :: rest).Nodup := horder ▸ touch_nodup h.nodup
      rw [horder] at hperm
      rw [List.perm_ext_iff_of_nodup (List.nodup_cons.mp hnodup).2 Std.ExtTreeMap.nodup_keys]
      intro i
      have hi : i ∈ victim :: rest ↔ i ∈ (c.graphs.insert id state).keys := hperm.mem_iff
      rw [List.mem_cons, Std.ExtTreeMap.mem_keys] at hi
      rw [Std.ExtTreeMap.mem_keys, Std.ExtTreeMap.mem_erase, ← hi]
      constructor
      · intro hrest
        refine ⟨fun heq => ?_, Or.inr hrest⟩
        rw [compare_eq_iff_eq] at heq
        exact (List.nodup_cons.mp hnodup).1 (heq ▸ hrest)
      · rintro ⟨hcmp, heq | hrest⟩
        · rw [heq] at hcmp
          exact absurd (compare_eq_iff_eq.mpr rfl) hcmp
        · exact hrest
    · intro i hi
      obtain ⟨hne', hi⟩ := Finset.mem_erase.mp hi
      rw [Std.ExtTreeMap.mem_erase, ne_eq, compare_eq_iff_eq]
      exact ⟨fun heq => hne' heq.symm, hdirty i hi⟩

end ProjectStateCache

/-! ### States behind an `Arc`, and their views -/

/-- A shared allocation. Two are `Arc::ptr_eq` when they are equal. -/
abbrev Arc := ℕ

/-- One resident project: its state, and the query view derived from that state. -/
structure Resident (ν : Type) where
  state : Arc
  view : Option ν

/-- The cache with what its entries point to. `heap` holds every state ever shared, by
its `Arc`; `manifests` are never paged out. -/
structure ResidentCache (ν : Type) where
  cache : ProjectStateCache (Resident ν)
  manifests : BTreeMap String Manifest
  heap : List GraphState

namespace ResidentCache

variable {ν : Type}

def new (capacity : ℕ) : ResidentCache ν := ⟨.new capacity, ∅, []⟩

/-- The state goes with what is paged out, the view does not. -/
def handedBack (e : Evicted (Resident ν)) : Evicted Arc := ⟨e.id, e.state.map Resident.state⟩

/-- Insert (or replace) a project's state, as a whole new entry without a view. -/
def insert (c : ResidentCache ν) (id : String) (state : GraphState) (dirty : Bool) :
    ResidentCache ν × List (Evicted Arc) :=
  let (cache, evicted) := c.cache.insert id ⟨c.heap.length, none⟩ dirty
  (⟨cache, c.manifests.insert id state.manifest, c.heap ++ [state]⟩, evicted.map handedBack)

def loadInto (c : ResidentCache ν) (id : String) (state : GraphState) :
    ResidentCache ν × List (Evicted Arc) := c.insert id state false

def put (c : ResidentCache ν) (id : String) (state : GraphState) :
    ResidentCache ν × List (Evicted Arc) := c.insert id state true

/-- A resident `Arc`, marked most recently used. -/
def getArc (c : ResidentCache ν) (id : String) : Option Arc × ResidentCache ν :=
  let (entry, cache) := c.cache.getArc id
  (entry.map Resident.state, { c with cache := cache })

/-- A resident state, marked most recently used. -/
def get (c : ResidentCache ν) (id : String) : Option GraphState × ResidentCache ν :=
  let (arc, c') := c.getArc id
  (arc.bind fun a => c.heap[a]?, c')

def peekArc (c : ResidentCache ν) (id : String) : Option Arc :=
  (c.cache.peekArc id).map Resident.state

def peek (c : ResidentCache ν) (id : String) : Option GraphState :=
  (c.peekArc id).bind fun a => c.heap[a]?

/-- The cached view, marked most recently used; `none` when there is none to serve. -/
def view (c : ResidentCache ν) (id : String) : Option ν × ResidentCache ν :=
  match (c.cache.graphs[id]?).bind Resident.view with
  | some v => (some v, { c with cache := c.cache.touch id })
  | none => (none, c)

/-- Publish a view if the entry still holds the state it was built from. -/
def installView (c : ResidentCache ν) (id : String) (of : Arc) (view : ν) :
    Bool × ResidentCache ν :=
  match c.cache.graphs[id]? with
  | none => (false, c)
  | some entry =>
    if entry.state = of then
      (true, { c with cache := { c.cache with
        graphs := c.cache.graphs.insert id { entry with view := some view } } })
    else (false, c)

def markClean (c : ResidentCache ν) (id : String) : ResidentCache ν :=
  { c with cache := c.cache.markClean id }

/-! ### Runs -/

/-- A call on the cache. -/
inductive Op (ν : Type)
  | loadInto (id : String) (state : GraphState)
  | put (id : String) (state : GraphState)
  | get (id : String)
  | getArc (id : String)
  | peek (id : String)
  | peekArc (id : String)
  | view (id : String)
  | installView (id : String) (of : Arc) (view : ν)
  | markClean (id : String)

/-- What a call returns. -/
inductive Reply (ν : Type)
  | evicted (es : List (Evicted Arc))
  | state (found : Option GraphState)
  | arc (found : Option Arc)
  | view (found : Option ν)
  | installed (done : Bool)
  | done

def step (c : ResidentCache ν) : Op ν → Reply ν × ResidentCache ν
  | .loadInto id state => let (c', es) := c.loadInto id state; (.evicted es, c')
  | .put id state => let (c', es) := c.put id state; (.evicted es, c')
  | .get id => let (found, c') := c.get id; (.state found, c')
  | .getArc id => let (found, c') := c.getArc id; (.arc found, c')
  | .peek id => (.state (c.peek id), c)
  | .peekArc id => (.arc (c.peekArc id), c)
  | .view id => let (found, c') := c.view id; (.view found, c')
  | .installView id of v => let (done, c') := c.installView id of v; (.installed done, c')
  | .markClean id => (.done, c.markClean id)

/-- A call and its reply. -/
abbrev Event (ν : Type) := Op ν × Reply ν

/-- The project a call inserts. -/
def Op.inserts : Op ν → Option String
  | .loadInto id _ | .put id _ => some id
  | _ => none

/-- What a reply hands back. -/
def Reply.evictions : Reply ν → List (Evicted Arc)
  | .evicted es => es
  | _ => []

/-- The project whose recency an event refreshes: an insertion, or an access that hits. -/
def refreshes : Event ν → Option String
  | (.loadInto id _, _) | (.put id _, _) => some id
  | (.get id, .state (some _)) | (.getArc id, .arc (some _)) | (.view id, .view (some _)) => some id
  | _ => none

/-- When the project was last inserted or accessed, counted from the first event (newest
first); `0` for never. -/
def lastUse : List (Event ν) → String → ℕ
  | [], _ => 0
  | e :: older, id => if refreshes e = some id then older.length + 1 else lastUse older id

/-- The insertions of a history. Each makes the next `Arc`. -/
def allocations (t : List (Event ν)) : ℕ := t.countP fun e => e.1.inserts.isSome

/-- How often a history hands `a` back. -/
def handBacks (a : Arc) (t : List (Event ν)) : ℕ :=
  (t.flatMap fun e => e.2.evictions).countP fun x => decide (x.state = some a)

/-- A caller builds the view it installs from the state it names. -/
def Allowed (build : GraphState → ν) (c : ResidentCache ν) : Op ν → Prop
  | .installView _ of v => ∀ state, c.heap[of]? = some state → v = build state
  | _ => True

/-- The histories (newest first) and caches after a sequence of calls on a new cache. -/
inductive Reaches (build : GraphState → ν) (n : ℕ) : List (Event ν) → ResidentCache ν → Prop
  | new : Reaches build n [] (new n)
  | step {t : List (Event ν)} {c : ResidentCache ν} {op : Op ν} : Reaches build n t c →
      Allowed build c op → Reaches build n ((op, (c.step op).1) :: t) (c.step op).2

/-! ### What a call does -/

/-- The effect of a call on the cache, by what it does to the fields. -/
inductive Effect (c : ResidentCache ν) : Op ν → Reply ν → ResidentCache ν → Prop
  /-- An insertion; only `put` marks dirty. -/
  | inserted {id : String} {state : GraphState} {d : Bool}
      {cache : ProjectStateCache (Resident ν)} {es : List (Evicted (Resident ν))} :
      c.cache.insert id ⟨c.heap.length, none⟩ d = (cache, es) →
      Effect c (if d then .put id state else .loadInto id state)
        (.evicted (es.map handedBack))
        ⟨cache, c.manifests.insert id state.manifest, c.heap ++ [state]⟩
  /-- An access that hits. -/
  | touched {op : Op ν} {reply : Reply ν} {id : String} : refreshes (op, reply) = some id →
      id ∈ c.cache.graphs → op.inserts = none → reply.evictions = [] →
      Effect c op reply { c with cache := c.cache.touch id }
  | cleaned {id : String} : Effect c (.markClean id) .done (c.markClean id)
  | installed {id : String} {of : Arc} {v : ν} {entry : Resident ν} :
      c.cache.graphs[id]? = some entry → entry.state = of →
      Effect c (.installView id of v) (.installed true) { c with cache := { c.cache with
        graphs := c.cache.graphs.insert id { entry with view := some v } } }
  /-- A miss, or a look without a touch. -/
  | unchanged {op : Op ν} {reply : Reply ν} : refreshes (op, reply) = none → op.inserts = none →
      reply.evictions = [] → (∀ id, op ≠ .markClean id) → Effect c op reply c

theorem getArc_hit {c : ProjectStateCache (Resident ν)} {id : String} {entry : Resident ν}
    (h : c.graphs[id]? = some entry) : c.getArc id = (some entry, c.touch id) := by
  rw [ProjectStateCache.getArc, h]

theorem getArc_miss {c : ProjectStateCache (Resident ν)} {id : String}
    (h : c.graphs[id]? = none) : c.getArc id = (none, c) := by
  rw [ProjectStateCache.getArc, h]

theorem mem_graphs {c : ProjectStateCache (Resident ν)} {id : String} {entry : Resident ν}
    (h : c.graphs[id]? = some entry) : id ∈ c.graphs :=
  Std.ExtTreeMap.isSome_getElem?_iff_mem.mp (Option.isSome_of_eq_some h)

/-- Every `Arc` the cache holds is allocated. -/
def Alive (c : ResidentCache ν) : Prop :=
  ∀ (id : String) (entry : Resident ν), c.cache.graphs[id]? = some entry → entry.state < c.heap.length

theorem step_effect {c : ResidentCache ν} (halive : c.Alive) (op : Op ν) :
    Effect c op (c.step op).1 (c.step op).2 := by
  cases op with
  | loadInto id state => exact .inserted (d := false) rfl
  | put id state => exact .inserted (d := true) rfl
  | get id =>
      cases hid : c.cache.graphs[id]? with
      | none =>
          have hstep : c.step (.get id) = (.state none, c) := by
            simp only [step, get, getArc, getArc_miss hid, Option.map_none, Option.bind_none]
          rw [hstep]
          exact .unchanged rfl rfl rfl (by simp)
      | some entry =>
          obtain ⟨s, hheap⟩ : ∃ s, c.heap[entry.state]? = some s :=
            ⟨_, List.getElem?_eq_getElem (halive id entry hid)⟩
          have hstep : c.step (.get id)
              = (.state (some s), { c with cache := c.cache.touch id }) := by
            simp only [step, get, getArc, getArc_hit hid, Option.map_some, Option.bind_some, hheap]
          rw [hstep]
          exact .touched rfl (mem_graphs hid) rfl rfl
  | getArc id =>
      cases hid : c.cache.graphs[id]? with
      | none =>
          have hstep : c.step (.getArc id) = (.arc none, c) := by
            simp only [step, getArc, getArc_miss hid, Option.map_none]
          rw [hstep]
          exact .unchanged rfl rfl rfl (by simp)
      | some entry =>
          have hstep : c.step (.getArc id)
              = (.arc (some entry.state), { c with cache := c.cache.touch id }) := by
            simp only [step, getArc, getArc_hit hid, Option.map_some]
          rw [hstep]
          exact .touched rfl (mem_graphs hid) rfl rfl
  | peek id => exact .unchanged rfl rfl rfl (by simp)
  | peekArc id => exact .unchanged rfl rfl rfl (by simp)
  | view id =>
      cases hview : (c.cache.graphs[id]?).bind Resident.view with
      | none =>
          have hstep : c.step (.view id) = (.view none, c) := by
            simp only [step, view, hview]
          rw [hstep]
          exact .unchanged rfl rfl rfl (by simp)
      | some v =>
          have hstep : c.step (.view id)
              = (.view (some v), { c with cache := c.cache.touch id }) := by
            simp only [step, view, hview]
          rw [hstep]
          obtain ⟨entry, hid, -⟩ := Option.bind_eq_some_iff.mp hview
          exact .touched rfl (mem_graphs hid) rfl rfl
  | installView id of v =>
      cases hid : c.cache.graphs[id]? with
      | none =>
          have hstep : c.step (.installView id of v) = (.installed false, c) := by
            simp only [step, installView, hid]
          rw [hstep]
          exact .unchanged rfl rfl rfl (by simp)
      | some entry =>
          by_cases hof : entry.state = of
          · have hstep : c.step (.installView id of v) = (.installed true, { c with
                cache := { c.cache with
                  graphs := c.cache.graphs.insert id { entry with view := some v } } }) := by
              simp only [step, installView, hid, if_pos hof]
            rw [hstep]
            exact .installed hid hof
          · have hstep : c.step (.installView id of v) = (.installed false, c) := by
              simp only [step, installView, hid, if_neg hof]
            rw [hstep]
            exact .unchanged rfl rfl rfl (by simp)
  | markClean id => exact .cleaned

/-! ### Invariants -/

/-- Every view is that of the state in its entry. -/
def Described (build : GraphState → ν) (c : ResidentCache ν) : Prop :=
  ∀ (id : String) (entry : Resident ν), c.cache.graphs[id]? = some entry →
    ∀ v, entry.view = some v → ∃ state, c.heap[entry.state]? = some state ∧ v = build state

/-- The order is that of the last use. -/
def Aged (t : List (Event ν)) (c : ResidentCache ν) : Prop :=
  c.cache.order.Pairwise fun i j => lastUse t i < lastUse t j

theorem lastUse_le (t : List (Event ν)) (id : String) : lastUse t id ≤ t.length := by
  induction t with
  | nil => exact Nat.le_refl 0
  | cons e t ih =>
      unfold lastUse
      split
      · exact Nat.le_refl _
      · exact Nat.le_succ_of_le ih

theorem lastUse_refreshed {e : Event ν} {t : List (Event ν)} {id : String}
    (h : refreshes e = some id) : lastUse (e :: t) id = t.length + 1 := by
  rw [lastUse, if_pos h]

theorem lastUse_other {e : Event ν} {t : List (Event ν)} {id : String}
    (h : refreshes e ≠ some id) : lastUse (e :: t) id = lastUse t id := by
  rw [lastUse, if_neg h]

variable {build : GraphState → ν} {n : ℕ} {t : List (Event ν)} {c : ResidentCache ν}
  {op : Op ν} {reply : Reply ν} {c' : ResidentCache ν} {id : String}

theorem wf_step (h : c.cache.Wf) (he : Effect c op reply c') :
    c'.cache.Wf ∧ c'.cache.capacity = c.cache.capacity := by
  cases he with
  | inserted hinsert =>
      refine ⟨h.insert hinsert, ?_⟩
      obtain ⟨rfl, -, -⟩ | ⟨_, _, _, -, -, -, rfl, -, -⟩ :=
        ProjectStateCache.insert_wf_cases h hinsert <;> rfl
  | touched _ hid => exact ⟨h.touch hid, rfl⟩
  | @cleaned id =>
      refine ⟨⟨h.order, h.size, h.room, ?_⟩, rfl⟩
      intro i hi
      exact h.dirty i (Finset.mem_of_mem_erase hi)
  | @installed id of v entry hid _ =>
      -- the entry is replaced in its place
      have hmem : id ∈ c.cache.graphs := mem_graphs hid
      have hkeys : ∀ i, i ∈ c.cache.graphs.insert id { entry with view := some v } ↔
          i ∈ c.cache.graphs := by
        intro i
        rw [Std.ExtTreeMap.mem_insert, compare_eq_iff_eq]
        exact ⟨fun hi => hi.elim (fun heq => heq ▸ hmem) fun hi => hi, Or.inr⟩
      refine ⟨⟨?_, ?_, h.room, fun i hi => (hkeys i).mpr (h.dirty i hi)⟩, rfl⟩
      · rw [List.perm_ext_iff_of_nodup h.nodup Std.ExtTreeMap.nodup_keys]
        intro i
        rw [h.mem_order, Std.ExtTreeMap.mem_keys, hkeys]
      · show (c.cache.graphs.insert id _).size ≤ c.cache.capacity
        rw [Std.ExtTreeMap.size_insert, if_pos (Std.ExtTreeMap.contains_iff_mem.mpr hmem)]
        exact h.size
  | unchanged => exact ⟨h, rfl⟩

/-- A refreshed project moves to the end, where the latest use belongs. -/
theorem aged_touch (haged : c.Aged t) (hwf : c.cache.Wf) {e : Event ν} (he : refreshes e = some id) :
    (c.cache.touch id).order.Pairwise fun i j => lastUse (e :: t) i < lastUse (e :: t) j := by
  show (c.cache.order.erase id ++ [id]).Pairwise _
  rw [List.pairwise_append]
  refine ⟨?_, List.pairwise_singleton _ _, ?_⟩
  · refine List.Pairwise.imp_of_mem ?_ (haged.sublist List.erase_sublist)
    intro i j hi hj hlt
    have hne : ∀ k ∈ c.cache.order.erase id, refreshes e ≠ some k := by
      intro k hk heq
      rw [he] at heq
      exact ((hwf.nodup.mem_erase_iff).mp hk).1 (Option.some.inj heq).symm
    rw [lastUse_other (hne i hi), lastUse_other (hne j hj)]
    exact hlt
  · intro i hi j hj
    rw [List.mem_singleton.mp hj, lastUse_refreshed he]
    have hne : refreshes e ≠ some i := by
      rw [he]
      intro heq
      exact ((hwf.nodup.mem_erase_iff).mp hi).1 (Option.some.inj heq).symm
    rw [lastUse_other hne]
    exact Nat.lt_succ_of_le (lastUse_le t i)

theorem refreshes_insert (id : String) (state : GraphState) (d : Bool) (reply : Reply ν) :
    refreshes ((if d then .put id state else .loadInto id state : Op ν), reply) = some id := by
  cases d <;> rfl

theorem inserts_insert {d : Bool} {state : GraphState} :
    (if d then .put id state else .loadInto id state : Op ν).inserts = some id := by
  cases d <;> rfl

theorem aged_step (haged : c.Aged t) (hwf : c.cache.Wf) (he : Effect c op reply c') :
    c'.Aged ((op, reply) :: t) := by
  cases he with
  | @inserted id state d cache es hinsert =>
      have hall := aged_touch haged hwf
        (refreshes_insert id state d (.evicted (es.map handedBack)))
      obtain ⟨rfl, -, -⟩ | ⟨_, _, _, horder, -, -, rfl, -, -⟩ :=
        ProjectStateCache.insert_wf_cases hwf hinsert
      · exact hall
      · rw [horder] at hall
        exact (List.pairwise_cons.mp hall).2
  | touched hrefresh => exact aged_touch haged hwf hrefresh
  | @cleaned id =>
      refine haged.imp ?_
      intro i j hlt
      rwa [lastUse_other (by simp [refreshes]), lastUse_other (by simp [refreshes])]
  | @installed id of v =>
      refine haged.imp ?_
      intro i j hlt
      rwa [lastUse_other (by simp [refreshes]), lastUse_other (by simp [refreshes])]
  | unchanged hrefresh =>
      refine haged.imp ?_
      intro i j hlt
      rwa [lastUse_other (by simp [hrefresh]), lastUse_other (by simp [hrefresh])]

/-- After an insertion, an entry is the inserted one or an old one of another project. -/
theorem entry_of_insert {cache : ProjectStateCache (Resident ν)}
    {es : List (Evicted (Resident ν))} {d : Bool} {new entry : Resident ν} {i : String}
    (hwf : c.cache.Wf) (h : c.cache.insert id new d = (cache, es))
    (hi : cache.graphs[i]? = some entry) :
    (i = id ∧ entry = new) ∨ (i ≠ id ∧ c.cache.graphs[i]? = some entry) := by
  have hin : (c.cache.graphs.insert id new)[i]? = some entry := by
    obtain ⟨rfl, -, -⟩ | ⟨victim, _, _, -, -, -, rfl, -, -⟩ :=
      ProjectStateCache.insert_wf_cases hwf h
    · exact hi
    · rw [BTreeMap.get_erase] at hi
      split at hi
      · cases hi
      · exact hi
  rw [BTreeMap.get_insert] at hin
  split at hin
  · exact Or.inl ⟨Eq.symm ‹_›, (Option.some.inj hin).symm⟩
  · exact Or.inr ⟨Ne.symm ‹_›, hin⟩

theorem alive_step (halive : c.Alive) (hwf : c.cache.Wf) (he : Effect c op reply c') :
    c'.Alive := by
  intro i entry hi
  cases he with
  | inserted hinsert =>
      show entry.state < (c.heap ++ [_]).length
      rw [List.length_append, List.length_singleton]
      rcases entry_of_insert hwf hinsert hi with ⟨-, rfl⟩ | ⟨-, hold⟩
      · exact Nat.lt_succ_self _
      · exact Nat.lt_succ_of_lt (halive i entry hold)
  | touched => exact halive i entry hi
  | cleaned => exact halive i entry hi
  | @installed id of v old hid hof =>
      rw [BTreeMap.get_insert] at hi
      split at hi
      · rw [← Option.some.inj hi]
        exact halive id old hid
      · exact halive i entry hi
  | unchanged => exact halive i entry hi

theorem described_step (hdescribed : c.Described build) (halive : c.Alive) (hwf : c.cache.Wf)
    (hallowed : Allowed build c op) (he : Effect c op reply c') : c'.Described build := by
  intro i entry hi v hv
  cases he with
  | inserted hinsert =>
      rcases entry_of_insert hwf hinsert hi with ⟨-, rfl⟩ | ⟨-, hold⟩
      · cases hv
      · obtain ⟨state, hstate, hbuilt⟩ := hdescribed i entry hold v hv
        exact ⟨state, List.getElem?_append_left (halive i entry hold) ▸ hstate, hbuilt⟩
  | touched => exact hdescribed i entry hi v hv
  | cleaned => exact hdescribed i entry hi v hv
  | @installed id of new old hid hof =>
      rw [BTreeMap.get_insert] at hi
      split at hi
      · cases Option.some.inj hi
        cases hv
        obtain ⟨state, hstate⟩ : ∃ state, c.heap[old.state]? = some state :=
          ⟨_, List.getElem?_eq_getElem (halive id old hid)⟩
        exact ⟨state, hstate, hallowed state (hof ▸ hstate)⟩
      · exact hdescribed i entry hi v hv
  | unchanged => exact hdescribed i entry hi v hv

/-- What holds of the cache after every history. -/
structure Inv (build : GraphState → ν) (n : ℕ) (t : List (Event ν)) (c : ResidentCache ν) :
    Prop where
  wf : c.cache.Wf
  capacity : c.cache.capacity = max n 1
  aged : c.Aged t
  alive : c.Alive
  described : c.Described build
  heap : c.heap.length = allocations t

theorem Inv.step (h : Inv build n t c) (hallowed : Allowed build c op)
    (he : Effect c op reply c') : Inv build n ((op, reply) :: t) c' where
  wf := (wf_step h.wf he).1
  capacity := (wf_step h.wf he).2.trans h.capacity
  aged := aged_step h.aged h.wf he
  alive := alive_step h.alive h.wf he
  described := described_step h.described h.alive h.wf hallowed he
  heap := by
    have hheap := h.heap
    unfold allocations at hheap ⊢
    cases he with
    | inserted =>
        rw [List.countP_cons_of_pos (by rw [inserts_insert]; rfl), ← hheap]
        simp
    | touched _ _ hop => rwa [List.countP_cons_of_neg (by simp [hop])]
    | cleaned => rwa [List.countP_cons_of_neg (by simp [Op.inserts])]
    | installed => rwa [List.countP_cons_of_neg (by simp [Op.inserts])]
    | unchanged _ hop => rwa [List.countP_cons_of_neg (by simp [hop])]

theorem Reaches.inv (h : Reaches build n t c) : Inv build n t c := by
  induction h with
  | new =>
      refine ⟨ProjectStateCache.new_wf n, rfl, List.Pairwise.nil, ?_, ?_, rfl⟩
      · intro id entry hid
        simp [ResidentCache.new, ProjectStateCache.new] at hid
      · intro id entry hid
        simp [ResidentCache.new, ProjectStateCache.new] at hid
  | step hreach hallowed ih => exact ih.step hallowed (step_effect ih.alive _)

/-! ### The fate of a state that was put -/

/-- The events that end a state's stay as the unsaved state of `id`. -/
def Ends (id : String) (e : Event ν) : Prop :=
  e.1.inserts = some id ∨ e.1 = .markClean id ∨ ∃ x ∈ e.2.evictions, x.id = id

/-- What became of the state `a` that was put for `id`, over the events since. -/
inductive Fate (id : String) (a : Arc) (newer : List (Event ν)) (c : ResidentCache ν) : Prop
  /-- It is resident, and unsaved. -/
  | resident {entry : Resident ν} : (∀ e ∈ newer, ¬ Ends id e) →
      c.cache.graphs[id]? = some entry → entry.state = a → id ∈ c.cache.dirty →
      handBacks a newer = 0 → Fate id a newer c
  /-- An insertion of the same project replaced it. -/
  | replaced {later between : List (Event ν)} {e : Event ν} : newer = later ++ e :: between →
      (∀ e' ∈ between, ¬ Ends id e') → e.1.inserts = some id →
      handBacks a newer = 0 → Fate id a newer c
  /-- It was marked clean. -/
  | cleaned {later between : List (Event ν)} {e : Event ν} : newer = later ++ e :: between →
      (∀ e' ∈ between, ¬ Ends id e') → e.1 = .markClean id →
      handBacks a newer = 0 → Fate id a newer c
  /-- It was paged out, and handed back once. -/
  | handedBack {later between : List (Event ν)} {e : Event ν} : newer = later ++ e :: between →
      (∀ e' ∈ between, ¬ Ends id e') → ⟨id, some a⟩ ∈ e.2.evictions →
      handBacks a newer = 1 → Fate id a newer c

/-- `a` is the unsaved state of `id`, and of no other project. -/
structure Held (id : String) (a : Arc) (c : ProjectStateCache (Resident ν)) : Prop where
  entry : ∃ entry, c.graphs[id]? = some entry ∧ entry.state = a
  dirty : id ∈ c.dirty
  only : ∀ (j : String) (entry : Resident ν), c.graphs[j]? = some entry → entry.state = a → j = id

/-- `a` is not the unsaved state of any project. -/
def Released (a : Arc) (c : ProjectStateCache (Resident ν)) : Prop :=
  ∀ (j : String) (entry : Resident ν), c.graphs[j]? = some entry → entry.state = a → j ∉ c.dirty

theorem handBacks_cons (a : Arc) (e : Event ν) (t : List (Event ν)) :
    handBacks a (e :: t) = handBacks a [e] + handBacks a t := by
  simp [handBacks, List.countP_append]

theorem handBacks_none (a : Arc) {e : Event ν} (h : e.2.evictions = []) : handBacks a [e] = 0 := by
  simp [handBacks, h]

/-- An insertion hands back at most the unsaved state of one other project. -/
theorem handBacks_insert {a : Arc} {cache : ProjectStateCache (Resident ν)}
    {es : List (Evicted (Resident ν))} {d : Bool} {new : Resident ν} (op : Op ν)
    (hwf : c.cache.Wf) (h : c.cache.insert id new d = (cache, es)) :
    (es = [] ∧ handBacks a [(op, .evicted (es.map handedBack))] = 0) ∨
    ∃ victim entry, victim ≠ id ∧ c.cache.graphs[victim]? = some entry ∧
      cache.graphs[victim]? = none ∧
      es.map handedBack = [⟨victim, if victim ∈ c.cache.dirty then some entry.state else none⟩] ∧
      handBacks a [(op, .evicted (es.map handedBack))]
        = if victim ∈ c.cache.dirty ∧ entry.state = a then 1 else 0 := by
  obtain ⟨-, -, rfl⟩ | ⟨victim, rest, entry, -, hne, hentry, rfl, -, rfl⟩ :=
    ProjectStateCache.insert_wf_cases hwf h
  · exact Or.inl ⟨rfl, rfl⟩
  · refine Or.inr ⟨victim, entry, hne, hentry, ?_, ?_, ?_⟩
    · show ((c.cache.graphs.insert id new).erase victim)[victim]? = none
      rw [BTreeMap.get_erase, if_pos rfl]
    · by_cases hdirty : victim ∈ c.cache.dirty <;> simp [handedBack, hdirty]
    · by_cases hdirty : victim ∈ c.cache.dirty <;>
        simp [handBacks, Reply.evictions, handedBack, hdirty, List.countP_cons]

theorem dirty_of_insert {cache : ProjectStateCache (Resident ν)}
    {es : List (Evicted (Resident ν))} {d : Bool} {new : Resident ν} {i : String}
    (h : c.cache.insert id new d = (cache, es)) (hne : id ≠ i) (hi : i ∈ cache.dirty) :
    i ∈ c.cache.dirty := by
  rcases ProjectStateCache.insert_cases h i with ⟨-, hdirty⟩ | ⟨_, -, -, hclean, -⟩
  · rw [hdirty, if_neg hne] at hi
    exact hi
  · exact absurd hi hclean

/-- What is not held is not handed back, and is not held again. -/
theorem released_step {a : Arc} (h : Released a c.cache) (ha : a < c.heap.length)
    (hwf : c.cache.Wf) (he : Effect c op reply c') :
    Released a c'.cache ∧ handBacks a [(op, reply)] = 0 := by
  cases he with
  | @inserted id state d cache es hinsert =>
      constructor
      · intro j entry hj harc hdirty
        rcases entry_of_insert hwf hinsert hj with ⟨-, rfl⟩ | ⟨hne, hold⟩
        · -- the inserted state is a new one
          subst harc
          exact Nat.lt_irrefl _ ha
        · exact h j entry hold harc (dirty_of_insert hinsert (Ne.symm hne) hdirty)
      · rcases handBacks_insert (a := a) _ hwf hinsert with ⟨-, hnone⟩ |
          ⟨victim, entry, -, hentry, -, -, hcount⟩
        · exact hnone
        · rw [hcount, if_neg]
          intro ⟨hdirty, harc⟩
          exact h victim entry hentry harc hdirty
  | touched _ _ _ hnone => exact ⟨h, handBacks_none a hnone⟩
  | cleaned =>
      refine ⟨?_, rfl⟩
      intro j entry hj harc hdirty
      exact h j entry hj harc (Finset.mem_of_mem_erase hdirty)
  | @installed id of v old hid hof =>
      refine ⟨?_, rfl⟩
      intro j entry hj harc hdirty
      rw [BTreeMap.get_insert] at hj
      split at hj
      · rename_i heq
        rw [← Option.some.inj hj] at harc
        exact h id old hid harc (heq ▸ hdirty)
      · exact h j entry hj harc hdirty
  | unchanged _ _ hnone => exact ⟨h, handBacks_none a hnone⟩

section HeldInsert

variable {a : Arc} {i : String} {cache : ProjectStateCache (Resident ν)}
  {es : List (Evicted (Resident ν))} {d : Bool}

/-- After an insertion the old `Arc` is found nowhere but with its old project. -/
theorem only_of_insert (h : Held id a c.cache) (ha : a < c.heap.length) (hwf : c.cache.Wf)
    (hinsert : c.cache.insert i ⟨c.heap.length, none⟩ d = (cache, es)) (j : String)
    (entry : Resident ν) (hj : cache.graphs[j]? = some entry) (harc : entry.state = a) :
    j = id ∧ j ≠ i := by
  rcases entry_of_insert hwf hinsert hj with ⟨-, rfl⟩ | ⟨hne, hold⟩
  · subst harc
    exact absurd ha (Nat.lt_irrefl _)
  · exact ⟨h.only j entry hold harc, hne⟩

/-- The same project is inserted: the state is replaced. -/
theorem replaced_insert (op : Op ν) (h : Held id a c.cache) (ha : a < c.heap.length)
    (hwf : c.cache.Wf) (hinsert : c.cache.insert id ⟨c.heap.length, none⟩ d = (cache, es)) :
    Released a cache ∧ handBacks a [(op, .evicted (es.map handedBack))] = 0 := by
  constructor
  · intro j entry hj harc
    obtain ⟨heq, hne⟩ := only_of_insert h ha hwf hinsert j entry hj harc
    exact absurd heq hne
  · rcases handBacks_insert (a := a) op hwf hinsert with ⟨-, hnone⟩ |
      ⟨victim, entry, hne, hentry, -, -, hcount⟩
    · exact hnone
    · rw [hcount, if_neg]
      intro ⟨_, harc⟩
      exact hne (h.only victim entry hentry harc)

/-- Another project is inserted: the state stays, or is handed back. -/
theorem held_insert (op : Op ν) (h : Held id a c.cache) (ha : a < c.heap.length)
    (hwf : c.cache.Wf) (hinsert : c.cache.insert i ⟨c.heap.length, none⟩ d = (cache, es))
    (hi : i ≠ id) :
    (Held id a cache ∧ (∀ x ∈ es.map handedBack, x.id ≠ id) ∧
      handBacks a [(op, .evicted (es.map handedBack))] = 0) ∨
    (Released a cache ∧ ⟨id, some a⟩ ∈ es.map handedBack ∧
      handBacks a [(op, .evicted (es.map handedBack))] = 1) := by
  obtain ⟨mine, hmine, hstate⟩ := h.entry
  have honly := only_of_insert h ha hwf hinsert
  have hback := handBacks_insert (a := a) op hwf hinsert
  rcases ProjectStateCache.insert_cases hinsert id with ⟨hg, hd⟩ | ⟨s, hs, hnone, -, hmem⟩
  · -- it stays, so the victim is another one
    rw [if_neg hi] at hg hd
    refine Or.inl ⟨⟨⟨mine, hg.trans hmine, hstate⟩, hd.mpr h.dirty,
      fun j entry hj harc => (honly j entry hj harc).1⟩, ?_⟩
    rcases hback with ⟨hnil, hzero⟩ | ⟨victim, entry, -, hentry, hgone, hes, hcount⟩
    · rw [hnil] at hzero ⊢
      exact ⟨fun x hx => absurd hx List.not_mem_nil, hzero⟩
    · have hvictim : victim ≠ id := by
        intro heq
        rw [heq, hg, hmine] at hgone
        cases hgone
      constructor
      · intro x hx
        rw [hes, List.mem_singleton] at hx
        rw [hx]
        exact hvictim
      · rw [hcount, if_neg]
        intro ⟨_, harc⟩
        exact hvictim (h.only victim entry hentry harc)
  · -- it is the victim
    rw [if_neg hi, hmine] at hs
    cases Option.some.inj hs
    simp only [if_neg hi, if_pos h.dirty] at hmem
    have hmem' := List.mem_map_of_mem (f := handedBack) hmem
    refine Or.inr ⟨?_, ?_, ?_⟩
    · intro j entry hj harc
      rw [(honly j entry hj harc).1, hnone] at hj
      cases hj
    · rw [← hstate]
      exact hmem'
    · rcases hback with ⟨hnil, -⟩ | ⟨victim, entry, -, hentry, -, hes, hcount⟩
      · rw [hnil] at hmem
        cases hmem
      · rw [hes, List.mem_singleton] at hmem'
        have hvictim : victim = id := (congrArg Evicted.id hmem').symm
        rw [hvictim, hmine] at hentry
        cases Option.some.inj hentry
        rw [hcount, if_pos ⟨hvictim ▸ h.dirty, hstate⟩]

end HeldInsert

/-- A call leaves a held state held, or ends its stay in one of the three ways. -/
theorem held_step {a : Arc} (h : Held id a c.cache) (ha : a < c.heap.length) (hwf : c.cache.Wf)
    (he : Effect c op reply c') :
    (Held id a c'.cache ∧ ¬ Ends id (op, reply) ∧ handBacks a [(op, reply)] = 0) ∨
    (Released a c'.cache ∧
      ((op.inserts = some id ∧ handBacks a [(op, reply)] = 0) ∨
        (op = .markClean id ∧ handBacks a [(op, reply)] = 0) ∨
        (⟨id, some a⟩ ∈ reply.evictions ∧ handBacks a [(op, reply)] = 1))) := by
  cases he with
  | @inserted i state d cache es hinsert =>
      by_cases hi : i = id
      · subst hi
        obtain ⟨hreleased, hzero⟩ := replaced_insert _ h ha hwf hinsert
        exact Or.inr ⟨hreleased, Or.inl ⟨inserts_insert, hzero⟩⟩
      · rcases held_insert _ h ha hwf hinsert hi with ⟨hheld, hothers, hzero⟩ |
          ⟨hreleased, hmem, hone⟩
        · refine Or.inl ⟨hheld, ?_, hzero⟩
          rintro (hins | hclean | ⟨x, hx, hxid⟩)
          · rw [inserts_insert] at hins
            exact hi (Option.some.inj hins)
          · cases d <;> cases hclean
          · exact hothers x hx hxid
        · exact Or.inr ⟨hreleased, Or.inr (Or.inr ⟨hmem, hone⟩)⟩
  | touched hrefresh _ hop hnone =>
      refine Or.inl ⟨⟨h.entry, h.dirty, h.only⟩, ?_, handBacks_none a hnone⟩
      rintro (hins | rfl | ⟨x, hx, -⟩)
      · rw [hop] at hins
        cases hins
      · cases hrefresh
      · rw [hnone] at hx
        cases hx
  | @cleaned i =>
      by_cases hi : i = id
      · subst hi
        refine Or.inr ⟨?_, Or.inr (Or.inl ⟨rfl, rfl⟩)⟩
        intro j entry hj harc hmem
        exact Finset.ne_of_mem_erase hmem (h.only j entry hj harc)
      · refine Or.inl ⟨⟨h.entry, Finset.mem_erase_of_ne_of_mem (Ne.symm hi) h.dirty, h.only⟩, ?_, rfl⟩
        simp [Ends, Op.inserts, Reply.evictions, hi]
  | @installed i of v old hid hof =>
      obtain ⟨mine, hmine, hstate⟩ := h.entry
      refine Or.inl ⟨⟨?_, h.dirty, ?_⟩, by simp [Ends, Op.inserts, Reply.evictions], rfl⟩
      · show ∃ entry, (c.cache.graphs.insert i _)[id]? = some entry ∧ _
        rw [BTreeMap.get_insert]
        by_cases hi : i = id
        · rw [if_pos hi]
          rw [hi, hmine] at hid
          cases Option.some.inj hid
          exact ⟨_, rfl, hstate⟩
        · rw [if_neg hi]
          exact ⟨mine, hmine, hstate⟩
      · intro j entry hj harc
        rw [BTreeMap.get_insert] at hj
        split at hj
        · rename_i heq
          rw [← Option.some.inj hj] at harc
          rw [← heq]
          exact h.only i old hid harc
        · exact h.only j entry hj harc
  | unchanged _ hop hnone hclean =>
      refine Or.inl ⟨h, ?_, handBacks_none a hnone⟩
      simp [Ends, hop, hnone, hclean]

/-- The state is held still, or its stay has ended and it is held no more. -/
def Tracked (id : String) (a : Arc) (newer : List (Event ν)) (c : ResidentCache ν) : Prop :=
  ((∀ e ∈ newer, ¬ Ends id e) ∧ Held id a c.cache ∧ handBacks a newer = 0) ∨
  (Fate id a newer c ∧ Released a c.cache)

theorem Tracked.fate {a : Arc} {newer : List (Event ν)} (h : Tracked id a newer c) :
    Fate id a newer c := by
  rcases h with ⟨hquiet, hheld, hzero⟩ | ⟨hfate, -⟩
  · obtain ⟨entry, hentry, hstate⟩ := hheld.entry
    exact .resident hquiet hentry hstate hheld.dirty hzero
  · exact hfate

theorem tracked_step {a : Arc} {newer : List (Event ν)} (h : Tracked id a newer c)
    (ha : a < c.heap.length) (hwf : c.cache.Wf) (he : Effect c op reply c') :
    Tracked id a ((op, reply) :: newer) c' := by
  have hcount := handBacks_cons a (op, reply) newer
  rcases h with ⟨hquiet, hheld, hzero⟩ | ⟨hfate, hreleased⟩
  · rcases held_step hheld ha hwf he with ⟨hheld', hnot, hback⟩ | ⟨hreleased, hend⟩
    · refine Or.inl ⟨?_, hheld', by omega⟩
      intro e hmem
      rcases List.mem_cons.mp hmem with rfl | hmem
      · exact hnot
      · exact hquiet e hmem
    · refine Or.inr ⟨?_, hreleased⟩
      rcases hend with ⟨hins, hback⟩ | ⟨hclean, hback⟩ | ⟨hmem, hback⟩
      · exact .replaced (List.nil_append _).symm hquiet hins (by omega)
      · exact .cleaned (List.nil_append _).symm hquiet hclean (by omega)
      · exact .handedBack (List.nil_append _).symm hquiet hmem (by omega)
  · obtain ⟨hreleased', hback⟩ := released_step hreleased ha hwf he
    refine Or.inr ⟨?_, hreleased'⟩
    have hcons : ∀ {later between : List (Event ν)} {e : Event ν}, newer = later ++ e :: between →
        (op, reply) :: newer = ((op, reply) :: later) ++ e :: between := by
      intro later between e hsplit
      rw [hsplit, List.cons_append]
    cases hfate with
    | resident _ hentry hstate hdirty _ => exact absurd hdirty (hreleased _ _ hentry hstate)
    | @replaced later between e hsplit hquiet hins hzero =>
        exact .replaced (hcons hsplit) hquiet hins (by omega)
    | @cleaned later between e hsplit hquiet hclean hzero =>
        exact .cleaned (hcons hsplit) hquiet hclean (by omega)
    | @handedBack later between e hsplit hquiet hmem hone =>
        exact .handedBack (hcons hsplit) hquiet hmem (by omega)

/-- Right after a `put` its state is held. -/
theorem held_put {state : GraphState} (halive : c.Alive) (hwf : c.cache.Wf) :
    Held id c.heap.length (c.step (.put id state)).2.cache := by
  cases hinsert : c.cache.insert id ⟨c.heap.length, none⟩ true with
  | mk cache es =>
      have hcache : (c.step (.put id state)).2.cache = cache := by
        simp only [step, put, insert, hinsert]
      rw [hcache]
      have hentry : ∀ (j : String) (entry : Resident ν), cache.graphs[j]? = some entry →
          entry.state = c.heap.length → j = id := by
        intro j entry hj harc
        rcases entry_of_insert hwf hinsert hj with ⟨heq, -⟩ | ⟨-, hold⟩
        · exact heq
        · exact absurd (harc ▸ halive j entry hold) (Nat.lt_irrefl _)
      -- the victim, if there is one, is another project
      have hstays : cache.graphs[id]? = some ⟨c.heap.length, none⟩ ∧ id ∈ cache.dirty := by
        obtain ⟨rfl, -, -⟩ | ⟨victim, _, _, -, hne, -, rfl, -, -⟩ :=
          ProjectStateCache.insert_wf_cases hwf hinsert
        · exact ⟨Std.ExtTreeMap.getElem?_insert_self, Finset.mem_insert_self id _⟩
        · refine ⟨?_, Finset.mem_erase_of_ne_of_mem (Ne.symm hne) (Finset.mem_insert_self id _)⟩
          show ((c.cache.graphs.insert id _).erase victim)[id]? = _
          rw [BTreeMap.get_erase, if_neg hne]
          exact Std.ExtTreeMap.getElem?_insert_self
      exact ⟨⟨_, hstays.1, rfl⟩, hstays.2, hentry⟩

theorem Effect.heap_extends (he : Effect c op reply c') : c.heap <+: c'.heap := by
  cases he with
  | inserted => exact List.prefix_append _ _
  | _ => exact List.prefix_rfl

theorem Reaches.tracked {newer older : List (Event ν)} {state : GraphState} (h : Reaches build n t c)
    (ht : t = newer ++ (.put id state, reply) :: older) :
    c.heap[allocations older]? = some state ∧ Tracked id (allocations older) newer c := by
  induction h generalizing newer with
  | new => simp at ht
  | @step t c op hreach hallowed ih =>
      have hinv := hreach.inv
      cases newer with
      | nil =>
          -- the put itself
          rw [List.nil_append] at ht
          obtain ⟨hevent, rfl⟩ := List.cons.inj ht
          have hop : op = .put id state := congrArg Prod.fst hevent
          subst hop
          rw [← hinv.heap]
          refine ⟨?_, Or.inl ⟨by simp, held_put hinv.alive hinv.wf, rfl⟩⟩
          show (c.heap ++ [state])[c.heap.length]? = some state
          simp
      | cons e newer =>
          obtain ⟨rfl, hrest⟩ := List.cons.inj ht
          obtain ⟨hheap, htracked⟩ := ih hrest
          obtain ⟨ha, -⟩ := List.getElem?_eq_some_iff.mp hheap
          refine ⟨?_, tracked_step htracked ha hinv.wf (step_effect hinv.alive op)⟩
          obtain ⟨tail, htail⟩ := (step_effect hinv.alive op).heap_extends
          rw [← htail, List.getElem?_append_left ha]
          exact hheap

/-- What a call evicts: at most one project, never the inserted one, and the one whose
last use is the oldest. -/
def EvictsOldest (t : List (Event ν)) (c : ResidentCache ν) (e : Event ν) : Prop :=
  ∀ x ∈ e.2.evictions, ∃ id, e.1.inserts = some id ∧ x.id ≠ id ∧ x.id ∈ c.cache.graphs ∧
    e.2.evictions = [x] ∧
    ∀ j, j ∈ c.cache.graphs ∨ j = id → j ≠ x.id → lastUse (e :: t) x.id < lastUse (e :: t) j

theorem evictsOldest_step (haged : c.Aged t) (hwf : c.cache.Wf) (he : Effect c op reply c') :
    EvictsOldest t c (op, reply) := by
  intro x hx
  cases he with
  | @inserted id state d cache es hinsert =>
      have hall := aged_touch haged hwf
        (refreshes_insert id state d (.evicted (es.map handedBack)))
      obtain ⟨-, -, rfl⟩ | ⟨victim, rest, entry, horder, hne, hentry, -, -, rfl⟩ :=
        ProjectStateCache.insert_wf_cases hwf hinsert
      · cases hx
      · have hvictim := List.mem_singleton.mp hx
        have hxid : x.id = victim := by rw [hvictim]; rfl
        refine ⟨id, inserts_insert, hxid ▸ hne, hxid ▸ mem_graphs hentry, by rw [hvictim]; rfl, ?_⟩
        intro j hj hjne
        have hmem : j ∈ victim :: rest := by
          rw [← horder, ProjectStateCache.mem_touch, hwf.mem_order]
          exact hj.symm
        rw [horder] at hall
        rw [hxid] at hjne ⊢
        exact (List.pairwise_cons.mp hall).1 j ((List.mem_cons.mp hmem).resolve_left hjne)
  | touched _ _ _ hnone => rw [hnone] at hx; cases hx
  | cleaned => cases hx
  | installed => cases hx
  | unchanged _ _ hnone => rw [hnone] at hx; cases hx

/-- **The invariants of the cache**, after any sequence of calls on a new cache of any
capacity. -/
theorem cache_invariants (h : Reaches build n t c) :
    c.cache.order.Perm c.cache.graphs.keys ∧
    c.cache.graphs.size ≤ max n 1 ∧
    (∀ id ∈ c.cache.dirty, id ∈ c.cache.graphs) ∧
    (∀ op, EvictsOldest t c (op, (c.step op).1)) ∧
    (∀ newer older id state reply, t = newer ++ (.put id state, reply) :: older →
      c.heap[allocations older]? = some state ∧ Fate id (allocations older) newer c) ∧
    (∀ id v, (c.view id).1 = some v → ∃ (entry : Resident ν) (state : GraphState),
      c.cache.graphs[id]? = some entry ∧ c.heap[entry.state]? = some state ∧ v = build state) := by
  have hinv := h.inv
  refine ⟨hinv.wf.order, hinv.capacity ▸ hinv.wf.size, hinv.wf.dirty,
    fun op => evictsOldest_step hinv.aged hinv.wf (step_effect hinv.alive op), ?_, ?_⟩
  · intro newer older id state reply ht
    obtain ⟨hheap, htracked⟩ := h.tracked ht
    exact ⟨hheap, htracked.fate⟩
  · intro id v hv
    unfold view at hv
    split at hv
    · rename_i v' hview
      cases hv
      obtain ⟨entry, hentry, hv⟩ := Option.bind_eq_some_iff.mp hview
      obtain ⟨state, hstate, hbuilt⟩ := hinv.described id entry hentry v hv
      exact ⟨entry, state, hentry, hstate, hbuilt⟩
    · cases hv

/-- `cache_invariants` after two puts into a cache that holds one state. -/
theorem cache_invariants_sample :
    ∃ (t : List (Event GraphState)) (c : ResidentCache GraphState),
      Reaches (fun state => state) 1 t c ∧ t.length = 2 ∧ c.cache.graphs.size ≤ max 1 1 ∧
        Fate "a" 0 (t.take 1) c := by
  have hfirst : Reaches (fun state => state) 1 [(.put "a" .empty, _)] _ := .step .new trivial
  have hreach : Reaches (fun state => state) 1 [(.put "b" .empty, _), _] _ := .step hfirst trivial
  refine ⟨_, _, hreach, rfl, (cache_invariants hreach).2.1, ?_⟩
  exact ((cache_invariants hreach).2.2.2.2.1 [_] [] "a" .empty _ rfl).2

end ResidentCache

end Filigrio.Daemon
