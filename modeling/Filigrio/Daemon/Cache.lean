import Filigrio.Lib.TreeMap

/-!
# Filigrio.Daemon.Cache

The LRU cache of project states. What an insertion pages out is handed back, with its
state when it has not been checkpointed; `insert_cases` and `insert_evicted` say where
every entry is afterwards.
-/

namespace Filigrio.Daemon

/-- A project that was paged out: its state, when that must be written back. -/
structure Evicted (σ : Type) where
  id : String
  state : Option σ

/-- Resident states by project id, their access order (least recently used first), and
which of them differ from their checkpoint. -/
structure ProjectStateCache (σ : Type) where
  capacity : ℕ
  graphs : BTreeMap String σ
  order : List String
  dirty : Finset String

namespace ProjectStateCache

variable {σ : Type}

def new (capacity : ℕ) : ProjectStateCache σ := ⟨max capacity 1, ∅, [], ∅⟩

/-- Move the project to the most recently used position. -/
def touch (c : ProjectStateCache σ) (id : String) : ProjectStateCache σ :=
  { c with order := c.order.erase id ++ [id] }

/-- A resident state, marked most recently used. -/
def getArc (c : ProjectStateCache σ) (id : String) : Option σ × ProjectStateCache σ :=
  match c.graphs[id]? with
  | some state => (some state, c.touch id)
  | none => (none, c)

/-- A resident state, without touching recency. -/
def peekArc (c : ProjectStateCache σ) (id : String) : Option σ := c.graphs[id]?

def markClean (c : ProjectStateCache σ) (id : String) : ProjectStateCache σ :=
  { c with dirty := c.dirty.erase id }

/-- `evict_to_capacity`: page out from the front of the order while there are too many. -/
def evictToCapacity (capacity : ℕ) (graphs : BTreeMap String σ) (dirty : Finset String) :
    List String → ProjectStateCache σ × List (Evicted σ)
  | [] => (⟨capacity, graphs, [], dirty⟩, [])
  | victim :: order =>
    if graphs.size ≤ capacity then (⟨capacity, graphs, victim :: order, dirty⟩, [])
    else
      match graphs[victim]? with
      | some state =>
        let (c, evicted) := evictToCapacity capacity (graphs.erase victim) (dirty.erase victim) order
        (c, ⟨victim, if victim ∈ dirty then some state else none⟩ :: evicted)
      -- a stale entry of the order
      | none => evictToCapacity capacity graphs dirty order

/-- Insert or replace a project's state, then evict down to capacity. -/
def insert (c : ProjectStateCache σ) (id : String) (state : σ) (dirty : Bool) :
    ProjectStateCache σ × List (Evicted σ) :=
  evictToCapacity c.capacity (c.graphs.insert id state)
    (if dirty then Insert.insert id c.dirty else c.dirty.erase id) (c.touch id).order

/-- Insert a state that matches its checkpoint. -/
def loadInto (c : ProjectStateCache σ) (id : String) (state : σ) :
    ProjectStateCache σ × List (Evicted σ) :=
  c.insert id state false

/-- Insert a state that an apply produced. -/
def put (c : ProjectStateCache σ) (id : String) (state : σ) :
    ProjectStateCache σ × List (Evicted σ) :=
  c.insert id state true

section Spec

variable {c c' : ProjectStateCache σ} {graphs : BTreeMap String σ} {dirty : Finset String}
  {order : List String} {evicted : List (Evicted σ)} {capacity : ℕ} {id : String} {state : σ}

@[simp] theorem touch_graphs : (c.touch id).graphs = c.graphs := rfl

@[simp] theorem touch_dirty : (c.touch id).dirty = c.dirty := rfl

@[simp] theorem markClean_graphs : (c.markClean id).graphs = c.graphs := rfl

@[simp] theorem markClean_dirty : (c.markClean id).dirty = c.dirty.erase id := rfl

theorem getArc_fst : (c.getArc id).1 = c.graphs[id]? := by
  unfold getArc
  cases hid : c.graphs[id]? <;> rfl

@[simp] theorem getArc_graphs : (c.getArc id).2.graphs = c.graphs := by
  unfold getArc
  cases c.graphs[id]? <;> rfl

@[simp] theorem getArc_dirty : (c.getArc id).2.dirty = c.dirty := by
  unfold getArc
  cases c.graphs[id]? <;> rfl

/-- Every project is as before, or was resident and has been paged out. -/
theorem evict_cases (h : evictToCapacity capacity graphs dirty order = (c', evicted))
    (id : String) :
    (c'.graphs[id]? = graphs[id]? ∧ (id ∈ c'.dirty ↔ id ∈ dirty)) ∨
    ∃ state, graphs[id]? = some state ∧ c'.graphs[id]? = none ∧ id ∉ c'.dirty ∧
      ⟨id, if id ∈ dirty then some state else none⟩ ∈ evicted := by
  induction order generalizing graphs dirty c' evicted with
  | nil =>
      cases h
      exact Or.inl ⟨rfl, Iff.rfl⟩
  | cons victim order ih =>
      unfold evictToCapacity at h
      split at h
      · cases h
        exact Or.inl ⟨rfl, Iff.rfl⟩
      · split at h
        · rename_i state hvictim
          cases hrest : evictToCapacity capacity (graphs.erase victim) (dirty.erase victim) order with
          | mk c'' evicted' =>
              rw [hrest] at h
              cases h
              by_cases hid : id = victim
              · -- the victim is gone, and stays gone
                subst hid
                have hgone : c'.graphs[id]? = none ∧ id ∉ c'.dirty := by
                  rcases ih hrest with ⟨hg, hd⟩ | ⟨_, hg, -⟩
                  · rw [hg, hd, BTreeMap.get_erase, if_pos rfl]
                    exact ⟨rfl, Finset.notMem_erase id dirty⟩
                  · rw [BTreeMap.get_erase, if_pos rfl] at hg
                    cases hg
                exact Or.inr ⟨state, hvictim, hgone.1, hgone.2, List.mem_cons_self⟩
              · have hg : (graphs.erase victim)[id]? = graphs[id]? := by
                  rw [BTreeMap.get_erase, if_neg (Ne.symm hid)]
                have hd : id ∈ dirty.erase victim ↔ id ∈ dirty := by
                  rw [Finset.mem_erase]
                  exact ⟨And.right, fun h => ⟨hid, h⟩⟩
                rcases ih hrest with ⟨hg', hd'⟩ | ⟨state', hg', hnone, hclean, hmem⟩
                · exact Or.inl ⟨hg'.trans hg, hd'.trans hd⟩
                · refine Or.inr ⟨state', hg ▸ hg', hnone, hclean, List.mem_cons_of_mem _ ?_⟩
                  simpa only [hd] using hmem
        · exact ih h

/-- What is paged out was resident, and is handed back if it was dirty. -/
theorem evict_evicted (h : evictToCapacity capacity graphs dirty order = (c', evicted))
    {e : Evicted σ} (he : e ∈ evicted) : ∃ state, graphs[e.id]? = some state ∧
      e.state = if e.id ∈ dirty then some state else none := by
  induction order generalizing graphs dirty c' evicted with
  | nil =>
      cases h
      cases he
  | cons victim order ih =>
      unfold evictToCapacity at h
      split at h
      · cases h
        cases he
      · split at h
        · rename_i state hvictim
          cases hrest : evictToCapacity capacity (graphs.erase victim) (dirty.erase victim) order with
          | mk c'' evicted' =>
              rw [hrest] at h
              cases h
              rcases List.mem_cons.mp he with rfl | he
              · exact ⟨state, hvictim, rfl⟩
              · obtain ⟨state', hg, hs⟩ := ih hrest he
                rw [BTreeMap.get_erase] at hg
                split at hg
                · cases hg
                · rename_i hne
                  refine ⟨state', hg, ?_⟩
                  rw [hs]
                  simp [Ne.symm hne]
        · exact ih h he

/-- Which projects are dirty right after the insertion, before anything is paged out. -/
theorem mem_insert_dirty {d : Bool} (i : String) :
    (i ∈ if d then Insert.insert id c.dirty else c.dirty.erase id) ↔
      if id = i then d = true else i ∈ c.dirty := by
  by_cases hi : id = i
  · subst hi
    cases d <;> simp
  · cases d <;> simp [hi, Ne.symm hi]

/-- After an insertion every project is as the insertion left it, or is paged out. -/
theorem insert_cases {d : Bool} (h : c.insert id state d = (c', evicted)) (i : String) :
    (c'.graphs[i]? = (if id = i then some state else c.graphs[i]?) ∧
      (i ∈ c'.dirty ↔ if id = i then d = true else i ∈ c.dirty)) ∨
    ∃ s, (if id = i then some state else c.graphs[i]?) = some s ∧ c'.graphs[i]? = none ∧
      i ∉ c'.dirty ∧
      ⟨i, if (if id = i then d = true else i ∈ c.dirty) then some s else none⟩ ∈ evicted := by
  rcases evict_cases h i with ⟨hg, hd⟩ | ⟨s, hg, hnone, hclean, hmem⟩
  · exact Or.inl ⟨hg.trans (BTreeMap.get_insert ..), hd.trans (mem_insert_dirty i)⟩
  · refine Or.inr ⟨s, (BTreeMap.get_insert ..).symm.trans hg, hnone, hclean, ?_⟩
    simpa only [mem_insert_dirty] using hmem

theorem insert_evicted {d : Bool} (h : c.insert id state d = (c', evicted)) {e : Evicted σ}
    (he : e ∈ evicted) : ∃ s, (if id = e.id then some state else c.graphs[e.id]?) = some s ∧
      e.state = if (if id = e.id then d = true else e.id ∈ c.dirty) then some s else none := by
  obtain ⟨s, hg, hs⟩ := evict_evicted h he
  refine ⟨s, (BTreeMap.get_insert ..).symm.trans hg, ?_⟩
  simpa only [mem_insert_dirty] using hs

end Spec

end ProjectStateCache

end Filigrio.Daemon
