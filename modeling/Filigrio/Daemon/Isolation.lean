import Filigrio.Daemon.Flush

/-!
# Filigrio.Daemon.Isolation

Which root the states of the flusher belong to. Projects are known by the base name of
their root, and a removal leaves the cache, the dirty map and the output-directory map
as they are; a root that takes over an id takes over what is left under it. `Tidy` is
what holds as long as nothing is left when that happens.
-/

namespace Filigrio.Daemon.Flush

/-! ### What a thread holds -/

/-- The project id that goes with an output directory: the base name of the root. -/
def idOf (dir : Path) : String := Project.projectId dir.dropLast

theorem Derived.id_eq {p : Project} (h : Derived p) : p.id = idOf p.outputDir := by
  rw [h.1, h.2, idOf, Project.new, List.dropLast_concat]

theorem derived_new (root : Path) : Derived (.new root) := ⟨rfl, rfl⟩

/-- The states of a list that must be written back. -/
def heldOf (es : List (Evicted Version)) : List (String × Version) :=
  es.filterMap fun e => e.state.map fun v => (e.id, v)

theorem mem_heldOf {es : List (Evicted Version)} {x : String × Version} :
    x ∈ heldOf es ↔ ⟨x.1, some x.2⟩ ∈ es := by
  obtain ⟨id, v⟩ := x
  simp only [heldOf, List.mem_filterMap, Option.map_eq_some_iff, Prod.mk.injEq]
  constructor
  · rintro ⟨⟨id', state⟩, he, v', rfl, rfl, rfl⟩
    exact he
  · exact fun he => ⟨_, he, v, rfl, rfl, rfl⟩

/-- The answer of `state_of` belongs to the directory. -/
def After.Owned (dir : Path) : After → Prop
  | .served (some v) => v.owner = dir
  | _ => True

namespace Pc

/-- The states a thread is to write back for an eviction. -/
def held : Pc → List (String × Version)
  | evict es _ | unmark es | mark _ es => heldOf es
  | findDir id v es _ | writeBack id _ v es _ => (id, v) :: heldOf es
  | _ => []

/-- The thread has not yet used the tables for its own project, but for asking whether
it is resident or dirty. -/
def early : Pc → Bool
  | acquire | probe | hasCheckpoint | remember | check | acquireFlush | checkLocked
  | snapshot | served _ | done _ => true
  | _ => false

/-- What the thread has in hand for its own project belongs to its directory, and what
it is about to write back to where it goes. -/
def Owned (dir : Path) : Pc → Prop
  | install v _ | mutate v | reload v | mark v _ | served v => v.owner = dir
  | evict _ k | findDir _ _ _ k => k.Owned dir
  | writeBack _ dir' v _ k => v.owner = dir' ∧ k.Owned dir
  | peek dir' => dir' = dir
  | flushWrite dir' v => dir' = dir ∧ v.owner = dir
  | _ => True

end Pc

/-! ### The invariant -/

/-- The root of the directory is registered under the id, or has a thread at work. -/
def Live (w : World) (id : String) (dir : Path) : Prop :=
  (∃ p, w.registry[id]? = some p ∧ p.outputDir = dir) ∨
    ∃ t ∈ w.threads, t.pc.ended = false ∧ t.id = id ∧ t.dir = dir

/-- Nothing is left under the id: it is neither resident nor dirty nor on its way to be
written back, and no thread has begun to use the tables for it. -/
def Vacant (w : World) (id : String) : Prop :=
  w.cache.graphs[id]? = none ∧ id ∉ w.dirty ∧ ∀ t ∈ w.threads,
    (∀ x ∈ t.pc.held, x.1 ≠ id) ∧ (t.id = id → t.pc.early = true)

structure Thread.Tidy (outDirs : BTreeMap String Path) (t : Thread) : Prop where
  named : t.id = idOf t.dir
  placed : t.pc.early = true ∨ outDirs[t.id]? = some t.dir
  owned : t.pc.Owned t.dir
  held : ∀ x ∈ t.pc.held, outDirs[x.1]? = some x.2.owner

/-- Every state belongs where it is, and is written, and goes under one root. -/
structure Tidy (w : World) : Prop where
  registered : ∀ (id : String) (p : Project), w.registry[id]? = some p → Derived p ∧ p.id = id
  thread : ∀ t ∈ w.threads, t.Tidy w.outDirs
  cached : ∀ (id : String) (v : Version), w.cache.graphs[id]? = some v →
    w.outDirs[id]? = some v.owner
  marked : ∀ id ∈ w.dirty, ∃ dir, w.outDirs[id]? = some dir
  dirs : ∀ (id : String) (dir : Path), w.outDirs[id]? = some dir → id = idOf dir
  /-- Only a vacant id may be used by another root than it was. -/
  live : ∀ id dir, Live w id dir → Vacant w id ∨ w.outDirs[id]? = some dir
  agree : ∀ id dir dir', Live w id dir → Live w id dir' → dir = dir'
  disk : ∀ dir v, w.disk dir = some v → v.owner = dir
  exported : ∀ dir v, w.graphJson dir = some v → v.owner = dir
  last : ∀ dir, (w.last dir).owner = dir

section Steps

variable {w w' : World} {t t' : Thread} {i : ℕ} {id : String} {dir : Path} {c : Choice} {v : Version}

theorem Tidy.checkpoint (h : Tidy w) (dir : Path) : (w.checkpoint dir).owner = dir := by
  unfold World.checkpoint
  cases hd : w.disk dir with
  | none => rfl
  | some v => exact h.disk dir v hd

theorem Live.of_thread (ht : t ∈ w.threads) (hpc : t.pc.ended = false) : Live w t.id t.dir :=
  Or.inr ⟨t, ht, hpc, rfl, rfl⟩

/-- A thread past its beginning has its directory in the map. -/
theorem Tidy.placed (h : Tidy w) (ht : t ∈ w.threads) (hpc : t.pc.early = false) :
    w.outDirs[t.id]? = some t.dir :=
  ((h.thread t ht).placed).resolve_left (by simp [hpc])

/-- What is held for a write-back keeps its id from being vacant. -/
theorem not_vacant_of_held (ht : t ∈ w.threads) {x : String × Version} (hx : x ∈ t.pc.held) :
    ¬ Vacant w x.1 := fun hv => (hv.2.2 t ht).1 x hx rfl

/-- A thread moves on. -/
theorem tidy_goto (h : Tidy w) (hi : w.threads[i]? = some t) (hpc : t.pc.ended = false)
    (hid : t'.id = t.id) (hdir : t'.dir = t.dir)
    (hplaced : t'.pc.early = true ∨ w.outDirs[t.id]? = some t.dir)
    (howned : t'.pc.Owned t.dir)
    (hheld : ∀ x ∈ t'.pc.held, w.outDirs[x.1]? = some x.2.owner ∧ ¬ Vacant w x.1) :
    Tidy (w.setThread i t') := by
  have ht : t ∈ w.threads := List.mem_of_getElem? hi
  have hlt := List.lt_of_getElem?_eq_some hi
  have hmem : ∀ u ∈ w.threads.set i t', u = t' ∨ u ∈ w.threads := by
    intro u hu
    obtain ⟨j, hj⟩ := List.getElem?_of_mem hu
    rcases List.getElem?_set_cases hlt hj with ⟨-, rfl⟩ | ⟨-, hj⟩
    · exact Or.inl rfl
    · exact Or.inr (List.mem_of_getElem? hj)
  have hlive : ∀ id dir, Live (w.setThread i t') id dir → Live w id dir := by
    rintro id dir (hr | ⟨u, hu, hend, rfl, rfl⟩)
    · exact Or.inl hr
    · rcases hmem u hu with rfl | hu
      · exact hid ▸ hdir ▸ Live.of_thread ht hpc
      · exact Live.of_thread hu hend
  refine
    { registered := h.registered
      thread := fun u hu => ?_
      cached := h.cached
      marked := h.marked
      dirs := h.dirs
      live := fun id dir hl => ?_
      agree := fun id dir dir' hl hl' => h.agree id dir dir' (hlive _ _ hl) (hlive _ _ hl')
      disk := h.disk
      exported := h.exported
      last := h.last }
  · rcases hmem u hu with rfl | hu
    · exact ⟨by rw [hid, hdir]; exact (h.thread t ht).named, by rw [hid, hdir]; exact hplaced,
        by rw [hdir]; exact howned, fun x hx => (hheld x hx).1⟩
    · exact h.thread u hu
  · refine (h.live id dir (hlive _ _ hl)).elim (fun hv => ?_) Or.inr
    by_cases hsame : t'.id = id ∧ t'.pc.early = false
    · -- the thread itself now uses the id
      obtain ⟨rfl, hearly⟩ := hsame
      have hp := hplaced.resolve_left (by simp [hearly])
      have hagree := h.agree t'.id dir t.dir (hlive _ _ hl) (hid ▸ Live.of_thread ht hpc)
      exact Or.inr (by rw [hagree]; exact hid ▸ hp)
    · refine Or.inl ⟨hv.1, hv.2.1, fun u hu => ?_⟩
      rcases hmem u hu with rfl | hu
      · refine ⟨fun x hx heq => (hheld x hx).2 (heq ▸ hv), fun heq => ?_⟩
        by_contra hne
        exact hsame ⟨heq, by simpa using hne⟩
      · exact hv.2.2 u hu

/-- A thread moves on without a new eviction. -/
theorem tidy_move (h : Tidy w) (hi : w.threads[i]? = some t) (hpc : t.pc.ended = false)
    (hid : t'.id = t.id) (hdir : t'.dir = t.dir)
    (hplaced : t'.pc.early = true ∨ t.pc.early = false)
    (howned : t'.pc.Owned t.dir) (hheld : ∀ x ∈ t'.pc.held, x ∈ t.pc.held) :
    Tidy (w.setThread i t') := by
  have ht : t ∈ w.threads := List.mem_of_getElem? hi
  exact tidy_goto h hi hpc hid hdir (hplaced.imp id (h.placed ht)) howned fun x hx =>
    ⟨(h.thread t ht).held x (hheld x hx), not_vacant_of_held ht (hheld x hx)⟩

/-- A live root's directory is put into the map. -/
theorem tidy_setDir (h : Tidy w) (hl : Live w id dir) (hid : id = idOf dir) :
    Tidy (w.setDir id dir) := by
  have hget : ∀ (j : String), (w.setDir id dir).outDirs[j]? =
      if id = j then some dir else w.outDirs[j]? := fun j => BTreeMap.get_insert ..
  -- an entry that is in use is there already
  have hsame : ∀ (j : String) (d : Path), ¬ Vacant w j → w.outDirs[j]? = some d →
      (w.setDir id dir).outDirs[j]? = some d := by
    intro j d hv hd
    rw [hget]
    split
    · rename_i heq
      subst heq
      exact ((h.live id dir hl).resolve_left hv).symm.trans hd
    · exact hd
  refine
    { registered := h.registered
      thread := fun t ht => ?_
      cached := fun j v hj => hsame j _ (fun hv => ?_) (h.cached j v hj)
      marked := fun j hj => ?_
      dirs := fun j d hd => ?_
      live := fun j d hlj => ?_
      agree := h.agree
      disk := h.disk
      exported := h.exported
      last := h.last }
  · have hthread := h.thread t ht
    refine ⟨hthread.named, ?_, hthread.owned, fun x hx =>
      hsame _ _ (not_vacant_of_held ht hx) (hthread.held x hx)⟩
    by_cases hearly : t.pc.early = true
    · exact Or.inl hearly
    · refine Or.inr (hsame _ _ (fun hv => hearly ((hv.2.2 t ht).2 rfl)) ?_)
      exact h.placed ht (by simpa using hearly)
  · cases hv.1.symm.trans hj
  · rw [hget]
    split
    · exact ⟨dir, rfl⟩
    · exact h.marked j hj
  · rw [hget] at hd
    split at hd
    · rename_i heq
      cases hd
      exact heq ▸ hid
    · exact h.dirs j d hd
  · by_cases heq : id = j
    · subst heq
      refine Or.inr ((hget _).trans ?_)
      rw [if_pos rfl, h.agree id dir d hl hlj]
    · exact (h.live j d hlj).imp (fun hv => hv) fun hd => by rw [hget, if_neg heq]; exact hd

/-- The cache changes, for a root that uses its id. -/
theorem tidy_setCache (id : String) (dir : Path) (h : Tidy w) (hl : Live w id dir) (hplaced : w.outDirs[id]? = some dir)
    {cache : ProjectStateCache Version}
    (hcache : ∀ (j : String) (v : Version), cache.graphs[j]? = some v →
      (id = j ∧ v.owner = dir) ∨ w.cache.graphs[j]? = some v) : Tidy (w.setCache cache) where
  registered := h.registered
  thread := h.thread
  cached j v hj := by
    rcases hcache j v hj with ⟨rfl, rfl⟩ | hj
    · exact hplaced
    · exact h.cached j v hj
  marked := h.marked
  dirs := h.dirs
  live j d hlj := by
    refine (h.live j d hlj).elim (fun hv => ?_) Or.inr
    by_cases heq : id = j
    · subst heq
      exact Or.inr (h.agree id dir d hl hlj ▸ hplaced)
    · refine Or.inl ⟨?_, hv.2⟩
      cases hj : (w.setCache cache).cache.graphs[j]? with
      | none => rfl
      | some v =>
          rcases hcache j v hj with ⟨heq', -⟩ | hj
          · exact absurd heq' heq
          · rw [hv.1] at hj
            cases hj
  agree := h.agree
  disk := h.disk
  exported := h.exported
  last := h.last

/-- The cache is as it was, but for recency and marks. -/
theorem tidy_sameCache (h : Tidy w) {cache : ProjectStateCache Version}
    (hcache : cache.graphs = w.cache.graphs) : Tidy (w.setCache cache) where
  registered := h.registered
  thread := h.thread
  cached j v hj := h.cached j v (by rw [← hcache]; exact hj)
  marked := h.marked
  dirs := h.dirs
  live j d hl := (h.live j d hl).imp (fun hv => ⟨by rw [← hv.1, ← hcache]; rfl, hv.2⟩) id
  agree := h.agree
  disk := h.disk
  exported := h.exported
  last := h.last

theorem tidy_unmark (h : Tidy w) (id : String) : Tidy (w.unmark id) where
  registered := h.registered
  thread := h.thread
  cached := h.cached
  marked j hj := h.marked j (Finset.mem_of_mem_erase hj)
  dirs := h.dirs
  live j d hl := (h.live j d hl).imp
    (fun hv => ⟨hv.1, fun hj => hv.2.1 (Finset.mem_of_mem_erase hj), hv.2.2⟩) (fun hd => hd)
  agree := h.agree
  disk := h.disk
  exported := h.exported
  last := h.last

theorem tidy_mark (h : Tidy w) (hl : Live w id dir) (hplaced : w.outDirs[id]? = some dir) :
    Tidy (w.mark id) where
  registered := h.registered
  thread := h.thread
  cached := h.cached
  marked j hj := by
    rcases Finset.mem_insert.mp hj with rfl | hj
    · exact ⟨dir, hplaced⟩
    · exact h.marked j hj
  dirs := h.dirs
  live j d hlj := by
    refine (h.live j d hlj).elim (fun hv => ?_) Or.inr
    by_cases heq : j = id
    · subst heq
      exact Or.inr (h.agree j dir d hl hlj ▸ hplaced)
    · refine Or.inl ⟨hv.1, fun hj => ?_, hv.2.2⟩
      exact (Finset.mem_insert.mp hj).elim heq hv.2.1
  agree := h.agree
  disk := h.disk
  exported := h.exported
  last := h.last

theorem tidy_save (h : Tidy w) (hv : v.owner = dir) : Tidy (w.save dir v) where
  registered := h.registered
  thread := h.thread
  cached := h.cached
  marked := h.marked
  dirs := h.dirs
  live := h.live
  agree := h.agree
  disk d v' hd := by
    by_cases heq : d = dir
    · subst heq
      simp only [World.save, Function.update_self, Option.some.injEq] at hd
      exact hd ▸ hv
    · simp only [World.save, Function.update_of_ne heq] at hd
      exact h.disk d v' hd
  exported := h.exported
  last := h.last

theorem tidy_publish (h : Tidy w) (v : Version) : Tidy (w.publish v) where
  registered := h.registered
  thread := h.thread
  cached := h.cached
  marked := h.marked
  dirs := h.dirs
  live := h.live
  agree := h.agree
  disk := h.disk
  exported := h.exported
  last d := by
    by_cases heq : d = v.owner
    · subst heq
      simp [World.publish]
    · simpa [World.publish, heq] using h.last d

theorem tidy_settle (h : Tidy w) (v : Version) : Tidy (w.settle v) := { h with }

theorem tidy_derive (h : Tidy w) (dir : Path) : Tidy (w.derive dir) where
  registered := h.registered
  thread := h.thread
  cached := h.cached
  marked := h.marked
  dirs := h.dirs
  live := h.live
  agree := h.agree
  disk := h.disk
  exported d v hd := by
    by_cases heq : d = dir
    · subst heq
      simp only [World.derive, Function.update_self, Option.some.injEq] at hd
      exact hd ▸ h.checkpoint d
    · simp only [World.derive, Function.update_of_ne heq] at hd
      exact h.exported d v hd
  last := h.last

/-! ### The accesses -/

/-- What an insertion for the thread's own project pages out. -/
theorem held_insert (h : Tidy w) (ht : t ∈ w.threads) (hearly : t.pc.early = false)
    (hv : v.owner = t.dir) {d : Bool} {cache : ProjectStateCache Version}
    {es : List (Evicted Version)} (hins : w.cache.insert t.id v d = (cache, es))
    {x : String × Version} (hx : x ∈ heldOf es) :
    w.outDirs[x.1]? = some x.2.owner ∧ ¬ Vacant w x.1 := by
  obtain ⟨s, hs, hstate⟩ := ProjectStateCache.insert_evicted hins (mem_heldOf.mp hx)
  have hsx : x.2 = s :=
    (Option.some.inj (Option.ite_none_right_eq_some.mp hstate.symm).2).symm
  subst hsx
  dsimp only at hs
  split at hs
  · rename_i heq
    cases hs
    rw [← heq, hv]
    exact ⟨h.placed ht hearly, fun hvac => by simp [(hvac.2.2 t ht).2 rfl] at hearly⟩
  · exact ⟨h.cached _ _ hs, fun hvac => by rw [hvac.1] at hs; cases hs⟩

/-- After an insertion for a project the cache has its state, or what it had. -/
theorem cache_insert {d : Bool} {cache : ProjectStateCache Version} {es : List (Evicted Version)}
    (hins : w.cache.insert id v d = (cache, es)) {j : String} {v' : Version}
    (hj : cache.graphs[j]? = some v') :
    (id = j ∧ v' = v) ∨ id ≠ j ∧ w.cache.graphs[j]? = some v' := by
  rcases ProjectStateCache.insert_cases hins j with ⟨hg, -⟩ | ⟨_, -, hnone, -⟩
  · rw [hg] at hj
    split at hj
    · rename_i heq
      cases hj
      exact Or.inl ⟨heq, rfl⟩
    · rename_i hne
      exact Or.inr ⟨hne, hj⟩
  · rw [hnone] at hj
    cases hj

/-- An early thread holds nothing. -/
theorem Pc.held_of_early {pc : Pc} (h : pc.early = true) : pc.held = [] := by
  cases pc <;> first | rfl | cases h

/-- A thread goes to where it uses nothing. -/
theorem tidy_early (h : Tidy w) (hi : w.threads[i]? = some t) (hpc : t.pc.ended = false)
    (hid : t'.id = t.id) (hdir : t'.dir = t.dir) (hearly : t'.pc.early = true)
    (howned : t'.pc.Owned t.dir) : Tidy (w.setThread i t') :=
  tidy_move h hi hpc hid hdir (Or.inl hearly) howned
    (by simp [Pc.held_of_early hearly])

/-- A resident state belongs to the root that is live under its id. -/
theorem owner_of_resident (h : Tidy w) (hl : Live w id dir)
    (hv : w.cache.graphs[id]? = some v) : v.owner = dir := by
  have hplaced := (h.live id dir hl).resolve_left fun hvac => by
    rw [hvac.1] at hv
    cases hv
  exact Option.some.inj ((h.cached id v hv).symm.trans hplaced)

theorem resume_owned {k : After} (hk : k.Owned dir) : (t.resume k).Owned dir := by
  unfold Thread.resume
  split
  · split <;> exact hk
  · trivial
  · split <;> trivial

theorem resume_held (k : After) : (t.resume k).held = [] := by
  unfold Thread.resume
  split
  · split <;> rfl
  · rfl
  · split <;> rfl

theorem flushed_early : t.flushed.early = true := by
  unfold Thread.flushed
  split <;> rfl

theorem flushed_owned : t.flushed.Owned dir := by
  unfold Thread.flushed
  split <;> trivial

theorem tidy_host (h : Tidy w) (hi : w.threads[i]? = some t) (hexec : w.host t c = some (w', t')) :
    Tidy (w'.setThread i t') := by
  have ht := List.mem_of_getElem? hi
  obtain ⟨id, dir, task, pc, seen⟩ := t
  unfold World.host at hexec
  dsimp only at hexec
  split at hexec
  · -- the lock is taken
    split at hexec
    · cases hexec
      cases task <;> exact tidy_early h hi rfl rfl rfl rfl trivial
    · cases hexec
  · split at hexec
    · rename_i v cache hget
      cases hexec
      have hv : w.cache.graphs[id]? = some v := by rw [← ProjectStateCache.getArc_fst, hget]
      have hgraphs : cache.graphs = w.cache.graphs := by
        rw [← @ProjectStateCache.getArc_graphs _ w.cache id, hget]
      exact tidy_early (tidy_sameCache h hgraphs) hi rfl rfl rfl rfl
        (owner_of_resident h (Live.of_thread ht rfl) hv)
    · cases hexec
      exact tidy_early h hi rfl rfl rfl rfl trivial
  · cases hexec
    split <;> exact tidy_early h hi rfl rfl rfl rfl trivial
  · cases hexec
    exact tidy_early h hi rfl rfl rfl rfl trivial
  · -- nothing to record
    cases hexec
    exact tidy_move h hi rfl rfl rfl (Or.inr rfl) (resume_owned (k := .recorded) trivial)
      (by simp [Thread.goto, resume_held])
  · cases hexec
    exact tidy_move h hi rfl rfl rfl (Or.inr rfl) trivial (fun x hx => hx)
  · cases hexec
    exact tidy_early (tidy_derive h dir) hi rfl rfl rfl rfl trivial
  · cases hexec
    exact tidy_early h hi rfl rfl rfl rfl trivial
  · cases hexec

/-- An insertion for the thread's own project, and the thread takes what is paged out. -/
theorem tidy_insert (t' : Thread) (h : Tidy w) (hi : w.threads[i]? = some t) (hearly : t.pc.early = false)
    (hv : v.owner = t.dir) {d : Bool} {cache : ProjectStateCache Version}
    {es : List (Evicted Version)} (hins : w.cache.insert t.id v d = (cache, es))
    (hid : t'.id = t.id) (hdir : t'.dir = t.dir) (hend : t'.pc.ended = false)
    (howned : t'.pc.Owned t.dir) (hheld : t'.pc.held = heldOf es) :
    Tidy ((w.setCache cache).setThread i t') := by
  have ht := List.mem_of_getElem? hi
  have hpc : t.pc.ended = false := by
    cases hpc : t.pc <;> first | rfl | (rw [hpc] at hearly; cases hearly)
  have hgo : Tidy (w.setThread i t') := by
    refine tidy_goto h hi hpc hid hdir (Or.inr (h.placed ht hearly)) howned fun x hx => ?_
    rw [hheld] at hx
    exact held_insert h ht hearly hv hins hx
  have hmem : t' ∈ (w.setThread i t').threads :=
    List.mem_set (List.lt_of_getElem?_eq_some hi) _
  refine tidy_setCache t.id t.dir hgo (hid ▸ hdir ▸ Live.of_thread hmem hend)
    (h.placed ht hearly) fun j v' hj => ?_
  rcases cache_insert hins hj with ⟨hj, rfl⟩ | ⟨-, hj⟩
  · exact Or.inl ⟨hj, hv⟩
  · exact Or.inr hj

theorem tidy_stateOf (h : Tidy w) (hi : w.threads[i]? = some t)
    (hexec : w.stateOf t c = some (w', t')) : Tidy (w'.setThread i t') := by
  have ht := List.mem_of_getElem? hi
  have hthread := h.thread t ht
  obtain ⟨id, dir, task, pc, seen⟩ := t
  unfold World.stateOf at hexec
  dsimp only at hexec
  split at hexec
  · cases hexec
    have hdirs := tidy_setDir h (Live.of_thread ht rfl) hthread.named
    refine tidy_goto hdirs hi rfl rfl rfl (Or.inr ?_) trivial (fun x hx => by cases hx)
    show (w.outDirs.insert id dir)[id]? = some dir
    rw [BTreeMap.get_insert, if_pos rfl]
  · split at hexec
    · rename_i v cache hget
      cases hexec
      have hv : w.cache.graphs[id]? = some v := by rw [← ProjectStateCache.getArc_fst, hget]
      have hgraphs : cache.graphs = w.cache.graphs := by
        rw [← @ProjectStateCache.getArc_graphs _ w.cache id, hget]
      have howner : After.Owned dir (.served (some v)) :=
        owner_of_resident h (Live.of_thread ht rfl) hv
      exact tidy_move (tidy_sameCache h hgraphs) hi rfl rfl rfl (Or.inr rfl) (resume_owned howner)
        (by simp [Thread.goto, resume_held])
    · cases hexec
      exact tidy_move h hi rfl rfl rfl (Or.inr rfl) trivial (fun x hx => hx)
  · cases hexec
    exact tidy_move h hi rfl rfl rfl (Or.inr rfl) (h.checkpoint dir) (fun x hx => hx)
  · cases hexec
    exact tidy_early h hi rfl rfl rfl rfl trivial
  · -- the page is in the cache
    rename_i v seen'
    cases hins : w.cache.loadInto id v with
    | mk cache es =>
        simp only [hins] at hexec
        cases hexec
        have hlive : Live w id dir := Live.of_thread ht rfl
        have howned : v.owner = dir := hthread.owned
        have hpage := tidy_insert
          { id := id, dir := dir, task := task, seen := seen,
            pc := .evict es (.served (cache.getArc id).1) } h hi rfl howned hins rfl rfl rfl ?_ rfl
        · exact tidy_sameCache hpage ProjectStateCache.getArc_graphs
        · show After.Owned dir (.served (cache.getArc id).1)
          rw [ProjectStateCache.getArc_fst]
          cases hanswer : cache.graphs[id]? with
          | none => trivial
          | some v' =>
              rcases cache_insert hins hanswer with ⟨-, rfl⟩ | ⟨-, hold⟩
              · exact howned
              · exact owner_of_resident h hlive hold
  · cases hexec

theorem tidy_flushEvicted (h : Tidy w) (hi : w.threads[i]? = some t)
    (hexec : w.flushEvicted t c = some (w', t')) : Tidy (w'.setThread i t') := by
  have hthread := h.thread t (List.mem_of_getElem? hi)
  obtain ⟨id, dir, task, pc, seen⟩ := t
  unfold World.flushEvicted at hexec
  dsimp only at hexec
  split at hexec
  · cases hexec
    exact tidy_move h hi rfl rfl rfl (Or.inr rfl) (resume_owned hthread.owned)
      (by simp [Thread.goto, resume_held])
  · rename_i e es k
    cases hexec
    obtain ⟨id', state⟩ := e
    cases state with
    | some v =>
        exact tidy_move (tidy_unmark h id') hi rfl rfl rfl (Or.inr rfl) hthread.owned
          (fun x hx => hx)
    | none =>
        exact tidy_move (tidy_unmark h id') hi rfl rfl rfl (Or.inr rfl) hthread.owned
          (fun x hx => hx)
  · rename_i id' v es k
    cases hexec
    cases hdir' : w.outDirs[id']? with
    | some dir' =>
        have howner := (hthread.held (id', v) List.mem_cons_self).symm.trans hdir'
        exact tidy_move h hi rfl rfl rfl (Or.inr rfl) ⟨Option.some.inj howner, hthread.owned⟩
          (fun x hx => hx)
    | none => exact tidy_early h hi rfl rfl rfl rfl trivial
  · rename_i id' dir' v es k
    cases hexec
    exact tidy_move (tidy_save h hthread.owned.1) hi rfl rfl rfl (Or.inr rfl) hthread.owned.2
      (fun x hx => List.mem_cons_of_mem _ hx)
  · cases hexec
    exact tidy_early h hi rfl rfl rfl rfl trivial
  · cases hexec

theorem tidy_recordApply (h : Tidy w) (hi : w.threads[i]? = some t)
    (hexec : w.recordApply t c = some (w', t')) : Tidy (w'.setThread i t') := by
  have ht := List.mem_of_getElem? hi
  have hthread := h.thread t ht
  obtain ⟨id, dir, task, pc, seen⟩ := t
  unfold World.recordApply at hexec
  dsimp only at hexec
  split at hexec
  · cases hexec
    have hdirs := tidy_setDir h (Live.of_thread ht rfl) hthread.named
    split <;> exact tidy_move hdirs hi rfl rfl rfl (Or.inr rfl) trivial (fun x hx => hx)
  · rename_i s
    cases hexec
    have hsave : Tidy (w.save dir (w.version dir s)) := tidy_save h rfl
    exact tidy_move (tidy_settle (tidy_publish hsave _) _) hi rfl rfl rfl (Or.inr rfl)
      rfl (fun x hx => hx)
  · cases hexec
    exact tidy_early h hi rfl rfl rfl rfl trivial
  · rename_i v
    cases hins : w.cache.loadInto id v with
    | mk cache es =>
        simp only [hins] at hexec
        cases hexec
        exact tidy_insert _ h hi rfl hthread.owned hins rfl rfl rfl trivial rfl
  · cases hexec
    exact tidy_move (tidy_unmark h id) hi rfl rfl rfl (Or.inr rfl) trivial (fun x hx => hx)
  · rename_i s
    cases hins : w.cache.put id (w.version dir s) with
    | mk cache es =>
        simp only [hins] at hexec
        cases hexec
        have hput := tidy_insert
          { id := id, dir := dir, task := task, seen := seen,
            pc := .mark (w.version dir s) es } h hi rfl rfl hins rfl rfl rfl rfl rfl
        exact tidy_publish hput (w.version dir s)
  · rename_i v es
    cases hexec
    have hmark := tidy_mark h (Live.of_thread ht rfl) (h.placed ht rfl)
    exact tidy_move (tidy_settle hmark v) hi rfl rfl rfl (Or.inr rfl) trivial (fun x hx => hx)
  · cases hexec

theorem tidy_flushProject (h : Tidy w) (hi : w.threads[i]? = some t)
    (hexec : w.flushProject t c = some (w', t')) : Tidy (w'.setThread i t') := by
  have ht := List.mem_of_getElem? hi
  have hthread := h.thread t ht
  obtain ⟨id, dir, task, pc, seen⟩ := t
  unfold World.flushProject at hexec
  dsimp only at hexec
  split at hexec
  · split at hexec <;> cases hexec <;> exact tidy_early h hi rfl rfl rfl rfl trivial
  · split at hexec
    · cases hexec
      exact tidy_early h hi rfl rfl rfl rfl trivial
    · cases hexec
  · split at hexec
    · -- a dirty id is in use, so by the thread's own root
      rename_i hdirty
      cases hexec
      have hplaced := (h.live id dir (Live.of_thread ht rfl)).resolve_left
        fun hv => hv.2.1 hdirty
      exact tidy_goto h hi rfl rfl rfl (Or.inr hplaced) trivial (fun x hx => by cases hx)
    · cases hexec
      exact tidy_early h hi rfl rfl rfl flushed_early flushed_owned
  · cases hexec
    have hplaced : w.outDirs[id]? = some dir := h.placed ht rfl
    rw [hplaced]
    exact tidy_move h hi rfl rfl rfl (Or.inr rfl) rfl (fun x hx => hx)
  · rename_i dir'
    cases hexec
    split
    · rename_i v hv
      have howner := owner_of_resident h (Live.of_thread ht rfl) hv
      exact tidy_move h hi rfl rfl rfl (Or.inr rfl) ⟨hthread.owned, howner⟩ (fun x hx => hx)
    · exact tidy_move h hi rfl rfl rfl (Or.inr rfl) trivial (fun x hx => hx)
  · cases hexec
    exact tidy_early (tidy_unmark h id) hi rfl rfl rfl rfl trivial
  · cases hexec
    obtain ⟨rfl, howner⟩ := hthread.owned
    exact tidy_move (tidy_save h howner) hi rfl rfl rfl (Or.inr rfl) trivial (fun x hx => hx)
  · cases hexec
    exact tidy_early h hi rfl rfl rfl rfl trivial
  · cases hexec
    exact tidy_move (tidy_sameCache h rfl) hi rfl rfl rfl (Or.inr rfl) trivial (fun x hx => hx)
  · cases hexec
    exact tidy_early (tidy_unmark h id) hi rfl rfl rfl flushed_early flushed_owned
  · cases hexec

theorem tidy_exec (h : Tidy w) (hi : w.threads[i]? = some t) (hexec : w.exec t c = some (w', t')) :
    Tidy (w'.setThread i t') := by
  unfold World.exec at hexec
  split at hexec <;> first
    | exact tidy_host h hi hexec
    | exact tidy_stateOf h hi hexec
    | exact tidy_flushEvicted h hi hexec
    | exact tidy_recordApply h hi hexec
    | exact tidy_flushProject h hi hexec
    | cases hexec

/-- A thread begins, for a root that is live. -/
theorem tidy_spawn (h : Tidy w) (task : Task) (hid : id = idOf dir)
    (hlive : Live w id dir ∨ w.outDirs[id]? = some dir ∧ ¬ Vacant w id) :
    Tidy (w.spawn (.start id dir task)) := by
  have hearly : (Thread.start id dir task).pc.early = true := by
    cases task with
    | query warm => cases warm <;> rfl
    | _ => rfl
  have howned : (Thread.start id dir task).pc.Owned dir := by
    cases task with
    | query warm => cases warm <;> trivial
    | _ => trivial
  have hmem : ∀ u ∈ (w.spawn (.start id dir task)).threads,
      u ∈ w.threads ∨ u = .start id dir task := by
    intro u hu
    simpa [World.spawn] using hu
  have hagree : ∀ d, Live w id d → d = dir := by
    intro d hd
    rcases hlive with hl | ⟨hdir, hvac⟩
    · exact h.agree id d dir hd hl
    · exact Option.some.inj (((h.live id d hd).resolve_left hvac).symm.trans hdir)
  have hcases : ∀ j d, Live (w.spawn (.start id dir task)) j d →
      Live w j d ∨ j = id ∧ d = dir := by
    rintro j d (hr | ⟨u, hu, hend, rfl, rfl⟩)
    · exact Or.inl (Or.inl hr)
    · rcases hmem u hu with hu | rfl
      · exact Or.inl (Live.of_thread hu hend)
      · exact Or.inr ⟨rfl, rfl⟩
  refine
    { h with
      thread := fun u hu => ?_
      live := fun j d hl => ?_
      agree := fun j d d' hl hl' => ?_ }
  · rcases hmem u hu with hu | rfl
    · exact h.thread u hu
    · exact ⟨hid, Or.inl hearly, howned, by simp [Pc.held_of_early hearly]⟩
  · have hold : Vacant w j ∨ w.outDirs[j]? = some d := by
      rcases hcases j d hl with hl | ⟨rfl, rfl⟩
      · exact h.live j d hl
      · exact hlive.elim (h.live j d) fun hd => Or.inr hd.1
    refine hold.imp (fun hv => ⟨hv.1, hv.2.1, fun u hu => ?_⟩) fun hd => hd
    rcases hmem u hu with hu | rfl
    · exact hv.2.2 u hu
    · exact ⟨by simp [Pc.held_of_early hearly], fun _ => hearly⟩
  · rcases hcases j d hl with hold | ⟨rfl, rfl⟩
    · rcases hcases j d' hl' with hold' | ⟨rfl, rfl⟩
      · exact h.agree j d d' hold hold'
      · exact hagree d hold
    · rcases hcases j d' hl' with hold' | ⟨-, rfl⟩
      · exact (hagree d' hold').symm
      · rfl

end Steps

/-! ### Isolation -/

/-- A root takes over an id only when no thread is at work for another root under it,
and nothing of another root is left under it. -/
def TakesOverClean (w : World) : Action → Prop
  | .register root =>
    let p := Project.new root
    (∀ t ∈ w.threads, t.pc.ended = false → t.id = p.id → t.dir = p.outputDir) ∧
      (Vacant w p.id ∨ w.outDirs[p.id]? = some p.outputDir)
  | _ => True

theorem tidy_start {capacity : ℕ} {registry : ProjectRegistry} {disk : Path → Option Version}
    (hreg : ∀ (id : String) (p : Project), registry[id]? = some p → Derived p ∧ p.id = id)
    (hdisk : ∀ dir v, disk dir = some v → v.owner = dir) :
    Tidy (.start capacity registry disk) where
  registered := hreg
  thread t ht := by cases ht
  cached id v hv := by simp [World.start, ProjectStateCache.new] at hv
  marked id hid := by simp [World.start] at hid
  dirs id dir hd := by simp [World.start] at hd
  live id dir _ := Or.inl ⟨by simp [World.start, ProjectStateCache.new], by simp [World.start],
    fun t ht => by cases ht⟩
  agree id dir dir' hl hl' := by
    rcases hl with ⟨p, hp, rfl⟩ | ⟨t, ht, -⟩
    · rcases hl' with ⟨p', hp', rfl⟩ | ⟨t, ht, -⟩
      · cases hp.symm.trans hp'
        rfl
      · cases ht
    · cases ht
  disk := hdisk
  exported dir v hv := by cases hv
  last dir := by
    cases hd : disk dir with
    | none => simp [World.start, hd]
    | some v => simpa [World.start, hd] using hdisk dir v hd

theorem tidy_register {w : World} {root : Path} {r : ProjectRegistry} (h : Tidy w)
    (hok : TakesOverClean w (.register root)) (hadd : w.registry.add (.new root) = some r) :
    Tidy { w with registry := r } := by
  have hget : ∀ id : String, r[id]? =
      if (Project.new root).id = id then some (.new root) else w.registry[id]? := fun id =>
    (ProjectRegistry.get_add _ hadd).2
  have hcases : ∀ id dir, Live { w with registry := r } id dir → Live w id dir ∨
      id = (Project.new root).id ∧ dir = (Project.new root).outputDir := by
    rintro id dir (⟨p, hp, rfl⟩ | ht)
    · rw [show ({ w with registry := r } : World).registry[id]? = _ from hget id] at hp
      split at hp
      · rename_i heq
        cases hp
        exact Or.inr ⟨heq.symm, rfl⟩
      · exact Or.inl (Or.inl ⟨p, hp, rfl⟩)
    · exact Or.inl (Or.inr ht)
  -- no other root was registered under the id
  have hagree : ∀ dir, Live w (Project.new root).id dir → dir = (Project.new root).outputDir := by
    rintro dir (⟨p, hp, rfl⟩ | ⟨t, ht, hend, hid, rfl⟩)
    · have hnot := (ProjectRegistry.get_add p.id hadd).1
      rw [Std.ExtTreeMap.mem_iff_isSome_getElem?, hp] at hnot
      exact absurd rfl hnot
    · exact hok.1 t ht hend hid
  refine
    { h with
      registered := fun id p hp => ?_
      live := fun id dir hl => ?_
      agree := fun id dir dir' hl hl' => ?_ }
  · rw [show ({ w with registry := r } : World).registry[id]? = _ from hget id] at hp
    split at hp
    · rename_i heq
      cases hp
      exact ⟨derived_new root, heq⟩
    · exact h.registered id p hp
  · rcases hcases id dir hl with hl | ⟨rfl, rfl⟩
    · exact h.live id dir hl
    · exact hok.2
  · rcases hcases id dir hl with hl | ⟨rfl, rfl⟩
    · rcases hcases id dir' hl' with hl' | ⟨rfl, rfl⟩
      · exact h.agree id dir dir' hl hl'
      · exact hagree dir hl
    · rcases hcases _ dir' hl' with hl' | ⟨-, rfl⟩
      · exact (hagree dir' hl').symm
      · rfl

theorem tidy_remove {w : World} {id : String} {r : ProjectRegistry} (h : Tidy w)
    (hremove : w.registry.remove id = some r) : Tidy { w with registry := r } := by
  have hold : ∀ (j : String) (p : Project), r[j]? = some p → w.registry[j]? = some p := by
    intro j p hp
    rw [ProjectRegistry.get_remove _ hremove] at hp
    split at hp
    · cases hp
    · exact hp
  have hlive : ∀ j dir, Live { w with registry := r } j dir → Live w j dir := by
    rintro j dir (⟨p, hp, rfl⟩ | ht)
    · exact Or.inl ⟨p, hold j p hp, rfl⟩
    · exact Or.inr ht
  exact
    { h with
      registered := fun j p hp => h.registered j p (hold j p hp)
      live := fun j dir hl => h.live j dir (hlive j dir hl)
      agree := fun j dir dir' hl hl' => h.agree j dir dir' (hlive _ _ hl) (hlive _ _ hl') }

theorem tidy_step {w w' : World} {a : Action} (h : Tidy w) (hok : TakesOverClean w a)
    (hstep : w.step a = some w') : Tidy w' := by
  cases a with
  | register root =>
      obtain ⟨r, hr, rfl⟩ := Option.map_eq_some_iff.mp hstep
      exact tidy_register h hok hr
  | remove id =>
      obtain ⟨r, hr, rfl⟩ := Option.map_eq_some_iff.mp hstep
      exact tidy_remove h hr
  | start id task =>
      obtain ⟨p, hp, rfl⟩ := Option.map_eq_some_iff.mp hstep
      obtain ⟨hderived, rfl⟩ := h.registered id p hp
      exact tidy_spawn h task hderived.id_eq (Or.inl (Or.inl ⟨p, hp, rfl⟩))
  | due id =>
      obtain ⟨hdirty, hstep⟩ := Option.ite_none_right_eq_some.mp hstep
      cases hstep
      obtain ⟨dir, hdir⟩ := h.marked id hdirty
      rw [hdir]
      exact tidy_spawn h _ (h.dirs id dir hdir) (Or.inr ⟨hdir, fun hv => hv.2.1 hdirty⟩)
  | run i c =>
      obtain ⟨t, hi, hstep⟩ := Option.bind_eq_some_iff.mp hstep
      obtain ⟨⟨w₁, t'⟩, hexec, hstep⟩ := Option.bind_eq_some_iff.mp hstep
      cases hstep
      exact tidy_exec h hi hexec

theorem tidy_of_reach {w : World} {ok : World → Action → Prop}
    (hle : ∀ w a, ok w a → TakesOverClean w a) (h : system.Reach ok w) : Tidy w := by
  refine h.invariant ?_ fun w a w' hinv hok hstep => tidy_step hinv (hle w a hok) hstep
  rintro w ⟨capacity, registry, disk, hreg, hdisk, rfl⟩
  exact tidy_start hreg fun dir v hv => (hdisk dir v hv).1

/-- **Projects are isolated.** In every run in which a root takes over an id only when
nothing of another root is left under it, every state that is served or applied onto
belongs to the thread's own root, and so does every checkpoint and export to the
directory it is in. -/
theorem projects_isolated {w : World} (h : system.Reach TakesOverClean w) :
    (∀ t ∈ w.threads, ∀ v, t.pc.answer = some v → v.owner = t.dir) ∧
      (∀ dir v, w.disk dir = some v → v.owner = dir) ∧
      ∀ dir v, w.graphJson dir = some v → v.owner = dir := by
  have htidy := tidy_of_reach (fun _ _ hok => hok) h
  refine ⟨fun t ht v hv => ?_, htidy.disk, htidy.exported⟩
  have howned := (htidy.thread t ht).owned
  cases hpc : t.pc <;> rw [hpc] at hv howned <;> cases hv <;> exact howned

/-- A registered project, and an apply of the producer lane that records a state. -/
def recordRun (root : Path) : List Action :=
  [.register root, .start "app" (.apply .defer)] ++ List.replicate 6 (.run 0 .ok) ++
    [.run 0 (.fresh .empty)] ++ List.replicate 4 (.run 0 .ok)

theorem reach_start (ok : World → Action → Prop) (capacity : ℕ) :
    system.Reach ok (.start capacity ∅ fun _ => none) :=
  .init ⟨capacity, ∅, _, fun id p hp => by simp at hp, fun dir v hv => (by cases hv), rfl⟩

/-- The first root to be registered finds nothing under its id. -/
theorem takesOverClean_start (capacity : ℕ) (root : Path) :
    TakesOverClean (.start capacity ∅ fun _ => none) (.register root) :=
  ⟨fun t ht => (by cases ht), Or.inl ⟨by simp [World.start, ProjectStateCache.new],
    by simp [World.start], fun t ht => (by cases ht)⟩⟩

/-- `projects_isolated` where a query is answered after an apply. -/
theorem projects_isolated_sample : ∃ (w : World) (t : Thread) (v : Version), t ∈ w.threads ∧
    t.pc.answer = some v ∧ v.seq = 1 ∧ v.owner = t.dir := by
  have hrun : (system.run (.start 1 ∅ fun _ => none) (recordRun ["srv", "app"] ++
      [.start "app" (.query false), .run 1 .ok, .run 1 .ok])).map (fun w =>
        w.threads[1]?.map fun t => t.pc.answer.map Version.seq) = some (some (some 1)) := by
    decide +kernel
  obtain ⟨w, hw, hthread⟩ := Option.map_eq_some_iff.mp hrun
  obtain ⟨t, ht, hanswer⟩ := Option.map_eq_some_iff.mp hthread
  obtain ⟨v, hv, hseq⟩ := Option.map_eq_some_iff.mp hanswer
  obtain ⟨w₁, hreg, hw⟩ := Option.bind_eq_some_iff.mp hw
  have hreach : system.Reach TakesOverClean w := (Lts.Reach.step (reach_start TakesOverClean 1)
    (takesOverClean_start 1 _) hreg).run (fun w a ha => by
      cases a with
      | register root => simp at ha
      | _ => trivial) hw
  have hmem := List.mem_of_getElem? ht
  exact ⟨w, t, v, hmem, hv, hseq, (projects_isolated hreach).1 t hmem v hv⟩

/-- A root that takes over the id of another is served the other's state, and the
cadence writes that state into its output directory. -/
theorem projects_not_isolated :
    ¬ (∀ w, system.Reach Lts.anyStep w →
      ∀ t ∈ w.threads, ∀ v, t.pc.answer = some v → v.owner = t.dir) ∧
    ¬ ∀ w, system.Reach Lts.anyStep w → ∀ dir v, w.disk dir = some v → v.owner = dir := by
  have hrun : (system.run (.start 1 ∅ fun _ => none) (recordRun ["srv", "app"] ++
      [.remove "app", .register ["tmp", "app"], .start "app" (.query false), .run 1 .ok, .run 1 .ok,
        .due "app"] ++ List.replicate 6 (.run 2 .ok))).map (fun w =>
          (w.threads[1]?.map fun t => (t.dir, t.pc.answer.map Version.owner),
            (w.disk ["tmp", "app", ".filigrio-out"]).map Version.owner)) =
      some (some (["tmp", "app", ".filigrio-out"], some ["srv", "app", ".filigrio-out"]),
        some ["srv", "app", ".filigrio-out"]) := by
    decide +kernel
  obtain ⟨w, hw, hends⟩ := Option.map_eq_some_iff.mp hrun
  obtain ⟨hthread, hdisk⟩ := Prod.mk.inj hends
  have hreach := (reach_start Lts.anyStep 1).run (fun _ _ _ => trivial) hw
  constructor
  · intro hclaim
    obtain ⟨t, ht, hanswer⟩ := Option.map_eq_some_iff.mp hthread
    obtain ⟨hdir, hanswer⟩ := Prod.mk.inj hanswer
    obtain ⟨v, hv, howner⟩ := Option.map_eq_some_iff.mp hanswer
    have hsame := hclaim w hreach t (List.mem_of_getElem? ht) v hv
    rw [howner, hdir] at hsame
    simp at hsame
  · intro hclaim
    obtain ⟨v, hv, howner⟩ := Option.map_eq_some_iff.mp hdisk
    have hsame := hclaim w hreach _ v hv
    rw [howner] at hsame
    simp at hsame

end Filigrio.Daemon.Flush
