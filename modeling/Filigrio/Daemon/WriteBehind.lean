import Filigrio.Daemon.Isolation

/-!
# Filigrio.Daemon.WriteBehind

What the flusher promises: an apply starts from the latest state of its project, and
what a client is told to be on disk is there. `Saved` is the invariant: the latest state
of a root is on disk, resident and dirty, or held by the thread that paged it out. It is
kept as long as page-ins bring in the latest state, write-backs do not undo later ones,
and nobody is told "clean" while a write-back is pending (`Orderly`).
-/

namespace Filigrio.Daemon.Flush

/-- A state of the root that was paged out, newer than its checkpoint, is still to be
written back. -/
def Unwritten (w : World) (dir : Path) : Prop :=
  ∃ t ∈ w.threads, ∃ x ∈ t.pc.held, x.2.owner = dir ∧ (w.checkpoint dir).seq < x.2.seq

/-! ### The conditions -/

/-- A checkpoint is read when nothing newer is dirty or about to be written back, and
goes into the cache when no apply has recorded a state since. -/
def PagesInLatest (w : World) (t : Thread) : Choice → Prop
  | .ok =>
    match t.pc with
    | .load => t.id ∉ w.cache.dirty ∧ ¬ Unwritten w t.dir
    | .install _ seen => (w.last t.dir).seq = seen
    | _ => True
  | _ => True

/-- An eviction does not unmark a project that is dirty, and its write-back neither
overwrites a newer checkpoint nor fails for a state that is newer than the checkpoint. -/
def WritesBackLatest (w : World) (t : Thread) : Choice → Prop
  | .ok =>
    match t.pc with
    | .evict (e :: _) _ => e.id ∉ w.cache.dirty
    | .writeBack _ dir v _ _ => (w.checkpoint dir).seq ≤ v.seq
    | _ => True
  | .fail =>
    match t.pc with
    | .writeBack _ _ _ _ _ => ∀ x ∈ t.pc.held, x.2.seq ≤ (w.checkpoint x.2.owner).seq
    | _ => True
  | _ => True

/-- Who is told that the project is clean is told so with nothing left to write back. -/
def AnswersClean (w : World) (t : Thread) : Prop :=
  match t.pc with
  | .check | .checkLocked => t.task.command = true → t.id ∉ w.dirty → ¬ Unwritten w t.dir
  | _ => True

/-- The steps of the runs in which nothing is lost; where it matters what clients are
told, those in which nobody is told too early. -/
def Orderly (told : Bool) (w : World) : Action → Prop
  | .run i c => ∀ t, w.threads[i]? = some t →
      PagesInLatest w t c ∧ WritesBackLatest w t c ∧ (told = true → AnswersClean w t)
  | a => TakesOverClean w a

theorem Orderly.takesOverClean {told : Bool} {w : World} {a : Action} (h : Orderly told w a) :
    TakesOverClean w a := by
  cases a with
  | run i c => trivial
  | _ => exact h

/-! ### The invariant -/

/-- A state is the latest of its root, or older. -/
def Upto (w : World) (v : Version) : Prop :=
  v = w.last v.owner ∨ v.seq < (w.last v.owner).seq

namespace Thread

/-- What `state_of` is about to answer under the lock is the latest state. -/
def Expects (w : World) (t : Thread) : After → Prop
  | .served (some v) => t.locks = true → v = w.last t.dir
  | _ => True

/-- What a client has been told, where that is kept track of. -/
def Acked (told : Bool) (w : World) (t : Thread) : Prop :=
  told = true → t.task.command = true → t.seen ≤ (w.checkpoint t.dir).seq ∧
    (t.task = .export → ∃ v, w.graphJson t.dir = some v ∧ t.seen ≤ v.seq)

/-- What a thread relies on at its next access. -/
def Local (told : Bool) (w : World) (t : Thread) : Prop :=
  match t.pc with
  | .probe | .hasCheckpoint => t.task = .query true
  | .check => t.task ≠ .export
  | .install v seen => seen ≤ (w.last t.dir).seq ∧
      ((w.last t.dir).seq = seen → v = w.last t.dir ∧ w.checkpoint t.dir = w.last t.dir)
  | .evict _ k | .findDir _ _ _ k | .writeBack _ _ _ _ k => t.Expects w k
  | .mutate v | .flushWrite _ v | .mark v _ => v = w.last t.dir
  | .reload v => v = w.last t.dir ∧ w.checkpoint t.dir = w.last t.dir
  | .unmark _ => w.checkpoint t.dir = w.last t.dir
  | .markClean | .unmarkFlushed => w.checkpoint t.dir = w.last t.dir ∧ t.seen ≤ (w.last t.dir).seq
  | .forget => t.id ∉ w.cache.dirty
  | .snapshot => told = true → t.task.command = true → t.seen ≤ (w.checkpoint t.dir).seq
  | .done true => t.Acked told w
  | _ => True

end Thread

/-- Nothing recorded is lost, and what clients have been `told` is so. -/
structure Saved (told : Bool) (w : World) : Prop where
  excl : ∀ (i j : ℕ) (t u : Thread), w.threads[i]? = some t → w.threads[j]? = some u →
    t.locks = true → u.locks = true → t.id = u.id → i = j
  bound : ∀ dir, (w.last dir).seq ≤ w.clock
  disk : ∀ dir, Upto w (w.checkpoint dir)
  held : ∀ t ∈ w.threads, ∀ x ∈ t.pc.held, Upto w x.2
  /-- A resident state is the latest, but for a write-through that is not yet reloaded. -/
  cached : ∀ (id : String) (v : Version), w.cache.graphs[id]? = some v → v = w.last v.owner ∨
    v.seq < (w.last v.owner).seq ∧ ∃ t ∈ w.threads, t.id = id ∧ t.pc = .reload (w.last v.owner)
  resident : ∀ id ∈ w.cache.dirty, ∃ v, w.cache.graphs[id]? = some v
  kept : ∀ dir, w.checkpoint dir = w.last dir ∨
    (w.cache.graphs[idOf dir]? = some (w.last dir) ∧ idOf dir ∈ w.cache.dirty) ∨
    ∃ t ∈ w.threads, ∃ x ∈ t.pc.held, x.2 = w.last dir
  noted : ∀ dir, w.recorded dir ≤ (w.checkpoint dir).seq ∨
    (idOf dir ∈ w.dirty ∧ w.outDirs[idOf dir]? = some dir) ∨
    ∃ t ∈ w.threads, ∃ x ∈ t.pc.held, x.2.owner = dir ∧ w.recorded dir ≤ x.2.seq
  settled : ∀ dir, w.recorded dir = (w.last dir).seq ∨ w.recorded dir ≤ (w.last dir).seq ∧
    ∃ t ∈ w.threads, t.dir = dir ∧ ∃ es, t.pc = .mark (w.last dir) es
  locals : ∀ t ∈ w.threads, t.Local told w

section Steps

variable {told : Bool} {w w' : World} {t t' u : Thread} {i : ℕ} {id : String} {dir : Path} {c : Choice}
  {v : Version}

theorem Saved.recorded_le (h : Saved told w) (dir : Path) : w.recorded dir ≤ (w.last dir).seq :=
  (h.settled dir).elim (fun h => h.le) And.left

/-- A state that is as new as the latest is the latest. -/
theorem Upto.eq (h : Upto w v) (hle : (w.last v.owner).seq ≤ v.seq) : v = w.last v.owner :=
  h.resolve_right (by omega)

theorem Upto.le (h : Upto w v) : v.seq ≤ (w.last v.owner).seq := by
  rcases h with h | h
  · rw [← h]
  · exact h.le

theorem Saved.cached_upto (h : Saved told w) (hv : w.cache.graphs[id]? = some v) : Upto w v :=
  (h.cached id v hv).imp (fun h => h) And.left

/-- A checkpoint that is as new as the latest state is the latest state. -/
theorem Saved.checkpoint_eq (h : Saved told w) (ht : Tidy w)
    (hle : (w.last dir).seq ≤ (w.checkpoint dir).seq) : w.checkpoint dir = w.last dir := by
  have heq := (h.disk dir).eq (by rw [ht.checkpoint]; exact hle)
  rwa [ht.checkpoint] at heq

/-- What the other threads rely on outlasts a step: an apply of their own project waits
for them, and checkpoints only get newer. -/
theorem local_frame (hu : u.Local told w)
    (hlast : w'.last u.dir = w.last u.dir ∨
      u.locks = false ∧ (w.last u.dir).seq < (w'.last u.dir).seq)
    (hseq : (w.checkpoint u.dir).seq ≤ (w'.checkpoint u.dir).seq)
    (hsame : w.checkpoint u.dir = w.last u.dir → w'.last u.dir = w.last u.dir →
      w'.checkpoint u.dir = w.last u.dir)
    (hgraph : w'.graphJson u.dir = w.graphJson u.dir ∨
      w'.graphJson u.dir = some (w'.checkpoint u.dir))
    (hdirty : u.id ∈ w'.cache.dirty → u.id ∈ w.cache.dirty ∨ u.locks = false) : u.Local told w' := by
  obtain ⟨id, dir, task, pc, seen⟩ := u
  dsimp only at hlast hseq hsame hgraph hdirty
  -- under the lock the latest state stays
  have hkeep : (⟨id, dir, task, pc, seen⟩ : Thread).locks = true → w'.last dir = w.last dir :=
    fun hl => hlast.resolve_right fun h => by simp [h.1] at hl
  have hexpects : ∀ k, Thread.Expects w ⟨id, dir, task, pc, seen⟩ k →
      Thread.Expects w' ⟨id, dir, task, pc, seen⟩ k := by
    intro k hk
    match k, hk with
    | .served (some v), hk => exact fun hl => (hk hl).trans (hkeep hl).symm
    | .served none, _ => trivial
    | .recorded, _ => trivial
  cases pc with
  | probe => exact hu
  | hasCheckpoint => exact hu
  | check => exact hu
  | install v at' =>
      obtain ⟨hle, himp⟩ := hu
      dsimp only at hle himp
      show at' ≤ (w'.last dir).seq ∧ ((w'.last dir).seq = at' →
        v = w'.last dir ∧ w'.checkpoint dir = w'.last dir)
      rcases hlast with heq | ⟨-, hlt⟩
      · rw [heq]
        exact ⟨hle, fun h => ⟨(himp h).1, hsame (himp h).2 heq⟩⟩
      · exact ⟨by omega, fun h => by omega⟩
  | evict es k => exact hexpects k hu
  | findDir a b es k => exact hexpects k hu
  | writeBack a d b es k => exact hexpects k hu
  | mutate v => exact hu.trans (hkeep rfl).symm
  | flushWrite d v => exact hu.trans (hkeep rfl).symm
  | mark v es => exact hu.trans (hkeep rfl).symm
  | reload v =>
      have heq := hkeep rfl
      exact ⟨hu.1.trans heq.symm, (hsame hu.2 heq).trans heq.symm⟩
  | unmark es =>
      have heq := hkeep rfl
      exact (hsame hu heq).trans heq.symm
  | markClean =>
      have heq := hkeep rfl
      exact ⟨(hsame hu.1 heq).trans heq.symm, heq ▸ hu.2⟩
  | unmarkFlushed =>
      have heq := hkeep rfl
      exact ⟨(hsame hu.1 heq).trans heq.symm, heq ▸ hu.2⟩
  | forget => exact fun h => (hdirty h).elim hu (fun h => by cases h)
  | snapshot => exact fun htold h => (hu htold h).trans hseq
  | done ok =>
      cases ok with
      | false => trivial
      | true =>
          intro htold hcommand
          obtain ⟨hle, hexport⟩ := hu htold hcommand
          refine ⟨hle.trans hseq, fun h => ?_⟩
          obtain ⟨v, hv, hv'⟩ := hexport h
          rcases hgraph with hg | hg
          · exact ⟨v, hg.trans hv, hv'⟩
          · exact ⟨_, hg, hle.trans hseq⟩
  | _ => trivial

/-! ### Accesses to the memory -/

theorem saved_setDir (h : Saved told w) (ht : Tidy w) (hl : Live w id dir) :
    Saved told (w.setDir id dir) where
  excl := h.excl
  bound := h.bound
  disk := h.disk
  held := h.held
  cached := h.cached
  resident := h.resident
  kept := h.kept
  noted d := by
    refine (h.noted d).imp (fun h => h) (Or.imp (fun ⟨hd, hdir⟩ => ⟨hd, ?_⟩) fun h => h)
    show (w.outDirs.insert id dir)[idOf d]? = some d
    rw [BTreeMap.get_insert]
    split
    · -- a dirty id is in use by this root already
      rename_i heq
      subst heq
      exact ((ht.live _ dir hl).resolve_left fun hv => hv.2.1 hd).symm.trans hdir
    · exact hdir
  settled := h.settled
  locals := h.locals

theorem saved_recency (h : Saved told w) {cache : ProjectStateCache Version}
    (hgraphs : cache.graphs = w.cache.graphs) (hdirty : cache.dirty = w.cache.dirty) :
    Saved told (w.setCache cache) where
  excl := h.excl
  bound := h.bound
  disk := h.disk
  held := h.held
  cached id v hv := h.cached id v (by rw [← hgraphs]; exact hv)
  resident id hid := by
    show ∃ v, cache.graphs[id]? = some v
    rw [hgraphs]
    exact h.resident id (hdirty ▸ hid)
  kept d := by
    show _ ∨ (cache.graphs[idOf d]? = _ ∧ idOf d ∈ cache.dirty) ∨ _
    rw [hgraphs, hdirty]
    exact h.kept d
  noted := h.noted
  settled := h.settled
  locals u hu := local_frame (h.locals u hu) (Or.inl rfl) le_rfl (fun hc _ => hc) (Or.inl rfl)
    fun hd => Or.inl (hdirty ▸ hd)

theorem saved_unmark (h : Saved told w)
    (hid : ∀ d, idOf d = id → w.outDirs[id]? = some d → w.recorded d ≤ (w.checkpoint d).seq ∨
      ∃ t ∈ w.threads, ∃ x ∈ t.pc.held, x.2.owner = d ∧ w.recorded d ≤ x.2.seq) :
    Saved told (w.unmark id) where
  excl := h.excl
  bound := h.bound
  disk := h.disk
  held := h.held
  cached := h.cached
  resident := h.resident
  kept := h.kept
  noted d := by
    rcases h.noted d with hle | ⟨hd, hdir⟩ | hheld
    · exact Or.inl hle
    · by_cases heq : idOf d = id
      · exact (hid d heq (heq ▸ hdir)).imp (fun h => h) Or.inr
      · exact Or.inr (Or.inl ⟨Finset.mem_erase.mpr ⟨heq, hd⟩, hdir⟩)
    · exact Or.inr (Or.inr hheld)
  settled := h.settled
  locals := h.locals

theorem checkpoint_save (w : World) (dir d : Path) (v : Version) :
    (w.save dir v).checkpoint d = if d = dir then v else w.checkpoint d := by
  unfold World.checkpoint World.save
  by_cases heq : d = dir
  · subst heq
    simp
  · simp [heq]

/-- A state is written over one that is not newer. -/
theorem saved_save (h : Saved told w) (hv : Upto w v)
    (hle : (w.checkpoint v.owner).seq ≤ v.seq) : Saved told (w.save v.owner v) := by
  have hcheckpoint : ∀ d, (w.save v.owner v).checkpoint d =
      if d = v.owner then v else w.checkpoint d := fun d => checkpoint_save w v.owner d v
  have hmono : ∀ d, (w.checkpoint d).seq ≤ ((w.save v.owner v).checkpoint d).seq := by
    intro d
    rw [hcheckpoint]
    split
    · rename_i heq
      exact heq ▸ hle
    · exact le_rfl
  have hlatest : ∀ d, w.checkpoint d = w.last d → (w.save v.owner v).checkpoint d = w.last d := by
    intro d hd
    rw [hcheckpoint]
    split
    · rename_i heq
      subst heq
      exact hv.eq (by rw [← hd]; exact hle)
    · exact hd
  exact
    { excl := h.excl
      bound := h.bound
      disk := fun d => by
        rw [hcheckpoint]
        split
        · exact hv
        · exact h.disk d
      held := h.held
      cached := h.cached
      resident := h.resident
      kept := fun d => (h.kept d).imp (hlatest d) fun h => h
      noted := fun d => (h.noted d).imp (fun hle => hle.trans (hmono d)) fun h => h
      settled := h.settled
      locals := fun u hu => local_frame (h.locals u hu) (Or.inl rfl) (hmono u.dir)
        (fun hc _ => hlatest u.dir hc) (Or.inl rfl) Or.inl }

/-- The mark of a state that has been recorded. -/
theorem saved_mark (h : Saved told w) (hv : v = w.last v.owner) (hid : id = idOf v.owner)
    (hplaced : w.outDirs[id]? = some v.owner) : Saved told ((w.mark id).settle v) where
  excl := h.excl
  bound := h.bound
  disk := h.disk
  held := h.held
  cached := h.cached
  resident := h.resident
  kept := h.kept
  noted d := by
    by_cases heq : d = v.owner
    · subst heq
      exact Or.inr (Or.inl ⟨hid ▸ Finset.mem_insert_self _ _, hid ▸ hplaced⟩)
    · have hrec : ((w.mark id).settle v).recorded d = w.recorded d := Function.update_of_ne heq _ _
      rw [hrec]
      exact (h.noted d).imp (fun h => h)
        (Or.imp (fun hd => ⟨Finset.mem_insert_of_mem hd.1, hd.2⟩) fun h => h)
  settled d := by
    by_cases heq : d = v.owner
    · subst heq
      refine Or.inl ((Function.update_self ..).trans ?_)
      exact congrArg Version.seq hv
    · have hrec : ((w.mark id).settle v).recorded d = w.recorded d := Function.update_of_ne heq _ _
      rw [hrec]
      exact h.settled d
  locals u hu := local_frame (h.locals u hu) (Or.inl rfl) le_rfl (fun hc _ => hc) (Or.inl rfl) Or.inl

/-- A project whose checkpoint is its latest state is clean. -/
theorem saved_markClean (h : Saved told w)
    (hid : ∀ d, idOf d = id → w.cache.graphs[id]? = some (w.last d) →
      w.checkpoint d = w.last d) : Saved told (w.setCache (w.cache.markClean id)) where
  excl := h.excl
  bound := h.bound
  disk := h.disk
  held := h.held
  cached := h.cached
  resident j hj := h.resident j (Finset.mem_of_mem_erase hj)
  kept d := by
    rcases h.kept d with hc | ⟨hg, hd⟩ | hheld
    · exact Or.inl hc
    · by_cases heq : idOf d = id
      · exact Or.inl (hid d heq (heq ▸ hg))
      · exact Or.inr (Or.inl ⟨hg, Finset.mem_erase.mpr ⟨heq, hd⟩⟩)
    · exact Or.inr (Or.inr hheld)
  noted := h.noted
  settled := h.settled
  locals u hu := local_frame (h.locals u hu) (Or.inl rfl) le_rfl (fun hc _ => hc) (Or.inl rfl)
    fun hd => Or.inl (Finset.mem_of_mem_erase hd)

theorem saved_derive (h : Saved told w) (dir : Path) : Saved told (w.derive dir) where
  excl := h.excl
  bound := h.bound
  disk := h.disk
  held := h.held
  cached := h.cached
  resident := h.resident
  kept := h.kept
  noted := h.noted
  settled := h.settled
  locals u hu := by
    refine local_frame (h.locals u hu) (Or.inl rfl) le_rfl (fun hc _ => hc) ?_ Or.inl
    by_cases heq : u.dir = dir
    · subst heq
      exact Or.inr (Function.update_self ..)
    · exact Or.inl (Function.update_of_ne heq _ _)

/-! ### Threads that move on -/

theorem free_not_locks (h : w.free id = true) {u : Thread} (hu : u ∈ w.threads)
    (hid : u.id = id) : u.locks = false := by
  have hu := List.all_eq_true.mp h u hu
  simpa [hid] using hu

/-- Locks stay exclusive when a thread takes a free one. -/
theorem excl_set (h : Saved told w) (hi : w.threads[i]? = some t) (hid : t'.id = t.id)
    (hlocks : t'.locks = true → t.locks = true ∨ w.free t.id = true) (j k : ℕ) (u u' : Thread)
    (hj : (w.threads.set i t')[j]? = some u) (hk : (w.threads.set i t')[k]? = some u')
    (hu : u.locks = true) (hu' : u'.locks = true) (heq : u.id = u'.id) : j = k := by
  have hlt := List.lt_of_getElem?_eq_some hi
  have hcross : ∀ (l : ℕ) (x : Thread), w.threads[l]? = some x → x.locks = true → l ≠ i →
      t'.locks = true → x.id ≠ t'.id := by
    intro l x hl hx hne ht' hxid
    rcases hlocks ht' with ht | hfree
    · exact hne (h.excl l i x t hl hi hx ht (hxid.trans hid))
    · have := free_not_locks hfree (List.mem_of_getElem? hl) (hxid.trans hid)
      simp [hx] at this
  rcases List.getElem?_set_cases hlt hj with ⟨rfl, rfl⟩ | ⟨hji, hj'⟩
  · rcases List.getElem?_set_cases hlt hk with ⟨rfl, -⟩ | ⟨hki, hk'⟩
    · rfl
    · exact absurd heq.symm (hcross k u' hk' hu' hki hu)
  · rcases List.getElem?_set_cases hlt hk with ⟨rfl, rfl⟩ | ⟨hki, hk'⟩
    · exact absurd heq (hcross j u hj' hu hji hu')
    · exact h.excl j k u u' hj' hk' hu hu' heq

theorem mem_setThread (hi : w.threads[i]? = some t) (hu : u ∈ (w.setThread i t').threads) :
    u = t' ∨ u ∈ w.threads := by
  obtain ⟨j, hj⟩ := List.getElem?_of_mem hu
  rcases List.getElem?_set_cases (List.lt_of_getElem?_eq_some hi) hj with ⟨-, rfl⟩ | ⟨-, hj⟩
  · exact Or.inl rfl
  · exact Or.inr (List.mem_of_getElem? hj)

theorem setThread_mem (hi : w.threads[i]? = some t) : t' ∈ (w.setThread i t').threads :=
  List.mem_set (List.lt_of_getElem?_eq_some hi) _

/-- A thread other than the one that moved is still there. -/
theorem mem_setThread_of_mem (t' : Thread) (hi : w.threads[i]? = some t) (hu : u ∈ w.threads) :
    u = t ∨ u ∈ (w.setThread i t').threads := by
  obtain ⟨j, hj⟩ := List.getElem?_of_mem hu
  by_cases hji : i = j
  · subst hji
    exact Or.inl (Option.some.inj (hj.symm.trans hi))
  · refine Or.inr (List.mem_of_getElem? (i := j) ?_)
    show (w.threads.set i t')[j]? = some u
    rw [List.getElem?_set_ne hji]
    exact hj

/-- What was held is held still, or was the moving thread's own. -/
theorem held_setThread (t' : Thread) (hi : w.threads[i]? = some t) {p : String × Version → Prop}
    (hheld : ∃ u ∈ w.threads, ∃ x ∈ u.pc.held, p x) :
    (∃ u ∈ (w.setThread i t').threads, ∃ x ∈ u.pc.held, p x) ∨ ∃ x ∈ t.pc.held, p x := by
  obtain ⟨u, hu, x, hx, hp⟩ := hheld
  rcases mem_setThread_of_mem t' hi hu with rfl | hu
  · exact Or.inr ⟨x, hx, hp⟩
  · exact Or.inl ⟨u, hu, x, hx, hp⟩

/-- A thread moves on; what it lets go of is on disk. -/
theorem saved_goto (h : Saved told w) (htidy : Tidy w) (hi : w.threads[i]? = some t)
    (hid : t'.id = t.id) (hlocks : t'.locks = true → t.locks = true ∨ w.free t.id = true)
    (hlocal : t'.Local told w) (hreload : ∀ v, t.pc ≠ .reload v)
    (hmark : ∀ es, t.pc = .mark (w.last t.dir) es → w.recorded t.dir = (w.last t.dir).seq)
    (hheld : ∀ x ∈ t'.pc.held, x ∈ t.pc.held)
    (hdrop : ∀ x ∈ t.pc.held, x ∈ t'.pc.held ∨ x.2.seq ≤ (w.checkpoint x.2.owner).seq) :
    Saved told (w.setThread i t') where
  excl := excl_set h hi hid hlocks
  bound := h.bound
  disk := h.disk
  held u hu x hx := by
    rcases mem_setThread hi hu with rfl | hu
    · exact h.held t (List.mem_of_getElem? hi) x (hheld x hx)
    · exact h.held u hu x hx
  cached id v hv := by
    refine (h.cached id v hv).imp (fun h => h) ?_
    rintro ⟨hlt, u, hu, hid, hpc⟩
    rcases mem_setThread_of_mem t' hi hu with rfl | hu
    · exact absurd hpc (hreload _)
    · exact ⟨hlt, u, hu, hid, hpc⟩
  resident := h.resident
  kept d := by
    rcases h.kept d with hc | hres | hheld'
    · exact Or.inl hc
    · exact Or.inr (Or.inl hres)
    · rcases held_setThread t' hi hheld' with hstill | ⟨x, hx, hlast⟩
      · exact Or.inr (Or.inr hstill)
      · rcases hdrop x hx with hx' | hle
        · exact Or.inr (Or.inr ⟨t', setThread_mem hi, x, hx', hlast⟩)
        · rw [hlast, htidy.last] at hle
          exact Or.inl (h.checkpoint_eq htidy hle)
  noted d := by
    rcases h.noted d with hle | hd | hheld'
    · exact Or.inl hle
    · exact Or.inr (Or.inl hd)
    · rcases held_setThread t' hi hheld' with hstill | ⟨x, hx, howner, hle⟩
      · exact Or.inr (Or.inr hstill)
      · rcases hdrop x hx with hx' | hle'
        · exact Or.inr (Or.inr ⟨t', setThread_mem hi, x, hx', howner, hle⟩)
        · exact Or.inl (hle.trans (howner ▸ hle'))
  settled d := by
    rcases h.settled d with heq | ⟨hle, u, hu, hdir, es, hpc⟩
    · exact Or.inl heq
    · rcases mem_setThread_of_mem t' hi hu with rfl | hu
      · subst hdir
        exact Or.inl (hmark es hpc)
      · exact Or.inr ⟨hle, u, hu, hdir, es, hpc⟩
  locals u hu := by
    rcases mem_setThread hi hu with rfl | hu
    · exact hlocal
    · exact h.locals u hu

/-! ### Records and page-ins -/

/-- The threads that hold the lock of a project are those of its root: of the others no
one else can be recording. -/
theorem not_locks_of_dir (h : Saved told w) (htidy : Tidy w) {j : ℕ} (hi : w.threads[i]? = some t)
    (hlocks : t.locks = true) (hj : w.threads[j]? = some u) (hji : j ≠ i) (hdir : u.dir = t.dir) :
    u.locks = false := by
  by_contra hne
  refine hji (h.excl j i u t hj hi (by simpa using hne) hlocks ?_)
  rw [(htidy.thread u (List.mem_of_getElem? hj)).named, hdir,
    (htidy.thread t (List.mem_of_getElem? hi)).named]

/-- A new state is recorded for the root of a thread under the lock: what the others rely
on stays. -/
theorem local_publish (h : Saved told w) (htidy : Tidy w) {j : ℕ} (hi : w.threads[i]? = some t)
    (hlocks : t.locks = true) (hj : w.threads[j]? = some u) (hji : j ≠ i)
    (howner : v.owner = t.dir) (hseq : (w.last t.dir).seq < v.seq)
    (hlast : w'.last = Function.update w.last v.owner v)
    (hdisk : w'.checkpoint u.dir = w.checkpoint u.dir ∨
      u.dir = t.dir ∧ (w.checkpoint u.dir).seq ≤ (w'.checkpoint u.dir).seq)
    (hgraph : w'.graphJson = w.graphJson)
    (hdirty : u.id ∈ w'.cache.dirty → u.id ∈ w.cache.dirty ∨ u.locks = false) : u.Local told w' := by
  have hu := h.locals u (List.mem_of_getElem? hj)
  by_cases hdir : u.dir = t.dir
  · have hfree := not_locks_of_dir h htidy hi hlocks hj hji hdir
    have hnew : w'.last u.dir = v := by rw [hlast, hdir, ← howner, Function.update_self]
    refine local_frame hu (Or.inr ⟨hfree, ?_⟩) ?_ (fun _ heq => ?_) (Or.inl (by rw [hgraph])) hdirty
    · rw [hnew, hdir]
      exact hseq
    · rcases hdisk with hd | ⟨-, hd⟩
      · exact (congrArg Version.seq hd).ge
      · exact hd
    · -- the latest state has changed
      rw [hnew, hdir] at heq
      rw [heq] at hseq
      exact absurd hseq (lt_irrefl _)
  · have hsame : w'.last u.dir = w.last u.dir := by
      rw [hlast, Function.update_of_ne (by rw [howner]; exact hdir)]
    have hd := hdisk.resolve_right fun hd => hdir hd.1
    exact local_frame hu (Or.inl hsame) (congrArg Version.seq hd).ge (fun hc _ => hd.trans hc)
      (Or.inl (by rw [hgraph])) hdirty

theorem upto_publish (hv : Upto w v) {v' : Version} (hseq : (w.last v'.owner).seq < v'.seq)
    (hlast : w'.last = Function.update w.last v'.owner v') : Upto w' v := by
  unfold Upto
  rw [hlast]
  by_cases heq : v.owner = v'.owner
  · rw [heq, Function.update_self]
    refine Or.inr ?_
    have := hv.le
    rw [heq] at this
    omega
  · rw [Function.update_of_ne heq]
    exact hv

/-- A state is recorded by writing it through; the cache is not yet up to date. -/
theorem saved_write (t' : Thread) (h : Saved told w) (htidy : Tidy w) (hi : w.threads[i]? = some t)
    {s : GraphState} (hpc : t.pc = .write s) (hpc' : t'.pc = .reload v) (hid : t'.id = t.id)
    (hdir : t'.dir = t.dir) (howner : v.owner = t.dir) (hclock : v.seq = w.clock + 1)
    (hthreads : w'.threads = w.threads.set i t') (hcache : w'.cache = w.cache)
    (hmap : w'.dirty = w.dirty) (hdirs : w'.outDirs = w.outDirs)
    (hgraph : w'.graphJson = w.graphJson) (hseq' : w'.clock = v.seq)
    (hlast : w'.last = Function.update w.last v.owner v)
    (hrec : w'.recorded = Function.update w.recorded v.owner v.seq)
    (hdisk : ∀ d, w'.checkpoint d = if d = t.dir then v else w.checkpoint d) : Saved told w' := by
  have hlocks : t.locks = true := by simp [Thread.locks, hpc]
  have hseq : ∀ d, (w.last d).seq < v.seq := fun d => by have := h.bound d; omega
  have hlast_of : ∀ d, w'.last d = if d = t.dir then v else w.last d := by
    intro d
    rw [hlast, howner, Function.update_apply]
  have hrec_of : ∀ d, w'.recorded d = if d = t.dir then v.seq else w.recorded d := by
    intro d
    rw [hrec, howner, Function.update_apply]
  have hheld : ∀ x, x ∉ t.pc.held := by
    intro x hx
    rw [hpc] at hx
    cases hx
  have hmem : t' ∈ w'.threads := hthreads ▸ List.mem_set (List.lt_of_getElem?_eq_some hi) _
  -- the threads that were there, without the one that writes
  have hother : ∀ u ∈ w.threads, u = t ∨ u ∈ w'.threads := fun u hu =>
    hthreads ▸ mem_setThread_of_mem t' hi hu
  have hkeeps : ∀ p : String × Version → Prop, (∃ u ∈ w.threads, ∃ x ∈ u.pc.held, p x) →
      ∃ u ∈ w'.threads, ∃ x ∈ u.pc.held, p x := fun p hp =>
    hthreads ▸ (held_setThread t' hi hp).resolve_right fun ⟨x, hx, _⟩ => hheld x hx
  have hupto : ∀ v', Upto w v' → Upto w' v' := fun v' hv' => upto_publish hv' (hseq _) hlast
  refine
    { excl := by rw [hthreads]; exact excl_set h hi hid fun _ => Or.inl hlocks
      bound := fun d => ?_
      disk := fun d => ?_
      held := fun u hu x hx => ?_
      cached := fun id v' hv' => ?_
      resident := by rw [hcache]; exact h.resident
      kept := fun d => ?_
      noted := fun d => ?_
      settled := fun d => ?_
      locals := fun u hu => ?_ }
  · rw [hlast_of, hseq']
    split
    · exact le_rfl
    · exact (hseq d).le
  · rw [hdisk]
    split
    · exact Or.inl ((hlast_of v.owner).trans (if_pos howner)).symm
    · exact hupto _ (h.disk d)
  · rw [hthreads] at hu
    rcases mem_setThread hi hu with rfl | hu
    · rw [hpc'] at hx
      cases hx
    · exact hupto _ (h.held u hu x hx)
  · rw [hcache] at hv'
    rw [hlast_of]
    split
    · -- the cache still has an older state
      rename_i hown
      refine Or.inr ⟨(h.cached_upto hv').le.trans_lt (hseq _), t', hmem, ?_, hpc'⟩
      rw [htidy.dirs id _ (htidy.cached id v' hv'), hown, hid,
        (htidy.thread t (List.mem_of_getElem? hi)).named]
    · refine (h.cached id v' hv').imp (fun h => h) fun ⟨hlt, u, hu, hid, hu'⟩ => ⟨hlt, ?_⟩
      rcases hother u hu with rfl | hu
      · rw [hpc] at hu'
        cases hu'
      · exact ⟨u, hu, hid, hu'⟩
  · rw [hdisk, hlast_of, hcache]
    split
    · exact Or.inl rfl
    · exact (h.kept d).imp (fun h => h) (Or.imp (fun h => h) (hkeeps _))
  · rw [hdisk, hrec_of, hmap, hdirs]
    split
    · exact Or.inl le_rfl
    · exact (h.noted d).imp (fun h => h) (Or.imp (fun h => h) (hkeeps _))
  · rw [hlast_of, hrec_of]
    split
    · exact Or.inl rfl
    · refine (h.settled d).imp (fun h => h) fun ⟨hle, u, hu, hdir, es, hu'⟩ => ⟨hle, ?_⟩
      rcases hother u hu with rfl | hu
      · rw [hpc] at hu'
        cases hu'
      · exact ⟨u, hu, hdir, es, hu'⟩
  · rw [hthreads] at hu
    obtain ⟨j, hj⟩ := List.getElem?_of_mem hu
    rcases List.getElem?_set_cases (List.lt_of_getElem?_eq_some hi) hj with ⟨-, rfl⟩ | ⟨hji, hj⟩
    · have hl := (hlast_of t.dir).trans (if_pos rfl)
      have hd := (hdisk t.dir).trans (if_pos rfl)
      unfold Thread.Local
      rw [hpc', hdir]
      exact ⟨hl.symm, hd.trans hl.symm⟩
    · refine local_publish h htidy hi hlocks hj hji howner (hseq _) hlast ?_ hgraph
        (by rw [hcache]; exact Or.inl)
      rw [hdisk]
      split
      · rename_i heq
        have hle := (h.disk u.dir).le
        rw [htidy.checkpoint] at hle
        exact Or.inr ⟨heq, hle.trans (hseq u.dir).le⟩
      · exact Or.inl rfl

section Insert

variable {f : Bool} {cache : ProjectStateCache Version} {es : List (Evicted Version)} {j : String}

/-- A dirty state of another project stays, or is paged out into the thread's hands. -/
theorem insert_keeps (hins : w.cache.insert id v f = (cache, es)) {s : Version} (hne : id ≠ j)
    (hs : w.cache.graphs[j]? = some s) (hd : j ∈ w.cache.dirty) :
    (cache.graphs[j]? = some s ∧ j ∈ cache.dirty) ∨ (j, s) ∈ heldOf es := by
  rcases ProjectStateCache.insert_cases hins j with ⟨hg, hd'⟩ | ⟨s', hg, -, -, hmem⟩
  · rw [if_neg hne] at hg hd'
    exact Or.inl ⟨hg.trans hs, hd'.mpr hd⟩
  · simp only [if_neg hne] at hg hmem
    cases hs.symm.trans hg
    rw [if_pos hd] at hmem
    exact Or.inr (mem_heldOf.mpr hmem)

/-- So does a dirty state that is inserted. -/
theorem insert_new (hins : w.cache.insert id v true = (cache, es)) :
    (cache.graphs[id]? = some v ∧ id ∈ cache.dirty) ∨ (id, v) ∈ heldOf es := by
  rcases ProjectStateCache.insert_cases hins id with ⟨hg, hd⟩ | ⟨s, hg, -, -, hmem⟩
  · rw [if_pos rfl] at hg hd
    exact Or.inl ⟨hg, hd.mpr rfl⟩
  · simp only [if_true] at hg hmem
    cases hg
    exact Or.inr (mem_heldOf.mpr hmem)

/-- What is paged out is the state that was inserted, or was resident. -/
theorem insert_held (hins : w.cache.insert id v f = (cache, es)) {x : String × Version}
    (hx : x ∈ heldOf es) : (f = true ∧ x.2 = v) ∨ w.cache.graphs[x.1]? = some x.2 := by
  obtain ⟨s, hs, hstate⟩ := ProjectStateCache.insert_evicted hins (mem_heldOf.mp hx)
  obtain ⟨hd, hsome⟩ := Option.ite_none_right_eq_some.mp hstate.symm
  cases hsome
  dsimp only at hs hd
  split at hs
  · rename_i heq
    cases hs
    rw [if_pos heq] at hd
    exact Or.inl ⟨hd, rfl⟩
  · exact Or.inr hs

theorem insert_dirty (hins : w.cache.insert id v f = (cache, es)) (hj : j ∈ cache.dirty) :
    (j = id ∧ f = true) ∨ j ∈ w.cache.dirty := by
  rcases ProjectStateCache.insert_cases hins j with ⟨-, hd⟩ | ⟨-, -, -, hd, -⟩
  · have hd := hd.mp hj
    split at hd
    · rename_i heq
      exact Or.inl ⟨heq.symm, hd⟩
    · exact Or.inr hd
  · exact absurd hj hd

theorem insert_resident (hins : w.cache.insert id v f = (cache, es))
    (h : ∀ j ∈ w.cache.dirty, ∃ s, w.cache.graphs[j]? = some s) (hj : j ∈ cache.dirty) :
    ∃ s, cache.graphs[j]? = some s := by
  rcases ProjectStateCache.insert_cases hins j with ⟨hg, hd⟩ | ⟨-, -, -, hd, -⟩
  · rw [hg]
    by_cases heq : id = j
    · rw [if_pos heq]
      exact ⟨v, rfl⟩
    · rw [if_neg heq] at hd ⊢
      exact h j (hd.mp hj)
  · exact absurd hj hd

end Insert

/-- A dirty state under the id of a thread past its beginning is of the thread's root. -/
theorem dir_of_resident (htidy : Tidy w) (hi : w.threads[i]? = some t)
    (hearly : t.pc.early = false) {d : Path} (hid : idOf d = t.id)
    (hres : w.cache.graphs[idOf d]? = some (w.last d)) : d = t.dir := by
  have hplaced := htidy.placed (List.mem_of_getElem? hi) hearly
  have hown := htidy.cached _ _ hres
  rw [hid, htidy.last, hplaced] at hown
  exact (Option.some.inj hown).symm

/-- The latest state, which is on disk, is put into the cache as clean. -/
theorem saved_load (t' : Thread) (h : Saved told w) (htidy : Tidy w) (hi : w.threads[i]? = some t)
    (hearly : t.pc.early = false) (hempty : t.pc.held = [])
    (hmark : ∀ es, t.pc ≠ .mark (w.last t.dir) es) (hv : v = w.last t.dir)
    (hdisk : w.checkpoint t.dir = w.last t.dir) {cache : ProjectStateCache Version}
    {es : List (Evicted Version)} (hins : w.cache.insert t.id v false = (cache, es))
    (hid : t'.id = t.id) (hlocks : t'.locks = true → t.locks = true)
    (hheld : t'.pc.held = heldOf es) (hlocal : t'.Local told w) :
    Saved told ((w.setCache cache).setThread i t') := by
  have hold : ∀ u ∈ w.threads, u = t ∨ u ∈ (w.setThread i t').threads := fun u hu =>
    mem_setThread_of_mem _ hi hu
  have hlocal_of : ∀ u : Thread, u.Local told w → u.Local told (w.setCache cache) := fun u hu =>
    local_frame hu (Or.inl rfl) le_rfl (fun hc _ => hc) (Or.inl rfl) fun hd =>
      Or.inl ((insert_dirty hins hd).resolve_left fun hd => by cases hd.2)
  refine
    { excl := excl_set (w := w) h hi hid fun hl => Or.inl (hlocks hl)
      bound := h.bound
      disk := h.disk
      held := fun u hu x hx => ?_
      cached := fun j v' hv' => ?_
      resident := fun j hj => insert_resident hins h.resident hj
      kept := fun d => ?_
      noted := fun d => ?_
      settled := fun d => ?_
      locals := fun u hu => ?_ }
  · rcases mem_setThread hi hu with rfl | hu
    · rw [hheld] at hx
      exact h.cached_upto ((insert_held hins hx).resolve_left fun hf => by cases hf.1)
    · exact h.held u hu x hx
  · rcases cache_insert hins hv' with ⟨-, rfl⟩ | ⟨hne, hres⟩
    · refine Or.inl ?_
      rw [hv, htidy.last]
      rfl
    · refine (h.cached j v' hres).imp (fun h => h) fun ⟨hlt, u, hu, huid, hpc⟩ => ⟨hlt, ?_⟩
      rcases hold u hu with rfl | hu
      · exact absurd huid hne
      · exact ⟨u, hu, huid, hpc⟩
  · rcases h.kept d with hc | ⟨hres, hd⟩ | ⟨u, hu, x, hx, hlast⟩
    · exact Or.inl hc
    · by_cases heq : idOf d = t.id
      · exact Or.inl (dir_of_resident htidy hi hearly heq hres ▸ hdisk)
      · rcases insert_keeps hins (Ne.symm heq) hres hd with hstill | hout
        · exact Or.inr (Or.inl hstill)
        · exact Or.inr (Or.inr ⟨t', setThread_mem hi, _, hheld ▸ hout, rfl⟩)
    · rcases hold u hu with rfl | hu
      · rw [hempty] at hx
        cases hx
      · exact Or.inr (Or.inr ⟨u, hu, x, hx, hlast⟩)
  · rcases h.noted d with hle | hd | ⟨u, hu, x, hx, hx'⟩
    · exact Or.inl hle
    · exact Or.inr (Or.inl hd)
    · rcases hold u hu with rfl | hu
      · rw [hempty] at hx
        cases hx
      · exact Or.inr (Or.inr ⟨u, hu, x, hx, hx'⟩)
  · refine (h.settled d).imp (fun h => h) fun ⟨hle, u, hu, hdir, es', hpc⟩ => ⟨hle, ?_⟩
    rcases hold u hu with rfl | hu
    · subst hdir
      exact absurd hpc (hmark es')
    · exact ⟨u, hu, hdir, es', hpc⟩
  · rcases mem_setThread hi hu with rfl | hu
    · exact hlocal_of _ hlocal
    · exact hlocal_of u (h.locals u hu)

/-- A state is recorded by putting it into the cache as dirty. -/
theorem saved_put (h : Saved told w) (htidy : Tidy w) (hi : w.threads[i]? = some t) {s : GraphState}
    (hpc : t.pc = .put s) {cache : ProjectStateCache Version} {es : List (Evicted Version)}
    (hpc' : t'.pc = .mark v es) (hid : t'.id = t.id) (hdir : t'.dir = t.dir)
    (howner : v.owner = t.dir) (hclock : v.seq = w.clock + 1)
    (hins : w.cache.insert t.id v true = (cache, es)) :
    Saved told (((w.setCache cache).publish v).setThread i t') := by
  have hlocks : t.locks = true := by simp [Thread.locks, hpc]
  have hearly : t.pc.early = false := by rw [hpc]; rfl
  have hseq : ∀ d, (w.last d).seq < v.seq := fun d => by have := h.bound d; omega
  have hlast_of : ∀ d, Function.update w.last v.owner v d = if d = t.dir then v else w.last d := by
    intro d
    rw [howner, Function.update_apply]
  have hempty : ∀ x, x ∉ t.pc.held := by
    intro x hx
    rw [hpc] at hx
    cases hx
  have hheld : t'.pc.held = heldOf es := by rw [hpc']; rfl
  have hold : ∀ u ∈ w.threads, u = t ∨ u ∈ (w.setThread i t').threads := fun u hu =>
    mem_setThread_of_mem _ hi hu
  have hmem : t' ∈ (w.setThread i t').threads := setThread_mem hi
  have hkeeps : ∀ p : String × Version → Prop, (∃ u ∈ w.threads, ∃ x ∈ u.pc.held, p x) →
      ∃ u ∈ (w.setThread i t').threads, ∃ x ∈ u.pc.held, p x := fun p hp =>
    (held_setThread t' hi hp).resolve_right fun ⟨x, hx, _⟩ => hempty x hx
  have hupto : ∀ v', Upto w v' → Upto (((w.setCache cache).publish v).setThread i t') v' :=
    fun v' hv' => upto_publish hv' (hseq _) rfl
  have hv : Upto (((w.setCache cache).publish v).setThread i t') v :=
    Or.inl ((hlast_of v.owner).trans (if_pos howner)).symm
  refine
    { excl := excl_set (w := w) h hi hid fun _ => Or.inl hlocks
      bound := fun d => ?_
      disk := fun d => hupto _ (h.disk d)
      held := fun u hu x hx => ?_
      cached := fun j v' hv' => ?_
      resident := fun j hj => insert_resident hins h.resident hj
      kept := fun d => ?_
      noted := fun d => (h.noted d).imp (fun h => h) (Or.imp (fun h => h) (hkeeps _))
      settled := fun d => ?_
      locals := fun u hu => ?_ }
  · show (Function.update w.last v.owner v d).seq ≤ v.seq
    rw [hlast_of]
    split
    · exact le_rfl
    · exact (hseq d).le
  · rcases mem_setThread hi hu with rfl | hu
    · rw [hheld] at hx
      rcases insert_held hins hx with ⟨-, heq⟩ | hres
      · exact heq ▸ hv
      · exact hupto _ (h.cached_upto hres)
    · exact hupto _ (h.held u hu x hx)
  · rcases cache_insert hins hv' with ⟨-, rfl⟩ | ⟨hne, hres⟩
    · exact Or.inl ((hlast_of v'.owner).trans (if_pos howner)).symm
    · have hown : v'.owner ≠ t.dir := by
        intro heq
        refine hne ?_
        rw [htidy.dirs j _ (htidy.cached j v' hres), heq,
          (htidy.thread t (List.mem_of_getElem? hi)).named]
      show v' = Function.update w.last v.owner v v'.owner ∨
        v'.seq < (Function.update w.last v.owner v v'.owner).seq ∧
        ∃ u ∈ (w.setThread i t').threads, u.id = j ∧
          u.pc = .reload (Function.update w.last v.owner v v'.owner)
      rw [hlast_of, if_neg hown]
      refine (h.cached j v' hres).imp (fun h => h) fun ⟨hlt, u, hu, huid, hu'⟩ => ⟨hlt, ?_⟩
      rcases hold u hu with rfl | hu
      · exact absurd huid hne
      · exact ⟨u, hu, huid, hu'⟩
  · show w.checkpoint d = Function.update w.last v.owner v d ∨
      (cache.graphs[idOf d]? = some (Function.update w.last v.owner v d) ∧
        idOf d ∈ cache.dirty) ∨
      ∃ u ∈ (w.setThread i t').threads, ∃ x ∈ u.pc.held, x.2 = Function.update w.last v.owner v d
    rw [hlast_of]
    split
    · rename_i heq
      subst heq
      rw [← (htidy.thread t (List.mem_of_getElem? hi)).named]
      exact Or.inr ((insert_new hins).imp (fun h => h) fun hout =>
        ⟨t', hmem, _, hheld ▸ hout, rfl⟩)
    · rename_i hne
      rcases h.kept d with hc | ⟨hres, hd⟩ | hout
      · exact Or.inl hc
      · have hidd : t.id ≠ idOf d := fun heq =>
          hne (dir_of_resident htidy hi hearly heq.symm hres)
        exact Or.inr ((insert_keeps hins hidd hres hd).imp (fun h => h) fun hout =>
          ⟨t', hmem, _, hheld ▸ hout, rfl⟩)
      · exact Or.inr (Or.inr (hkeeps _ hout))
  · show w.recorded d = (Function.update w.last v.owner v d).seq ∨
      w.recorded d ≤ (Function.update w.last v.owner v d).seq ∧
      ∃ u ∈ (w.setThread i t').threads, u.dir = d ∧
        ∃ es', u.pc = .mark (Function.update w.last v.owner v d) es'
    rw [hlast_of]
    split
    · rename_i heq
      subst heq
      exact Or.inr ⟨(h.recorded_le _).trans (hseq _).le, t', hmem, hdir, es, hpc'⟩
    · refine (h.settled d).imp (fun h => h) fun ⟨hle, u, hu, hdir, es', hu'⟩ => ⟨hle, ?_⟩
      rcases hold u hu with rfl | hu
      · rw [hpc] at hu'
        cases hu'
      · exact ⟨u, hu, hdir, es', hu'⟩
  · obtain ⟨j, hj⟩ := List.getElem?_of_mem hu
    rcases List.getElem?_set_cases (List.lt_of_getElem?_eq_some hi) hj with ⟨-, rfl⟩ | ⟨hji, hj⟩
    · unfold Thread.Local
      rw [hpc', hdir]
      exact ((hlast_of t.dir).trans (if_pos rfl)).symm
    · refine local_publish h htidy hi hlocks hj hji howner (hseq _) rfl (Or.inl rfl) rfl
        fun hd => ?_
      rcases insert_dirty hins hd with ⟨heq, -⟩ | hd
      · refine Or.inr ?_
        by_contra hne
        exact hji (h.excl j i u t hj hi (by simpa using hne) hlocks heq)
      · exact Or.inl hd

/-! ### The accesses -/

/-- A thread that holds nothing moves on. -/
theorem saved_plain (h : Saved told w) (htidy : Tidy w) (hi : w.threads[i]? = some t)
    (hid : t'.id = t.id) (hheld : t.pc.held = []) (hheld' : t'.pc.held = [])
    (hreload : ∀ v, t.pc ≠ .reload v) (hmark : ∀ v es, t.pc ≠ .mark v es)
    (hlocks : t'.locks = true → t.locks = true ∨ w.free t.id = true) (hlocal : t'.Local told w) :
    Saved told (w.setThread i t') :=
  saved_goto h htidy hi hid hlocks hlocal hreload (fun es hpc => absurd hpc (hmark _ es))
    (by simp [hheld']) (by simp [hheld])

/-- Under the lock, and but for a write-through of one's own, what is resident is the
latest state. -/
theorem latest_of_resident (h : Saved told w) (htidy : Tidy w) (hi : w.threads[i]? = some t)
    (hlocks : t.locks = true) (hpc : ∀ v, t.pc ≠ .reload v)
    (hv : w.cache.graphs[t.id]? = some v) : v = w.last t.dir := by
  have hend : t.pc.ended = false := by
    cases hp : t.pc <;> simp [Thread.locks, hp] at hlocks ⊢ <;> rfl
  have howner := owner_of_resident htidy (Live.of_thread (List.mem_of_getElem? hi) hend) hv
  rcases h.cached _ v hv with heq | ⟨-, u, hu, hid, hu'⟩
  · rw [heq, howner]
  · -- nobody else can be writing through
    obtain ⟨j, hj⟩ := List.getElem?_of_mem hu
    have hji := h.excl j i u t hj hi (by simp [Thread.locks, hu']) hlocks hid
    subst hji
    cases hj.symm.trans hi
    exact absurd hu' (hpc _)

/-- With nothing dirty and nothing to be written back, the checkpoint is the latest. -/
theorem checkpoint_latest (h : Saved told w) (htidy : Tidy w) (hid : id = idOf dir)
    (hdirty : id ∉ w.cache.dirty) (hunwritten : ¬ Unwritten w dir) :
    w.checkpoint dir = w.last dir := by
  rcases h.kept dir with hc | ⟨-, hd⟩ | ⟨u, hu, x, hx, hlast⟩
  · exact hc
  · exact absurd (hid ▸ hd) hdirty
  · refine h.checkpoint_eq htidy (Nat.le_of_not_lt fun hlt => hunwritten ⟨u, hu, x, hx, ?_, ?_⟩)
    · rw [hlast, htidy.last]
    · rw [hlast]
      exact hlt

/-- Who is told that the project is clean has its recorded state on disk. -/
theorem recorded_on_disk (h : Saved told w) (hid : id = idOf dir) (hdirty : id ∉ w.dirty)
    (hunwritten : ¬ Unwritten w dir) : w.recorded dir ≤ (w.checkpoint dir).seq := by
  rcases h.noted dir with hle | ⟨hd, -⟩ | ⟨u, hu, x, hx, howner, hle⟩
  · exact hle
  · exact absurd (hid ▸ hd) hdirty
  · by_contra hlt
    exact hunwritten ⟨u, hu, x, hx, howner, by omega⟩

/-- With no recording under way, a root that is not marked has its latest state on disk. -/
theorem checkpoint_of_clean (h : Saved told w) (htidy : Tidy w)
    (hmark : ∀ t ∈ w.threads, ∀ v es, t.pc ≠ .mark v es) (hid : id = idOf dir)
    (hdirty : id ∉ w.dirty) (hunwritten : ¬ Unwritten w dir) : w.checkpoint dir = w.last dir := by
  refine h.checkpoint_eq htidy ?_
  have hrecorded : w.recorded dir = (w.last dir).seq := by
    refine (h.settled dir).resolve_right ?_
    rintro ⟨-, t, ht, -, es, hpc⟩
    exact hmark t ht _ es hpc
  rw [← hrecorded]
  exact recorded_on_disk h hid hdirty hunwritten

/-- Every task but a query takes a lock. -/
def Thread.Guarded (t : Thread) : Prop := (∀ warm, t.task ≠ .query warm) → t.locks = true

theorem resume_locks {k : After} (hguarded : t.Guarded)
    (hl : (t.goto (t.resume k)).locks = true) : t.locks = true := by
  refine hguarded fun warm htask => ?_
  unfold Thread.resume at hl
  rw [htask] at hl
  split at hl <;> cases hl

/-- What `state_of` has answered under the lock is the latest state. -/
theorem resume_local {k : After} (hguarded : t.Guarded) (hk : t.Expects w k) :
    (t.goto (t.resume k)).Local told w := by
  match k, hk with
  | .served (some v), hk =>
      unfold Thread.resume
      cases htask : t.task with
      | query warm => trivial
      | _ => exact hk (hguarded fun warm h => by rw [htask] at h; cases h)
  | .served none, _ => trivial
  | .recorded, _ =>
      unfold Thread.resume
      dsimp only
      split
      · rename_i htask
        intro hexport
        cases htask.symm.trans hexport
      · rename_i htask
        intro _ hcommand
        rw [show (t.goto (.done true)).task = _ from htask] at hcommand
        cases hcommand
      · trivial

theorem saved_host (h : Saved told w) (htidy : Tidy w) (hi : w.threads[i]? = some t)
    (hexec : w.host t c = some (w', t')) : Saved told (w'.setThread i t') := by
  have hlocal := h.locals t (List.mem_of_getElem? hi)
  obtain ⟨id, dir, task, pc, seen⟩ := t
  unfold World.host at hexec
  dsimp only at hexec
  split at hexec
  · -- the lock is taken
    split at hexec
    · rename_i hfree
      cases hexec
      cases task <;>
        exact saved_plain h htidy hi rfl rfl rfl nofun nofun (fun _ => Or.inr hfree) trivial
    · cases hexec
  · split at hexec
    · rename_i v cache hget
      cases hexec
      have hgraphs : cache.graphs = w.cache.graphs := by
        rw [← @ProjectStateCache.getArc_graphs _ w.cache id, hget]
      have hdirty : cache.dirty = w.cache.dirty := by
        rw [← @ProjectStateCache.getArc_dirty _ w.cache id, hget]
      exact saved_plain (saved_recency h hgraphs hdirty) (tidy_sameCache htidy hgraphs) hi rfl rfl
        rfl nofun nofun nofun trivial
    · cases hexec
      exact saved_plain h htidy hi rfl rfl rfl nofun nofun nofun hlocal
  · -- only a query looks for the checkpoint, and it takes no lock
    cases hexec
    have htask : task = .query true := hlocal
    subst htask
    split <;> exact saved_plain h htidy hi rfl rfl rfl nofun nofun nofun trivial
  · cases hexec
    exact saved_plain h htidy hi rfl rfl rfl nofun nofun nofun trivial
  · -- nothing to record
    cases hexec
    exact saved_plain h htidy hi rfl rfl (resume_held .recorded) nofun nofun (fun _ => Or.inl rfl)
      (resume_local (k := .recorded) (fun _ => rfl) trivial)
  · cases hexec
    exact saved_plain h htidy hi rfl rfl rfl nofun nofun (fun _ => Or.inl rfl) trivial
  · cases hexec
    refine saved_plain (saved_derive h dir) (tidy_derive htidy dir) hi rfl rfl rfl nofun nofun nofun
      fun htold hcommand =>
      ⟨hlocal htold hcommand, fun _ => ⟨_, Function.update_self .., hlocal htold hcommand⟩⟩
  · cases hexec
    exact saved_plain h htidy hi rfl rfl rfl nofun nofun nofun trivial
  · cases hexec

theorem saved_stateOf (h : Saved told w) (htidy : Tidy w) (hi : w.threads[i]? = some t)
    (hok : PagesInLatest w t c) (hexec : w.stateOf t c = some (w', t')) :
    Saved told (w'.setThread i t') := by
  have ht := List.mem_of_getElem? hi
  have hlocal := h.locals t ht
  have hnamed := (htidy.thread t ht).named
  obtain ⟨id, dir, task, pc, seen⟩ := t
  unfold World.stateOf at hexec
  dsimp only at hexec
  split at hexec
  · cases hexec
    have hlive : Live w id dir := Live.of_thread ht rfl
    exact saved_plain (saved_setDir h htidy hlive) (tidy_setDir htidy hlive hnamed) hi rfl rfl rfl
      nofun nofun Or.inl trivial
  · split at hexec
    · rename_i v cache hget
      cases hexec
      have hv : w.cache.graphs[id]? = some v := by rw [← ProjectStateCache.getArc_fst, hget]
      have hgraphs : cache.graphs = w.cache.graphs := by
        rw [← @ProjectStateCache.getArc_graphs _ w.cache id, hget]
      have hdirty : cache.dirty = w.cache.dirty := by
        rw [← @ProjectStateCache.getArc_dirty _ w.cache id, hget]
      have hguarded : (⟨id, dir, task, .lookup, seen⟩ : Thread).Guarded := fun hq => by
        cases task <;> first | rfl | exact absurd rfl (hq _)
      have hexpects : Thread.Expects (w.setCache cache) ⟨id, dir, task, .lookup, seen⟩
          (.served (some v)) := fun hl => latest_of_resident (w := w) h htidy hi hl nofun hv
      exact saved_plain (saved_recency h hgraphs hdirty) (tidy_sameCache htidy hgraphs) hi rfl rfl
        (resume_held (.served (some v))) nofun nofun (fun hl => Or.inl (resume_locks hguarded hl))
        (resume_local hguarded hexpects)
    · cases hexec
      exact saved_plain h htidy hi rfl rfl rfl nofun nofun Or.inl trivial
  · -- the checkpoint is read
    cases hexec
    have hlatest := checkpoint_latest h htidy hnamed hok.1 hok.2
    exact saved_plain h htidy hi rfl rfl rfl nofun nofun Or.inl
      ⟨le_rfl, fun _ => ⟨hlatest, hlatest⟩⟩
  · cases hexec
    exact saved_plain h htidy hi rfl rfl rfl nofun nofun nofun trivial
  · -- and goes into the cache
    rename_i v seen'
    cases hins : w.cache.loadInto id v with
    | mk cache es =>
        simp only [hins] at hexec
        cases hexec
        obtain ⟨hv, hdisk⟩ := hlocal.2 hok
        have hpage := saved_load
          { id := id, dir := dir, task := task, seen := seen,
            pc := .evict es (.served (cache.getArc id).1) } h htidy hi rfl rfl nofun hv hdisk hins rfl
          (fun hl => hl) rfl ?_
        · exact saved_recency hpage ProjectStateCache.getArc_graphs ProjectStateCache.getArc_dirty
        · show Thread.Expects w _ (.served (cache.getArc id).1)
          rw [ProjectStateCache.getArc_fst]
          cases hanswer : cache.graphs[id]? with
          | none => trivial
          | some v' =>
              rcases cache_insert hins hanswer with ⟨-, rfl⟩ | ⟨hne, -⟩
              · exact fun _ => hv
              · exact absurd rfl hne
  · cases hexec

theorem saved_flushEvicted (h : Saved told w) (htidy : Tidy w) (hi : w.threads[i]? = some t)
    (hok : WritesBackLatest w t c) (hexec : w.flushEvicted t c = some (w', t')) :
    Saved told (w'.setThread i t') := by
  have ht := List.mem_of_getElem? hi
  have hlocal := h.locals t ht
  have hthread := htidy.thread t ht
  obtain ⟨id, dir, task, pc, seen⟩ := t
  unfold World.flushEvicted at hexec
  dsimp only at hexec
  split at hexec
  · rename_i k
    cases hexec
    have hguarded : (⟨id, dir, task, .evict [] k, seen⟩ : Thread).Guarded := fun hq => by
      cases task <;> first | rfl | exact absurd rfl (hq _)
    exact saved_plain h htidy hi rfl rfl (resume_held k) nofun nofun
      (fun hl => Or.inl (resume_locks hguarded hl)) (resume_local hguarded hlocal)
  · -- the mark goes: the project is not dirty
    rename_i e es k
    cases hexec
    obtain ⟨id', state⟩ := e
    have hunmark : Saved told (w.unmark id') := by
      refine saved_unmark h fun d hd hdir => ?_
      rcases h.kept d with hc | ⟨-, hdirty⟩ | ⟨u, hu, x, hx, hlast⟩
      · exact Or.inl (hc ▸ h.recorded_le d)
      · exact absurd (hd ▸ hdirty) hok
      · exact Or.inr ⟨u, hu, x, hx, by rw [hlast, htidy.last], by rw [hlast]; exact h.recorded_le d⟩
    cases state with
    | some v =>
        exact saved_goto hunmark (tidy_unmark htidy id') hi rfl Or.inl hlocal nofun nofun
          (fun x hx => hx) (fun x hx => Or.inl hx)
    | none =>
        exact saved_goto hunmark (tidy_unmark htidy id') hi rfl Or.inl hlocal nofun nofun
          (fun x hx => hx) (fun x hx => Or.inl hx)
  · rename_i id' v es k
    cases hexec
    rw [hthread.held (id', v) List.mem_cons_self]
    exact saved_goto h htidy hi rfl Or.inl hlocal nofun nofun (fun x hx => hx)
      (fun x hx => Or.inl hx)
  · -- written back: the thread lets go of it
    rename_i id' dir' v es k
    cases hexec
    obtain ⟨rfl, howned⟩ : v.owner = dir' ∧ k.Owned dir := hthread.owned
    have hupto := h.held _ ht (id', v) List.mem_cons_self
    have hsave := saved_save h hupto hok
    have hcheckpoint : (w.save v.owner v).checkpoint v.owner = v := by
      rw [checkpoint_save, if_pos rfl]
    have hafter : Thread.Expects (w.save v.owner v)
        ⟨id, dir, task, .writeBack id' v.owner v es k, seen⟩ k := hsave.locals _ ht
    refine saved_goto hsave (tidy_save htidy rfl) hi rfl Or.inl hafter nofun nofun
      (fun x hx => List.mem_cons_of_mem _ hx) fun x hx => ?_
    rcases List.mem_cons.mp hx with rfl | hx
    · exact Or.inr (by rw [hcheckpoint])
    · exact Or.inl hx
  · cases hexec
    exact saved_goto h htidy hi rfl nofun trivial nofun nofun nofun (fun x hx => Or.inr (hok x hx))
  · cases hexec

theorem saved_recordApply (h : Saved told w) (htidy : Tidy w) (hi : w.threads[i]? = some t)
    (hexec : w.recordApply t c = some (w', t')) : Saved told (w'.setThread i t') := by
  have ht := List.mem_of_getElem? hi
  have hlocal := h.locals t ht
  have hthread := htidy.thread t ht
  obtain ⟨id, dir, task, pc, seen⟩ := t
  unfold World.recordApply at hexec
  dsimp only at hexec
  split at hexec
  · cases hexec
    have hlive : Live w id dir := Live.of_thread ht rfl
    split <;>
      exact saved_plain (saved_setDir h htidy hlive) (tidy_setDir htidy hlive hthread.named) hi rfl
        rfl rfl nofun nofun (fun _ => Or.inl rfl) trivial
  · rename_i s
    cases hexec
    exact saved_write ⟨id, dir, task, .reload (w.version dir s), seen⟩ h htidy hi rfl rfl rfl
      rfl rfl rfl rfl rfl rfl rfl rfl rfl rfl rfl fun d => checkpoint_save w dir d _
  · cases hexec
    exact saved_plain h htidy hi rfl rfl rfl nofun nofun nofun trivial
  · rename_i v
    cases hins : w.cache.loadInto id v with
    | mk cache es =>
        simp only [hins] at hexec
        cases hexec
        exact saved_load _ h htidy hi rfl rfl nofun hlocal.1 hlocal.2 hins rfl (fun _ => rfl) rfl
          hlocal.2
  · -- what was written through is clean
    rename_i es
    cases hexec
    have hdisk : w.checkpoint dir = w.last dir := hlocal
    have hunmark : Saved told (w.unmark id) := by
      refine saved_unmark h fun d _ hdir => Or.inl ?_
      have hplaced : w.outDirs[id]? = some dir := htidy.placed ht rfl
      have hd : d = dir := Option.some.inj (hdir.symm.trans hplaced)
      rw [hd, hdisk]
      exact h.recorded_le dir
    exact saved_goto hunmark (tidy_unmark htidy id) hi rfl (fun _ => Or.inl rfl) trivial nofun nofun
      (fun x hx => hx) (fun x hx => Or.inl hx)
  · rename_i s
    cases hins : w.cache.put id (w.version dir s) with
    | mk cache es =>
        simp only [hins] at hexec
        cases hexec
        exact saved_put h htidy hi rfl rfl rfl rfl rfl rfl hins
  · -- recorded, and now marked
    rename_i v es
    cases hexec
    have howner : v.owner = dir := hthread.owned
    have hv : v = w.last v.owner := by
      rw [howner]
      exact hlocal
    have hplaced : w.outDirs[id]? = some v.owner := by
      rw [howner]
      exact htidy.placed ht rfl
    have hid : id = idOf v.owner := by
      rw [howner]
      exact hthread.named
    have hmark := saved_mark h hv hid hplaced
    have htidy' : Tidy ((w.mark id).settle v) :=
      tidy_settle (tidy_mark htidy (Live.of_thread ht rfl) (htidy.placed ht rfl)) v
    refine saved_goto hmark htidy' hi rfl (fun _ => Or.inl rfl) trivial nofun (fun _ _ => ?_)
      (fun x hx => hx) (fun x hx => Or.inl hx)
    show Function.update w.recorded v.owner v.seq dir = (w.last dir).seq
    rw [howner, Function.update_self, hlocal]
  · cases hexec

theorem flushed_plain : t.flushed.held = [] ∧ ((t.goto t.flushed).locks = true → t.task = .export) := by
  unfold Thread.flushed
  split
  · rename_i htask
    exact ⟨rfl, fun _ => htask⟩
  · exact ⟨rfl, fun h => by cases h⟩

/-- After a flush the client is told what is on disk. -/
theorem flushed_local (hseen : told = true → t.task.command = true → t.seen ≤ (w.checkpoint t.dir).seq) :
    (t.goto t.flushed).Local told w := by
  unfold Thread.flushed
  split
  · exact hseen
  · rename_i hne
    exact fun htold hcommand => ⟨hseen htold hcommand, fun htask => absurd htask hne⟩

theorem saved_flushProject (h : Saved told w) (htidy : Tidy w) (hi : w.threads[i]? = some t)
    (hok : told = true → AnswersClean w t) (hexec : w.flushProject t c = some (w', t')) :
    Saved told (w'.setThread i t') := by
  have ht := List.mem_of_getElem? hi
  have hlocal := h.locals t ht
  have hthread := htidy.thread t ht
  obtain ⟨id, dir, task, pc, seen⟩ := t
  unfold World.flushProject at hexec
  dsimp only at hexec
  split at hexec
  · split at hexec
    · cases hexec
      exact saved_plain h htidy hi rfl rfl rfl nofun nofun nofun trivial
    · -- clean, without the lock
      rename_i hclean
      cases hexec
      refine saved_plain h htidy hi rfl rfl rfl nofun nofun nofun fun htold hcommand => ?_
      exact ⟨recorded_on_disk h hthread.named hclean (hok htold hcommand hclean),
        fun htask => absurd htask hlocal⟩
  · split at hexec
    · rename_i hfree
      cases hexec
      exact saved_plain h htidy hi rfl rfl rfl nofun nofun (fun _ => Or.inr hfree) trivial
    · cases hexec
  · split at hexec
    · cases hexec
      exact saved_plain h htidy hi rfl rfl rfl nofun nofun (fun _ => Or.inl rfl) trivial
    · -- clean, under the lock
      rename_i hclean
      cases hexec
      exact saved_plain h htidy hi rfl rfl flushed_plain.1 nofun nofun (fun _ => Or.inl rfl)
        (flushed_local (t := ⟨id, dir, task, .checkLocked, w.recorded dir⟩) fun htold hcommand =>
          recorded_on_disk h hthread.named hclean (hok htold hcommand hclean))
  · cases hexec
    rw [show w.outDirs[id]? = some dir from htidy.placed ht rfl]
    exact saved_plain h htidy hi rfl rfl rfl nofun nofun (fun _ => Or.inl rfl) trivial
  · rename_i dir'
    cases hexec
    split
    · rename_i v hv
      have hlatest := latest_of_resident (t := ⟨id, dir, task, .peek dir', seen⟩) h htidy hi rfl nofun
        hv
      exact saved_plain h htidy hi rfl rfl rfl nofun nofun (fun _ => Or.inl rfl) hlatest
    · rename_i hnone
      refine saved_plain h htidy hi rfl rfl rfl nofun nofun (fun _ => Or.inl rfl) fun hdirty => ?_
      obtain ⟨v, hv⟩ := h.resident id hdirty
      cases hnone.symm.trans hv
  · -- dirty but not resident: nothing of it is in the cache to be flushed
    cases hexec
    have hunmark : Saved told (w.unmark id) := by
      refine saved_unmark h fun d hd hdir => ?_
      rcases h.kept d with hc | ⟨-, hdirty⟩ | ⟨u, hu, x, hx, hlast⟩
      · exact Or.inl (hc ▸ h.recorded_le d)
      · exact absurd (hd ▸ hdirty) hlocal
      · exact Or.inr ⟨u, hu, x, hx, by rw [hlast, htidy.last], by rw [hlast]; exact h.recorded_le d⟩
    exact saved_plain hunmark (tidy_unmark htidy id) hi rfl rfl rfl nofun nofun nofun trivial
  · -- the resident state is written
    rename_i dir' v
    cases hexec
    obtain ⟨rfl, howner⟩ : dir' = dir ∧ v.owner = dir := hthread.owned
    subst howner
    have hv : v = w.last v.owner := hlocal
    have hle : (w.checkpoint v.owner).seq ≤ v.seq := by
      have hle := (h.disk v.owner).le
      rw [htidy.checkpoint] at hle
      exact hle.trans (congrArg Version.seq hv).ge
    have hcheckpoint : (w.save v.owner v).checkpoint v.owner = v := by
      rw [checkpoint_save, if_pos rfl]
    refine saved_plain (saved_save h (Or.inl hv) hle) (tidy_save htidy rfl) hi rfl rfl rfl nofun nofun
      (fun _ => Or.inl rfl) ⟨hcheckpoint.trans hv, ?_⟩
    exact h.recorded_le v.owner
  · cases hexec
    exact saved_plain h htidy hi rfl rfl rfl nofun nofun nofun trivial
  · cases hexec
    refine saved_plain (saved_markClean h fun d hd hres => ?_) (tidy_sameCache htidy rfl) hi rfl rfl
      rfl nofun nofun (fun _ => Or.inl rfl) hlocal
    have hdir := dir_of_resident htidy hi rfl hd (hd.symm ▸ hres)
    rw [hdir]
    exact hlocal.1
  · cases hexec
    have hdisk : w.checkpoint dir = w.last dir := hlocal.1
    have hunmark : Saved told (w.unmark id) := by
      refine saved_unmark h fun d _ hdir => Or.inl ?_
      have hplaced : w.outDirs[id]? = some dir := htidy.placed ht rfl
      have hd : d = dir := Option.some.inj (hdir.symm.trans hplaced)
      rw [hd, hdisk]
      exact h.recorded_le dir
    refine saved_plain hunmark (tidy_unmark htidy id) hi rfl rfl flushed_plain.1 nofun nofun
      (fun _ => Or.inl rfl) (flushed_local fun _ _ => ?_)
    show seen ≤ (w.checkpoint dir).seq
    rw [hdisk]
    exact hlocal.2
  · cases hexec

theorem saved_exec (h : Saved told w) (htidy : Tidy w) (hi : w.threads[i]? = some t)
    (hok : PagesInLatest w t c ∧ WritesBackLatest w t c ∧ (told = true → AnswersClean w t))
    (hexec : w.exec t c = some (w', t')) : Saved told (w'.setThread i t') := by
  unfold World.exec at hexec
  split at hexec <;> first
    | exact saved_host h htidy hi hexec
    | exact saved_stateOf h htidy hi hok.1 hexec
    | exact saved_flushEvicted h htidy hi hok.2.1 hexec
    | exact saved_recordApply h htidy hi hexec
    | exact saved_flushProject h htidy hi hok.2.2 hexec
    | cases hexec

/-- A thread begins. -/
theorem saved_spawn (h : Saved told w) (task : Task) : Saved told (w.spawn (.start id dir task)) := by
  have hstart : (Thread.start id dir task).locks = false ∧
      (Thread.start id dir task).pc.held = [] ∧ (Thread.start id dir task).Local told w := by
    cases task with
    | query warm => cases warm <;> exact ⟨rfl, rfl, by first | rfl | trivial⟩
    | flush command =>
        refine ⟨rfl, rfl, fun h => ?_⟩
        cases h
    | _ => exact ⟨rfl, rfl, trivial⟩
  have hmem : ∀ u ∈ (w.spawn (.start id dir task)).threads,
      u ∈ w.threads ∨ u = .start id dir task := by
    intro u hu
    simpa [World.spawn] using hu
  have hold : ∀ u ∈ w.threads, u ∈ (w.spawn (.start id dir task)).threads := fun u hu =>
    List.mem_append_left _ hu
  refine
    { h with
      excl := fun j k u u' hj hk hu hu' heq => ?_
      held := fun u hu x hx => ?_
      cached := fun id v hv => ?_
      kept := fun d => ?_
      noted := fun d => ?_
      settled := fun d => ?_
      locals := fun u hu => ?_ }
  · -- the new thread has no lock yet
    have hlocked : ∀ (l : ℕ) (x : Thread), (w.threads ++ [Thread.start id dir task])[l]? = some x →
        x.locks = true → w.threads[l]? = some x := by
      intro l x hl hx
      rcases List.getElem?_concat_cases hl with ⟨-, rfl⟩ | hl
      · rw [hstart.1] at hx
        cases hx
      · exact hl
    exact h.excl j k u u' (hlocked j u hj hu) (hlocked k u' hk hu') hu hu' heq
  · rcases hmem u hu with hu | rfl
    · exact h.held u hu x hx
    · rw [hstart.2.1] at hx
      cases hx
  · refine (h.cached id v hv).imp_right fun hwritten => ?_
    obtain ⟨hlt, u, hu, hpc⟩ := hwritten
    exact ⟨hlt, u, hold u hu, hpc⟩
  · refine (h.kept d).imp_right (Or.imp_right fun hheld => ?_)
    obtain ⟨u, hu, hx⟩ := hheld
    exact ⟨u, hold u hu, hx⟩
  · refine (h.noted d).imp_right (Or.imp_right fun hheld => ?_)
    obtain ⟨u, hu, hx⟩ := hheld
    exact ⟨u, hold u hu, hx⟩
  · refine (h.settled d).imp_right fun hwritten => ?_
    obtain ⟨hle, u, hu, hpc⟩ := hwritten
    exact ⟨hle, u, hold u hu, hpc⟩
  · rcases hmem u hu with hu | rfl
    · exact h.locals u hu
    · exact hstart.2.2

theorem saved_step {a : Action} (h : Saved told w) (htidy : Tidy w) (hok : Orderly told w a)
    (hstep : w.step a = some w') : Saved told w' := by
  cases a with
  | register root =>
      obtain ⟨r, -, rfl⟩ := Option.map_eq_some_iff.mp hstep
      exact { h with }
  | remove id =>
      obtain ⟨r, -, rfl⟩ := Option.map_eq_some_iff.mp hstep
      exact { h with }
  | start id task =>
      obtain ⟨p, -, rfl⟩ := Option.map_eq_some_iff.mp hstep
      exact saved_spawn h task
  | due id =>
      obtain ⟨-, hstep⟩ := Option.ite_none_right_eq_some.mp hstep
      cases hstep
      exact saved_spawn h _
  | run i c =>
      obtain ⟨t, hi, hstep⟩ := Option.bind_eq_some_iff.mp hstep
      obtain ⟨⟨w₁, t'⟩, hexec, hstep⟩ := Option.bind_eq_some_iff.mp hstep
      cases hstep
      exact saved_exec h htidy hi (hok t hi) hexec

end Steps

/-! ### The promises -/

theorem saved_start {told : Bool} {capacity : ℕ} {registry : ProjectRegistry}
    {disk : Path → Option Version} (hdisk : ∀ dir v, disk dir = some v → v.owner = dir ∧ v.seq = 0) :
    Saved told (.start capacity registry disk) := by
  have hzero : ∀ dir, ((disk dir).getD ⟨.empty, dir, 0⟩).seq = 0 ∧
      ((disk dir).getD ⟨.empty, dir, 0⟩).owner = dir := by
    intro dir
    cases hd : disk dir with
    | none => exact ⟨rfl, rfl⟩
    | some v => exact ⟨(hdisk dir v hd).2, (hdisk dir v hd).1⟩
  exact
    { excl := fun i j t u hi => by simp [World.start] at hi
      bound := fun dir => (hzero dir).1.le
      disk := fun dir => by
        have howner : ((World.start capacity registry disk).checkpoint dir).owner = dir :=
          (hzero dir).2
        refine Or.inl ?_
        rw [howner]
        rfl
      held := fun t ht => by cases ht
      cached := fun id v hv => by simp [World.start, ProjectStateCache.new] at hv
      resident := fun id hid => by simp [World.start, ProjectStateCache.new] at hid
      kept := fun dir => Or.inl rfl
      noted := fun dir => Or.inl (Nat.zero_le _)
      settled := fun dir => Or.inl (hzero dir).1.symm
      locals := fun t ht => by cases ht }

theorem saved_of_reach {told : Bool} {w : World} (h : system.Reach (Orderly told) w) :
    Tidy w ∧ Saved told w := by
  refine h.invariant (I := fun w => Tidy w ∧ Saved told w) ?_ fun w a w' hinv hok hstep =>
    ⟨tidy_step hinv.1 hok.takesOverClean hstep, saved_step hinv.2 hinv.1 hok hstep⟩
  rintro w ⟨capacity, registry, disk, hreg, hdisk, rfl⟩
  exact ⟨tidy_start hreg fun dir v hv => (hdisk dir v hv).1, saved_start hdisk⟩

/-- **Acknowledged means persisted.** In every orderly run, when a client's command has
succeeded, the checkpoint of its project is at least as recent as every state that was
recorded before its final flush; and so is what an export was derived from. -/
theorem acknowledged_persisted {w : World} (h : system.Reach (Orderly true) w) :
    ∀ t ∈ w.threads, t.task.command = true → t.pc.succeeded = true →
      t.seen ≤ (w.checkpoint t.dir).seq ∧ (t.task = .export →
        ∃ v, w.graphJson t.dir = some v ∧ v.owner = t.dir ∧ t.seen ≤ v.seq) := by
  obtain ⟨htidy, hsaved⟩ := saved_of_reach h
  intro t ht hcommand hdone
  have hlocal := hsaved.locals t ht
  cases hpc : t.pc with
  | done ok =>
      rw [hpc] at hdone
      have hok : ok = true := hdone
      subst hok
      unfold Thread.Local at hlocal
      rw [hpc] at hlocal
      obtain ⟨hseen, hexport⟩ := hlocal rfl hcommand
      refine ⟨hseen, fun htask => ?_⟩
      obtain ⟨v, hv, hle⟩ := hexport htask
      exact ⟨v, hv, htidy.exported _ v hv, hle⟩
  | _ => rw [hpc] at hdone; cases hdone

/-- A check that is enough for `Orderly`: nothing is paged out, and page-ins are fresh. -/
def orderly (w : World) : Action → Bool
  | .run i _ => w.threads.all (fun t => t.pc.held.isEmpty) && w.threads[i]?.all fun t =>
      match t.pc with
      | .load => t.id ∉ w.cache.dirty
      | .install _ seen => (w.last t.dir).seq = seen
      | .evict (_ :: _) _ => false
      | _ => true
  | .register _ => false
  | _ => true

theorem orderly_of_check {told : Bool} (w : World) (a : Action) (h : orderly w a = true) :
    Orderly told w a := by
  cases a with
  | run i c =>
      intro t ht
      simp only [orderly, ht, Option.all_some, Bool.and_eq_true, List.all_eq_true,
        List.isEmpty_iff] at h
      obtain ⟨hheld, hpc⟩ := h
      have hwritten : ∀ dir, ¬ Unwritten w dir := by
        rintro dir ⟨u, hu, x, hx, -⟩
        rw [hheld u hu] at hx
        cases hx
      have hnone := hheld t (List.mem_of_getElem? ht)
      obtain ⟨id, dir, task, pc, seen⟩ := t
      refine ⟨?_, ?_, fun _ => ?_⟩
      · cases c with
        | ok =>
            cases pc with
            | load => exact ⟨of_decide_eq_true hpc, hwritten _⟩
            | install v seen' =>
                have hseen : (w.last dir).seq = seen' := of_decide_eq_true hpc
                exact hseen
            | _ => trivial
        | _ => trivial
      · cases c with
        | ok =>
            cases pc with
            | evict es k =>
                cases es with
                | nil => trivial
                | cons e es => cases hpc
            | writeBack id dir v es k => cases hnone
            | _ => trivial
        | fail => cases pc <;> trivial
        | _ => trivial
      · cases pc <;> first | trivial | exact fun _ _ => hwritten _
  | register root => cases h
  | _ => trivial

/-- `acknowledged_persisted` where a flush writes what an apply has recorded. -/
theorem acknowledged_persisted_sample : ∃ (w : World) (t : Thread), t ∈ w.threads ∧
    t.seen = 1 ∧ t.pc.succeeded = true ∧ t.seen ≤ (w.checkpoint t.dir).seq := by
  have hrun : (system.step (.start 1 ∅ fun _ => none) (.register ["srv", "app"])).bind (fun w =>
      (system.runOk orderly w ((recordRun ["srv", "app"]).tail ++
        [.start "app" (.flush true)] ++ List.replicate 8 (.run 1 .ok))).map fun w =>
          w.threads[1]?.map fun t => (t.task.command, t.pc.succeeded, t.seen)) =
      some (some (true, true, 1)) := by
    decide +kernel
  obtain ⟨w₁, hreg, hrun⟩ := Option.bind_eq_some_iff.mp hrun
  obtain ⟨w, hw, hthread⟩ := Option.map_eq_some_iff.mp hrun
  obtain ⟨t, ht, hends⟩ := Option.map_eq_some_iff.mp hthread
  simp only [Prod.mk.injEq] at hends
  obtain ⟨hcommand, hdone, hseen⟩ := hends
  have hok : Orderly true (.start 1 ∅ fun _ => none) (.register ["srv", "app"]) :=
    takesOverClean_start 1 _
  have hfirst : system.Reach (Orderly true) w₁ := .step (reach_start _ 1) hok hreg
  have hreach := hfirst.runOk orderly_of_check hw
  have hmem := List.mem_of_getElem? ht
  exact ⟨w, t, hmem, hseen, hdone, (acknowledged_persisted hreach t hmem hcommand hdone).1⟩

/-- A flush is told "clean" while the thread that paged the state out has yet to write it. -/
theorem acknowledged_not_persisted : ¬ ∀ w, system.Reach Lts.anyStep w → ∀ t ∈ w.threads,
    t.task.command = true → t.pc.succeeded = true → t.seen ≤ (w.checkpoint t.dir).seq := by
  intro hclaim
  have hrun : (system.run (.start 1 ∅ fun _ => none) (recordRun ["srv", "app"] ++
      [.register ["srv", "lib"], .start "lib" (.query false)] ++ List.replicate 5 (.run 1 .ok) ++
      [.start "app" (.flush true), .run 2 .ok])).map (fun w => w.threads[2]?.map fun t =>
        (t.task.command, t.pc.succeeded, t.seen, (w.checkpoint t.dir).seq)) =
      some (some (true, true, 1, 0)) := by
    decide +kernel
  obtain ⟨w, hw, hthread⟩ := Option.map_eq_some_iff.mp hrun
  obtain ⟨t, ht, hends⟩ := Option.map_eq_some_iff.mp hthread
  simp only [Prod.mk.injEq] at hends
  obtain ⟨hcommand, hdone, hseen, hseq⟩ := hends
  have hreach := (reach_start Lts.anyStep 1).run (fun _ _ _ => trivial) hw
  have hle := hclaim w hreach t (List.mem_of_getElem? ht) hcommand hdone
  omega

end Filigrio.Daemon.Flush
