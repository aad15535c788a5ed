import Filigrio.Daemon.WriteBehind

/-!
# Filigrio.Daemon.Marker

The clean-shutdown marker over the lives of many daemons. Each process reads and removes
the marker, serves, and in its `shutdown` flushes what is dirty and writes the marker,
unless a flush failed. A process may crash between any two steps, writes and the removal
may fail, and the lock that keeps a second daemon out is released before `shutdown`.
-/

namespace Filigrio.Daemon.Marker

open Flush (World Thread Choice)

/-- The marker file; for the record, the process that wrote it. -/
inductive Body
  | torn
  | full (writer : ℕ)
  deriving DecidableEq, Repr

/-- Where a process is in its life. -/
inductive Phase
  | starting
  /-- The marker has been read, and is to be removed. -/
  | found (body : Option Body)
  | serving
  /-- The handshake lock is released. -/
  | tornDown
  /-- `flush_all`, with the flush at work, the ids to come, and whether one has failed. -/
  | flushing (cur : Option ℕ) (todo : List String) (failed : Bool)
  | promising
  | filling
  /-- Ended through `shutdown`. -/
  | finished
  | crashed
  deriving DecidableEq, Repr

namespace Phase

/-- The handshake lock is held. -/
def locked : Phase → Bool
  | starting | found _ | serving => true
  | _ => false

/-- What may happen in the process. The producer lane has drained at the teardown, which
holds the daemon's own lock, and the cadence is stopped before `flush_all`. -/
def allows : Phase → Flush.Action → Bool
  | serving, _ => true
  | tornDown, .due _ => true
  | tornDown, a | flushing _ _ _, a | promising, a | filling, a | finished, a =>
    match a with
    | .register _ | .remove _ | .start _ (.apply .defer) | .due _ => false
    | _ => true
  | _, _ => false

end Phase

/-- What a process left when it wrote the marker: its checkpoints, and the state last
recorded for each root. -/
structure Left where
  checkpoint : Path → GraphState
  recorded : Path → GraphState

structure Proc where
  world : World
  phase : Phase
  left : Option Left

/-- The disk and the processes, the latest one last. For the record: the state last
recorded for each root, by whatever process. -/
structure Machine where
  disk : Path → Option Version
  marker : Option Body
  recorded : Path → GraphState
  procs : List Proc

inductive Action
  /-- A process passes the handshake and loads the registry of these roots. -/
  | boot (capacity : ℕ) (roots : List Path)
  | crash (p : ℕ)
  -- `startup_reconcile`
  | read (p : ℕ)
  | consume (p : ℕ) (ok : Bool)
  | flusher (p : ℕ) (a : Flush.Action)
  -- `teardown`, `shutdown`
  | teardown (p : ℕ)
  | flushAll (p : ℕ) (order : List String)
  | flushNext (p : ℕ)
  | create (p : ℕ) (ok : Bool)
  | fill (p : ℕ) (ok : Bool)
  deriving DecidableEq

/-- `load_registry`: of two roots of one id the first is loaded. -/
def loadRegistry (roots : List Path) : ProjectRegistry :=
  roots.foldl (fun r root => (r.add (.new root)).getD r) ∅

namespace Machine

variable (m : Machine)

/-- The checkpoints as a new process finds them: it numbers anew. -/
def found (dir : Path) : Option Version := (m.disk dir).map fun v => ⟨v.state, dir, 0⟩

def setProc (p : ℕ) (q : Proc) : Machine := { m with procs := m.procs.set p q }

/-- The process, and the file system as it is. -/
def view (q : Proc) : World := { q.world with disk := m.disk }

/-- The states recorded by a step of a process. -/
def remember (w w' : World) (dir : Path) : GraphState :=
  if w'.last dir = w.last dir then m.recorded dir else (w'.last dir).state

/-- What there is to say of a process at the end of its `flush_all`. -/
def leave (q : Proc) : Left where
  checkpoint dir := ((m.view q).checkpoint dir).state
  recorded := m.recorded

/-- No thread of the task is at work. -/
def drained (w : World) (task : Flush.Task) : Bool := w.threads.all fun t => t.task ≠ task || t.pc.ended

/-- `flush_each`: the next project, or the end of the one at work, or of them all. -/
def flushNext (q : Proc) : Option Proc :=
  match q.phase with
  | .flushing (some i) todo failed =>
    match q.world.threads[i]? with
    | some t =>
      if t.pc.ended then
        some { q with phase := .flushing none todo (failed || !t.pc.succeeded) }
      else none
    | none => none
  | .flushing none (id :: ids) failed =>
    some (if id ∈ q.world.dirty then
        { q with
          world := q.world.spawn (.start id (q.world.outDirs[id]?.getD []) (.flush true))
          phase := .flushing (some q.world.threads.length) ids failed }
      else { q with phase := .flushing none ids failed })
  -- a flush that failed withholds the marker
  | .flushing none [] failed => some { q with phase := if failed then .finished else .promising }
  | _ => none

def step (m : Machine) : Action → Option Machine
  | .boot capacity roots =>
    if m.procs.all fun q => !q.phase.locked then
      some { m with
        disk := m.found
        procs := m.procs ++ [⟨.start capacity (loadRegistry roots) m.found, .starting, none⟩] }
    else none
  | .crash p => do
    let q ← m.procs[p]?
    if q.phase = .finished ∨ q.phase = .crashed then none
    else some (m.setProc p { q with phase := .crashed })
  | .read p => do
    let q ← m.procs[p]?
    if q.phase = .starting then some (m.setProc p { q with phase := .found m.marker }) else none
  | .consume p ok => do
    let q ← m.procs[p]?
    match q.phase with
    | .found _ => some { m.setProc p { q with phase := .serving } with
        marker := if ok then none else m.marker }
    | _ => none
  | .flusher p a => do
    let q ← m.procs[p]?
    if q.phase.allows a then do
      let w ← (m.view q).step a
      some { m.setProc p { q with world := w } with
        disk := w.disk
        recorded := m.remember q.world w }
    else none
  | .teardown p => do
    let q ← m.procs[p]?
    if q.phase = .serving ∧ drained q.world (.apply .defer) then
      some (m.setProc p { q with phase := .tornDown })
    else none
  | .flushAll p order => do
    let q ← m.procs[p]?
    if q.phase = .tornDown ∧ drained q.world (.flush false) ∧ order.Nodup ∧
        order.toFinset = q.world.dirty then
      some (m.setProc p { q with phase := .flushing none order false })
    else none
  | .flushNext p => do
    let q ← m.procs[p]?
    let q' ← flushNext q
    some (m.setProc p q')
  | .create p ok => do
    let q ← m.procs[p]?
    if q.phase = .promising then
      some (if ok then { m.setProc p { q with phase := .filling } with marker := some .torn }
        else m.setProc p { q with phase := .finished })
    else none
  | .fill p ok => do
    let q ← m.procs[p]?
    if q.phase = .filling then
      some (if ok then { m.setProc p { q with phase := .finished, left := some (m.leave q) } with
          marker := some (.full p) }
        else m.setProc p { q with phase := .finished })
    else none

end Machine

/-- The lives of daemons on a file system without a marker. -/
def system : Lts Machine Action where
  init m := m.procs = [] ∧ m.marker = none ∧
    ∀ dir, m.recorded dir = ((m.disk dir).map Version.state).getD .empty
  step := Machine.step

/-! ### The condition -/

/-- No later process has started. -/
def Machine.Current (m : Machine) (p : ℕ) : Prop := p + 1 = m.procs.length

/-- A full marker is there. -/
def Machine.Promised (m : Machine) : Prop := ∃ k, m.marker = some (.full k)

/-- The steps of the runs in which the marker does not lie: a process takes none after
its successor has started, one that finds a full marker removes it and does not crash
before, the flusher is orderly, and at the writing of the marker nothing that was paged
out is still to be written and no root's last state was recorded, and lost, by an earlier
process. -/
def KeepsPromise (m : Machine) : Action → Prop
  | .boot _ _ => True
  | .crash p => ∀ q, m.procs[p]? = some q → q.phase.locked → q.phase ≠ .serving → ¬ m.Promised
  | .consume p ok => m.Current p ∧ (ok = false → ¬ m.Promised)
  | .flusher p a => m.Current p ∧ ∀ q, m.procs[p]? = some q → Flush.Orderly false (m.view q) a
  | .fill p _ => m.Current p ∧ ∀ q, m.procs[p]? = some q →
      (∀ dir, ¬ Flush.Unwritten (m.view q) dir) ∧
        ∀ dir, (q.world.last dir).state = m.recorded dir
  | .read p | .teardown p | .flushAll p _ | .flushNext p | .create p _ => m.Current p

/-! ### What threads do not do -/

section Threads

open Flush (Pc After)

/-- The task calls `state_of`. -/
def pages : Flush.Task → Bool
  | .apply _ | .query _ => true
  | _ => false

def Fits (task : Flush.Task) : After → Prop
  | .served _ => pages task = true
  | .recorded => True

/-- Only applies get to the pipeline, and only those of the producer lane mark a project
dirty. -/
def Proper (t : Thread) : Prop :=
  match t.pc with
  | .probe | .hasCheckpoint | .remember | .lookup | .load | .install _ _ => pages t.task = true
  | .evict _ k | .findDir _ _ _ k | .writeBack _ _ _ _ k => Fits t.task k
  | .mutate _ | .rememberFresh _ => ∃ lane, t.task = .apply lane
  | .put _ | .mark _ _ => t.task = .apply .defer
  | .snapshot => t.task = .export
  | _ => True

variable {w w' : World} {t t' : Thread} {c : Choice} {k : After}

theorem proper_start (id : String) (dir : Path) (task : Flush.Task) : Proper (.start id dir task) := by
  cases task with
  | query warm => cases warm <;> rfl
  | _ => trivial

theorem resume_proper (h : Fits t.task k) : Proper (t.goto (t.resume k)) := by
  obtain ⟨id, dir, task, pc, seen⟩ := t
  cases k with
  | served answer =>
      cases answer with
      | none => trivial
      | some v =>
          cases task with
          | apply lane => exact ⟨lane, rfl⟩
          | query warm => trivial
          | _ => cases h
  | recorded =>
      cases task with
      | apply lane => cases lane <;> trivial
      | _ => trivial

theorem flushed_proper : Proper (t.goto t.flushed) := by
  obtain ⟨id, dir, task, pc, seen⟩ := t
  cases task <;> trivial

theorem proper_host (h : Proper t) (hexec : w.host t c = some (w', t')) : Proper t' := by
  obtain ⟨id, dir, task, pc, seen⟩ := t
  unfold World.host at hexec
  dsimp only at hexec
  split at hexec
  · split at hexec
    · cases hexec
      cases task <;> trivial
    · cases hexec
  · split at hexec <;> cases hexec
    · trivial
    · exact h
  · cases hexec
    show Proper ((_ : Thread).goto (if (w.disk dir).isSome then .remember else .done false))
    split
    · exact h
    · trivial
  · cases hexec
    trivial
  · cases hexec
    exact resume_proper trivial
  · cases hexec
    exact h
  · cases hexec
    trivial
  · cases hexec
    trivial
  · cases hexec

theorem proper_stateOf (h : Proper t) (hexec : w.stateOf t c = some (w', t')) : Proper t' := by
  obtain ⟨id, dir, task, pc, seen⟩ := t
  unfold World.stateOf at hexec
  dsimp only at hexec
  split at hexec
  · cases hexec
    exact h
  · split at hexec <;> cases hexec
    · exact resume_proper h
    · exact h
  · cases hexec
    exact h
  · cases hexec
    trivial
  · cases hexec
    exact h
  · cases hexec

theorem proper_flushEvicted (h : Proper t) (hexec : w.flushEvicted t c = some (w', t')) :
    Proper t' := by
  obtain ⟨id, dir, task, pc, seen⟩ := t
  unfold World.flushEvicted at hexec
  dsimp only at hexec
  split at hexec
  · cases hexec
    exact resume_proper h
  · cases hexec
    split <;> exact h
  · cases hexec
    split
    · exact h
    · trivial
  · cases hexec
    exact h
  · cases hexec
    trivial
  · cases hexec

theorem proper_recordApply (h : Proper t) (hexec : w.recordApply t c = some (w', t')) :
    Proper t' := by
  obtain ⟨id, dir, task, pc, seen⟩ := t
  unfold World.recordApply at hexec
  dsimp only at hexec
  split at hexec
  · cases hexec
    obtain ⟨lane, rfl⟩ := h
    cases lane <;> trivial
  · cases hexec
    trivial
  · cases hexec
    trivial
  · cases hexec
    trivial
  · cases hexec
    trivial
  · cases hexec
    exact h
  · cases hexec
    trivial
  · cases hexec

theorem proper_flushProject (hexec : w.flushProject t c = some (w', t')) : Proper t' := by
  obtain ⟨id, dir, task, pc, seen⟩ := t
  unfold World.flushProject at hexec
  dsimp only at hexec
  split at hexec
  · split at hexec <;> cases hexec <;> trivial
  · split at hexec <;> cases hexec
    trivial
  · split at hexec <;> cases hexec
    · trivial
    · exact flushed_proper
  · cases hexec
    split <;> trivial
  · cases hexec
    split <;> trivial
  · cases hexec
    trivial
  · cases hexec
    trivial
  · cases hexec
    trivial
  · cases hexec
    trivial
  · cases hexec
    exact flushed_proper
  · cases hexec

theorem proper_exec (h : Proper t) (hexec : w.exec t c = some (w', t')) : Proper t' := by
  unfold World.exec at hexec
  split at hexec <;> first
    | exact proper_host h hexec
    | exact proper_stateOf h hexec
    | exact proper_flushEvicted h hexec
    | exact proper_recordApply h hexec
    | exact proper_flushProject hexec
    | cases hexec

/-- An access keeps what the thread is for, and leaves the other threads alone. -/
theorem exec_frame (hexec : w.exec t c = some (w', t')) :
    w'.threads = w.threads ∧ t'.id = t.id ∧ t'.task = t.task := by
  obtain ⟨id, dir, task, pc, seen⟩ := t
  cases pc <;> cases c <;>
    simp only [World.exec, World.host, World.stateOf, World.flushEvicted, World.recordApply,
      World.flushProject, reduceCtorEq] at hexec <;>
    (try split at hexec) <;> (try split at hexec) <;> cases hexec <;> exact ⟨rfl, rfl, rfl⟩

/-- Only the end of a producer's recording marks a project dirty. -/
theorem exec_dirty (hexec : w.exec t c = some (w', t')) (hmark : ∀ v es, t.pc ≠ .mark v es) :
    w'.dirty ⊆ w.dirty := by
  obtain ⟨id, dir, task, pc, seen⟩ := t
  cases pc <;> cases c <;>
    simp only [World.exec, World.host, World.stateOf, World.flushEvicted, World.recordApply,
      World.flushProject, reduceCtorEq] at hexec <;>
    (try split at hexec) <;> (try split at hexec) <;> cases hexec <;>
    first
      | exact Finset.Subset.refl _
      | exact Finset.erase_subset _ _
      | exact absurd rfl (hmark _ _)

theorem resume_flush {command : Bool} (htask : t.task = .flush command) :
    t.resume k ≠ .done true := by
  obtain ⟨id, dir, task, pc, seen⟩ := t
  have htask : task = .flush command := htask
  subst htask
  rcases k with ⟨_ | v⟩ | _ <;> nofun

/-- A flush that has succeeded leaves its project clean. -/
theorem exec_flushed {command : Bool} (h : Proper t) (htask : t.task = .flush command)
    (hexec : w.exec t c = some (w', t')) (hdone : t'.pc = .done true) : t.id ∉ w'.dirty := by
  obtain ⟨id, dir, task, pc, seen⟩ := t
  have htask : task = .flush command := htask
  subst htask
  cases pc <;> cases c <;>
    simp only [World.exec, World.host, World.stateOf, World.flushEvicted, World.recordApply,
      World.flushProject, reduceCtorEq] at hexec <;>
    (try split at hexec) <;> (try split at hexec) <;> cases hexec <;>
    simp only [Thread.goto, Thread.flushed, reduceCtorEq] at hdone
  all_goals first
    | exact absurd hdone (resume_flush rfl)
    | (show id ∉ w.dirty; assumption)
    | (cases hdone; done)
    | exact Finset.notMem_erase _ _
    | cases h

end Threads

/-! ### The invariant -/

/-- No thread of the producer lane is at work. -/
def NoProducer (w : World) : Prop := ∀ t ∈ w.threads, t.task = .apply .defer → t.pc.ended = true

namespace Proc

/-- What has become of the dirty projects in a phase of the process. -/
def Flushed (q : Proc) (marker : Option Body) : Prop :=
  match q.phase with
  | .found body => body = marker
  | .tornDown => NoProducer q.world
  | .flushing cur todo failed => NoProducer q.world ∧
      (∀ i, cur = some i → ∃ t, q.world.threads[i]? = some t ∧ t.task = .flush true) ∧
      (failed = true ∨ ∀ id ∈ q.world.dirty, id ∈ todo ∨ ∃ i t, cur = some i ∧
        q.world.threads[i]? = some t ∧ t.id = id ∧ t.pc ≠ .done true)
  | .promising | .filling => NoProducer q.world ∧ q.world.dirty = ∅
  | _ => True

/-- The process has neither ended nor crashed. -/
def running (q : Proc) : Bool :=
  match q.phase with
  | .finished | .crashed => false
  | _ => true

end Proc

/-- The latest process keeps what is recorded, and a full marker is the promise of the
process before. -/
structure Kept (m : Machine) : Prop where
  alone : ∀ (p : ℕ) (q : Proc), m.procs[p]? = some q → q.phase.locked = true → m.Current p
  flusher : ∀ (p : ℕ) (q : Proc), m.procs[p]? = some q → m.Current p → q.running = true →
    Flush.Tidy (m.view q) ∧ Flush.Saved false (m.view q) ∧ (∀ t ∈ q.world.threads, Proper t) ∧
      q.Flushed m.marker
  left : ∀ (p : ℕ) (q : Proc) (l : Left), m.procs[p]? = some q → q.left = some l →
    l.checkpoint = l.recorded
  promise : ∀ k, m.marker = some (.full k) → (∃ q l, m.procs[k]? = some q ∧
    q.phase = .finished ∧ q.left = some l) ∧ (m.Current k ∨ m.Current (k + 1) ∧
      ∃ r, m.procs[k + 1]? = some r ∧ r.phase.locked = true ∧ r.phase ≠ .serving)

section Steps

variable {m m' : Machine} {p : ℕ} {q q' : Proc}

/-- A process moves on. -/
theorem Kept.set (h : Kept m) (hq : m.procs[p]? = some q) (hprocs : m'.procs = m.procs.set p q')
    (hrest : m.Current p ∨ m'.disk = m.disk ∧ m'.marker = m.marker)
    (hlock : q'.phase.locked = true → q.phase.locked = true)
    (hflusher : m.Current p → q'.running = true → Flush.Tidy (m'.view q') ∧
      Flush.Saved false (m'.view q') ∧ (∀ t ∈ q'.world.threads, Proper t) ∧ q'.Flushed m'.marker)
    (hleft : ∀ l, q'.left = some l → l.checkpoint = l.recorded)
    (hpromise : ∀ k, m'.marker = some (.full k) →
      (k = p ∧ m.Current p ∧ q'.phase = .finished ∧ ∃ l, q'.left = some l) ∨
      m.marker = some (.full k) ∧ (q.phase = .finished → q'.phase = .finished ∧ q'.left = q.left) ∧
        (q.phase.locked = true → q.phase ≠ .serving →
          q'.phase.locked = true ∧ q'.phase ≠ .serving)) : Kept m' := by
  have hlt := List.lt_of_getElem?_eq_some hq
  have hlength : m'.procs.length = m.procs.length := by rw [hprocs, List.length_set]
  have hcurrent : ∀ j, m'.Current j ↔ m.Current j := by
    intro j
    unfold Machine.Current
    rw [hlength]
  have hcases : ∀ {j : ℕ} {r : Proc}, m'.procs[j]? = some r →
      (j = p ∧ r = q') ∨ (j ≠ p ∧ m.procs[j]? = some r) := by
    intro j r hr
    rw [hprocs] at hr
    exact List.getElem?_set_cases hlt hr
  have hself : m'.procs[p]? = some q' := by rw [hprocs, List.getElem?_set_self hlt]
  have hother : ∀ {j : ℕ}, j ≠ p → m'.procs[j]? = m.procs[j]? := by
    intro j hj
    rw [hprocs, List.getElem?_set_ne (Ne.symm hj)]
  refine ⟨fun j r hr hlocked => ?_, fun j r hr hcur hrunning => ?_, fun j r l hr hl => ?_,
    fun k hk => ?_⟩
  · rw [hcurrent]
    rcases hcases hr with ⟨rfl, rfl⟩ | ⟨-, hr⟩
    · exact h.alone j q hq (hlock hlocked)
    · exact h.alone j r hr hlocked
  · rw [hcurrent] at hcur
    rcases hcases hr with ⟨rfl, rfl⟩ | ⟨hne, hr⟩
    · exact hflusher hcur hrunning
    · rcases hrest with hp | ⟨hdisk, hmarker⟩
      · unfold Machine.Current at hcur hp
        omega
      · have hview : m'.view r = m.view r := by
          unfold Machine.view
          rw [hdisk]
        rw [hview, hmarker]
        exact h.flusher j r hr hcur hrunning
  · rcases hcases hr with ⟨rfl, rfl⟩ | ⟨-, hr⟩
    · exact hleft l hl
    · exact h.left j r l hr hl
  · rcases hpromise k hk with ⟨rfl, hcur, hphase, l, hl⟩ | ⟨hmarker, hfinished, hlocked⟩
    · exact ⟨⟨q', l, hself, hphase, hl⟩, Or.inl ((hcurrent k).mpr hcur)⟩
    · obtain ⟨⟨r, l, hr, hphase, hl⟩, hlast⟩ := h.promise k hmarker
      constructor
      · by_cases hkp : k = p
        · subst hkp
          cases hq.symm.trans hr
          obtain ⟨hphase', hl'⟩ := hfinished hphase
          exact ⟨q', l, hself, hphase', hl'.trans hl⟩
        · exact ⟨r, l, (hother hkp).trans hr, hphase, hl⟩
      · rw [hcurrent, hcurrent]
        refine hlast.imp_right fun ⟨hcur, r', hr', hr'locked, hr'serving⟩ => ⟨hcur, ?_⟩
        by_cases hkp : k + 1 = p
        · subst hkp
          cases hq.symm.trans hr'
          exact ⟨q', hself, hlocked hr'locked hr'serving⟩
        · exact ⟨r', (hother hkp).trans hr', hr'locked, hr'serving⟩

theorem not_mark {w : World} {t : Thread} (hproper : ∀ t ∈ w.threads, Proper t)
    (hproducer : NoProducer w) (ht : t ∈ w.threads) (v : Version) (es : List (Evicted Version)) :
    t.pc ≠ .mark v es := by
  intro hpc
  have htask := hproper t ht
  unfold Proper at htask
  rw [hpc] at htask
  have hended := hproducer t ht htask
  rw [hpc] at hended
  cases hended

/-- A thread that has moved on and the others, once the producer lane has drained. -/
theorem exec_drained {w w₁ : World} {t t' : Thread} {i : ℕ} {c : Choice}
    (hproper : ∀ t ∈ w.threads, Proper t) (hproducer : NoProducer w)
    (hi : w.threads[i]? = some t) (hexec : w.exec t c = some (w₁, t')) :
    NoProducer (w₁.setThread i t') ∧ w₁.dirty ⊆ w.dirty := by
  have ht := List.mem_of_getElem? hi
  obtain ⟨hthreads, -, htask⟩ := exec_frame hexec
  constructor
  · intro u hu hdefer
    have hu : u ∈ w.threads.set i t' := hthreads ▸ hu
    rcases List.mem_or_eq_of_mem_set hu with hu | rfl
    · exact hproducer u hu hdefer
    · -- a producer's thread has ended, and does not move
      have hended := hproducer t ht (htask.symm.trans hdefer)
      obtain ⟨id, dir, task, pc, seen⟩ := t
      cases pc with
      | served v => cases hexec
      | done ok => cases hexec
      | _ => cases hended
  · exact exec_dirty hexec (not_mark hproper hproducer ht)

/-- What is left to the flush at work, or to those to come, stays so. -/
theorem flushed_run {w w₁ : World} {t t' : Thread} {i : ℕ} {c : Choice} {marker : Option Body}
    (hproper : ∀ t ∈ w.threads, Proper t) (hi : w.threads[i]? = some t)
    (hexec : w.exec t c = some (w₁, t')) {phase : Phase} {left : Option Left}
    (h : Proc.Flushed ⟨w, phase, left⟩ marker) :
    Proc.Flushed ⟨w₁.setThread i t', phase, left⟩ marker := by
  obtain ⟨hthreads, hid, htask⟩ := exec_frame hexec
  have hlt := List.lt_of_getElem?_eq_some hi
  have hself : (w₁.setThread i t').threads[i]? = some t' := by
    show (w₁.threads.set i t')[i]? = _
    rw [hthreads, List.getElem?_set_self hlt]
  have hother : ∀ {j : ℕ}, j ≠ i → (w₁.setThread i t').threads[j]? = w.threads[j]? := by
    intro j hj
    show (w₁.threads.set i t')[j]? = _
    rw [hthreads, List.getElem?_set_ne (Ne.symm hj)]
  cases phase with
  | tornDown => exact (exec_drained hproper h hi hexec).1
  | flushing cur todo failed =>
      obtain ⟨hproducer, hcur, hdirty⟩ := h
      obtain ⟨hproducer', hsub⟩ := exec_drained hproper hproducer hi hexec
      refine ⟨hproducer', fun j hj => ?_, hdirty.imp_right fun hdirty id hmem => ?_⟩
      · obtain ⟨u, hu, hflush⟩ := hcur j hj
        by_cases hji : j = i
        · subst hji
          cases hi.symm.trans hu
          exact ⟨t', hself, htask.trans hflush⟩
        · exact ⟨u, (hother hji).trans hu, hflush⟩
      · refine (hdirty id (hsub hmem)).imp_right ?_
        rintro ⟨j, u, hj, hu, rfl, hpc⟩
        by_cases hji : j = i
        · subst hji
          cases hi.symm.trans hu
          obtain ⟨u', hu', hflush⟩ := hcur j hj
          cases hi.symm.trans hu'
          refine ⟨j, t', hj, hself, hid, fun hdone => ?_⟩
          exact exec_flushed (hproper t (List.mem_of_getElem? hi)) hflush hexec hdone hmem
        · exact ⟨j, u, hj, (hother hji).trans hu, rfl, hpc⟩
  | promising =>
      obtain ⟨hproducer', hsub⟩ := exec_drained hproper h.1 hi hexec
      exact ⟨hproducer', Finset.subset_empty.mp (hsub.trans h.2.le)⟩
  | filling =>
      obtain ⟨hproducer', hsub⟩ := exec_drained hproper h.1 hi hexec
      exact ⟨hproducer', Finset.subset_empty.mp (hsub.trans h.2.le)⟩
  | _ => exact h

/-- A thread that begins is no producer's where that lane has drained. -/
theorem flushed_spawn {w : World} {t : Thread} {marker : Option Body} {phase : Phase}
    {left : Option Left} (ht : phase ≠ .serving → t.task ≠ .apply .defer)
    (h : Proc.Flushed ⟨w, phase, left⟩ marker) :
    Proc.Flushed ⟨w.spawn t, phase, left⟩ marker := by
  have hproducer : phase ≠ .serving → NoProducer w → NoProducer (w.spawn t) := by
    intro hphase hw u hu hdefer
    rcases List.mem_append.mp hu with hu | hu
    · exact hw u hu hdefer
    · cases List.mem_singleton.mp hu
      exact absurd hdefer (ht hphase)
  have hold : ∀ {j : ℕ} {u : Thread}, w.threads[j]? = some u → (w.spawn t).threads[j]? = some u := by
    intro j u hu
    show (w.threads ++ [t])[j]? = _
    rw [List.getElem?_append_left (List.lt_of_getElem?_eq_some hu), hu]
  cases phase with
  | tornDown => exact hproducer nofun h
  | flushing cur todo failed =>
      refine ⟨hproducer nofun h.1, fun j hj => ?_, h.2.2.imp_right fun hdirty id hmem => ?_⟩
      · obtain ⟨u, hu, hflush⟩ := h.2.1 j hj
        exact ⟨u, hold hu, hflush⟩
      · exact (hdirty id hmem).imp_right fun ⟨j, u, hj, hu, hrest⟩ => ⟨j, u, hj, hold hu, hrest⟩
  | promising => exact ⟨hproducer nofun h.1, h.2⟩
  | filling => exact ⟨hproducer nofun h.1, h.2⟩
  | _ => exact h

/-- An access of the flusher of a process. -/
theorem kept_flusher {a : Flush.Action} {w : World} (h : Kept m) (hcur : m.Current p)
    (hq : m.procs[p]? = some q) (hallows : q.phase.allows a = true)
    (hok : Flush.Orderly false (m.view q) a) (hstep : (m.view q).step a = some w) :
    Kept { m.setProc p { q with world := w } with
      disk := w.disk
      recorded := m.remember q.world w } := by
  refine h.set hq rfl (Or.inl hcur) (fun hlocked => hlocked) (fun _ hrunning => ?_)
    (fun l hl => h.left p q l hq hl)
    (fun k hk => Or.inr ⟨hk, fun hphase => ⟨hphase, rfl⟩, fun hlocked hserving => ⟨hlocked, hserving⟩⟩)
  obtain ⟨htidy, hsaved, hproper, hflushed⟩ := h.flusher p q hq hcur hrunning
  refine ⟨Flush.tidy_step htidy hok.takesOverClean hstep,
    Flush.saved_step hsaved htidy hok hstep, ?_⟩
  show (∀ t ∈ w.threads, Proper t) ∧ Proc.Flushed ⟨w, q.phase, q.left⟩ m.marker
  obtain ⟨w₀, phase, left⟩ := q
  cases a with
  | register root =>
      obtain ⟨r, -, rfl⟩ := Option.map_eq_some_iff.mp hstep
      exact ⟨hproper, hflushed⟩
  | remove id =>
      obtain ⟨r, -, rfl⟩ := Option.map_eq_some_iff.mp hstep
      exact ⟨hproper, hflushed⟩
  | start id task =>
      obtain ⟨project, -, rfl⟩ := Option.map_eq_some_iff.mp hstep
      constructor
      · intro t ht
        rcases List.mem_append.mp ht with ht | ht
        · exact hproper t ht
        · cases List.mem_singleton.mp ht
          exact proper_start ..
      · refine flushed_spawn (w := m.view ⟨w₀, phase, left⟩) (fun hserving htask => ?_) hflushed
        have htask : task = .apply .defer := htask
        subst htask
        cases phase <;> first | exact hserving rfl | cases hallows
  | due id =>
      obtain ⟨-, hstep⟩ := Option.ite_none_right_eq_some.mp hstep
      cases hstep
      constructor
      · intro t ht
        rcases List.mem_append.mp ht with ht | ht
        · exact hproper t ht
        · cases List.mem_singleton.mp ht
          exact proper_start ..
      · exact flushed_spawn (w := m.view ⟨w₀, phase, left⟩) (fun _ => nofun) hflushed
  | run i c =>
      obtain ⟨t, hi, hstep⟩ := Option.bind_eq_some_iff.mp hstep
      obtain ⟨⟨w₁, t'⟩, hexec, hstep⟩ := Option.bind_eq_some_iff.mp hstep
      cases hstep
      constructor
      · intro u hu
        have hu : u ∈ w₀.threads.set i t' := (exec_frame hexec).1 ▸ hu
        rcases List.mem_or_eq_of_mem_set hu with hu | rfl
        · exact hproper u hu
        · exact proper_exec (hproper t (List.mem_of_getElem? hi)) hexec
      · exact flushed_run (w := m.view ⟨w₀, phase, left⟩) hproper hi hexec hflushed

theorem loadRegistry_derived (roots : List Path) (id : String) (p : Project)
    (hp : (loadRegistry roots)[id]? = some p) : Flush.Derived p ∧ p.id = id := by
  have hfold : ∀ (roots : List Path) (r : ProjectRegistry),
      (∀ (id : String) (p : Project), r[id]? = some p → Flush.Derived p ∧ p.id = id) →
      ∀ (id : String) (p : Project),
        (roots.foldl (fun r root => (r.add (.new root)).getD r) r)[id]? = some p →
          Flush.Derived p ∧ p.id = id := by
    intro roots
    induction roots with
    | nil => exact fun r hr => hr
    | cons root roots ih =>
        intro r hr
        refine ih _ fun id p hp => ?_
        cases hadd : r.add (.new root) with
        | none =>
            simp only [hadd] at hp
            exact hr id p hp
        | some r' =>
            simp only [hadd] at hp
            have hp : r'[id]? = some p := hp
            rw [(ProjectRegistry.get_add _ hadd).2] at hp
            split at hp
            · rename_i hid
              cases hp
              exact ⟨Flush.derived_new root, hid⟩
            · exact hr id p hp
  exact hfold roots ∅ (fun id p hp => by simp at hp) id p hp

/-- A process starts, and finds what the one before has left. -/
theorem kept_boot (h : Kept m) (capacity : ℕ) (roots : List Path)
    (hfree : (m.procs.all fun q => !q.phase.locked) = true) :
    Kept { m with
      disk := m.found
      procs := m.procs ++ [⟨.start capacity (loadRegistry roots) m.found, .starting, none⟩] } := by
  have hunlocked : ∀ (j : ℕ) (r : Proc), m.procs[j]? = some r → r.phase.locked = false := by
    intro j r hr
    simpa using List.all_eq_true.mp hfree r (List.mem_of_getElem? hr)
  have hfound : ∀ dir v, m.found dir = some v → v.owner = dir ∧ v.seq = 0 := by
    intro dir v hv
    obtain ⟨u, -, rfl⟩ := Option.map_eq_some_iff.mp hv
    exact ⟨rfl, rfl⟩
  refine ⟨fun j r hr hlocked => ?_, fun j r hr hcur hrunning => ?_, fun j r l hr hl => ?_,
    fun k hk => ?_⟩
  · rcases List.getElem?_concat_cases hr with ⟨rfl, rfl⟩ | hr
    · simp [Machine.Current]
    · exact absurd hlocked (by simp [hunlocked j r hr])
  · rcases List.getElem?_concat_cases hr with ⟨rfl, rfl⟩ | hr
    · refine ⟨Flush.tidy_start (loadRegistry_derived roots) fun dir v hv => (hfound dir v hv).1,
        Flush.saved_start hfound, fun t ht => ?_, trivial⟩
      cases ht
    · have hlt := List.lt_of_getElem?_eq_some hr
      simp only [Machine.Current, List.length_append, List.length_singleton] at hcur
      omega
  · rcases List.getElem?_concat_cases hr with ⟨rfl, rfl⟩ | hr
    · cases hl
    · exact h.left j r l hr hl
  · obtain ⟨⟨r, l, hr, hphase, hl⟩, hlast⟩ := h.promise k hk
    refine ⟨⟨r, l, ?_, hphase, hl⟩, Or.inr ?_⟩
    · show (m.procs ++ _)[k]? = _
      rw [List.getElem?_append_left (List.lt_of_getElem?_eq_some hr), hr]
    · rcases hlast with hcur | ⟨-, r', hr', hlocked, -⟩
      · have hcur : k + 1 = m.procs.length := hcur
        have hnew : ∀ q : Proc, (m.procs ++ [q])[k + 1]? = some q := by
          intro q
          rw [hcur, List.getElem?_concat_length]
        exact ⟨by simp [Machine.Current, hcur], _, hnew _, rfl, nofun⟩
      · exact absurd hlocked (by simp [hunlocked _ r' hr'])

/-- `flush_each` moves on. -/
theorem flushed_next {marker : Option Body} (h : q.Flushed marker)
    (hnext : Machine.flushNext q = some q') : q'.Flushed marker := by
  obtain ⟨w, phase, left⟩ := q
  unfold Machine.flushNext at hnext
  dsimp only at hnext
  split at hnext
  · rename_i i todo failed
    obtain ⟨hproducer, -, hdirty⟩ := h
    split at hnext
    · rename_i t ht
      obtain ⟨hended, hnext⟩ := Option.ite_none_right_eq_some.mp hnext
      cases hnext
      refine ⟨hproducer, nofun, ?_⟩
      by_cases hfail : (failed || !t.pc.succeeded) = true
      · exact Or.inl hfail
      · simp only [Bool.or_eq_true, Bool.not_eq_true', not_or, Bool.not_eq_true,
          Bool.not_eq_false] at hfail
        refine Or.inr fun id hmem => Or.inl ?_
        refine ((hdirty.resolve_left (by simp [hfail.1])) id hmem).resolve_right ?_
        rintro ⟨j, u, hj, hu, -, hpc⟩
        cases hj
        cases ht.symm.trans hu
        -- the flush has succeeded
        have hdone := hfail.2
        cases hpc' : t.pc with
        | done ok =>
            rw [hpc'] at hdone
            have hok : ok = true := hdone
            rw [hpc', hok] at hpc
            exact hpc rfl
        | _ => rw [hpc'] at hdone; cases hdone
    · cases hnext
  · rename_i id ids failed
    obtain ⟨hproducer, -, hdirty⟩ := h
    by_cases hid : id ∈ w.dirty
    · rw [if_pos hid] at hnext
      cases hnext
      have hself : (w.spawn (.start id (w.outDirs[id]?.getD []) (.flush true))).threads[
          w.threads.length]? = some (.start id (w.outDirs[id]?.getD []) (.flush true)) :=
        List.getElem?_concat_length
      refine ⟨fun u hu hdefer => ?_, fun j hj => ?_, hdirty.imp_right fun hdirty id' hmem => ?_⟩
      · rcases List.mem_append.mp hu with hu | hu
        · exact hproducer u hu hdefer
        · cases List.mem_singleton.mp hu
          cases hdefer
      · cases hj
        exact ⟨_, hself, rfl⟩
      · rcases hdirty id' hmem with htodo | ⟨j, -, hj, -⟩
        · rcases List.mem_cons.mp htodo with rfl | htodo
          · exact Or.inr ⟨_, _, rfl, hself, rfl, nofun⟩
          · exact Or.inl htodo
        · cases hj
    · rw [if_neg hid] at hnext
      cases hnext
      refine ⟨hproducer, nofun, hdirty.imp_right fun hdirty id' hmem => Or.inl ?_⟩
      rcases hdirty id' hmem with htodo | ⟨j, -, hj, -⟩
      · rcases List.mem_cons.mp htodo with rfl | htodo
        · exact absurd hmem hid
        · exact htodo
      · cases hj
  · rename_i failed
    obtain ⟨hproducer, -, hdirty⟩ := h
    cases hnext
    cases failed with
    | true => trivial
    | false =>
        refine ⟨hproducer, Finset.eq_empty_iff_forall_notMem.mpr fun id hmem => ?_⟩
        rcases hdirty.resolve_left nofun id hmem with htodo | ⟨j, -, hj, -⟩
        · cases htodo
        · cases hj
  · cases hnext

theorem next_cases (hnext : Machine.flushNext q = some q') :
    q.phase.locked = false ∧ q.phase ≠ .finished ∧ q.running = true ∧ q'.left = q.left ∧
      q'.phase.locked = false ∧ (q'.world = q.world ∨ ∃ id ∈ q.world.dirty, q'.world =
        q.world.spawn (.start id (q.world.outDirs[id]?.getD []) (.flush true))) := by
  obtain ⟨w, phase, left⟩ := q
  unfold Machine.flushNext at hnext
  dsimp only at hnext
  split at hnext
  · split at hnext
    · obtain ⟨-, hnext⟩ := Option.ite_none_right_eq_some.mp hnext
      cases hnext
      exact ⟨rfl, nofun, rfl, rfl, rfl, Or.inl rfl⟩
    · cases hnext
  · rename_i id ids failed
    by_cases hid : id ∈ w.dirty
    · rw [if_pos hid] at hnext
      cases hnext
      exact ⟨rfl, nofun, rfl, rfl, rfl, Or.inr ⟨id, hid, rfl⟩⟩
    · rw [if_neg hid] at hnext
      cases hnext
      exact ⟨rfl, nofun, rfl, rfl, rfl, Or.inl rfl⟩
  · rename_i failed
    cases hnext
    cases failed <;> exact ⟨rfl, nofun, rfl, rfl, rfl, Or.inl rfl⟩
  · cases hnext

theorem kept_next (h : Kept m) (hcur : m.Current p) (hq : m.procs[p]? = some q)
    (hnext : Machine.flushNext q = some q') : Kept (m.setProc p q') := by
  obtain ⟨hlocked, hfinished, hrunning, hleft, hlocked', hworld⟩ := next_cases hnext
  obtain ⟨htidy, hsaved, hproper, hflushed⟩ := h.flusher p q hq hcur hrunning
  refine h.set hq rfl (Or.inl hcur) (fun hl => absurd hl (by simp [hlocked'])) (fun _ _ => ?_)
    (fun l hl => h.left p q l hq (hleft ▸ hl))
    (fun k hk => Or.inr ⟨hk, fun hphase => absurd hphase hfinished,
      fun hl => absurd hl (by simp [hlocked])⟩)
  have hflushed' := flushed_next hflushed hnext
  rcases hworld with hworld | ⟨id, hid, hworld⟩
  · have hview : (m.setProc p q').view q' = m.view q := by
      unfold Machine.view
      rw [hworld]
      rfl
    rw [hview, hworld]
    exact ⟨htidy, hsaved, hproper, hflushed'⟩
  · obtain ⟨dir, hdir⟩ := htidy.marked id hid
    have hget : q.world.outDirs[id]?.getD [] = dir := by
      rw [show q.world.outDirs[id]? = some dir from hdir]
      rfl
    rw [hget] at hworld
    have hview : (m.setProc p q').view q' = (m.view q).spawn (.start id dir (.flush true)) := by
      unfold Machine.view
      rw [hworld]
      rfl
    rw [hview, hworld]
    refine ⟨Flush.tidy_spawn htidy (.flush true) (htidy.dirs id dir hdir)
      (Or.inr ⟨hdir, fun hv => hv.2.1 hid⟩), Flush.saved_spawn hsaved _, fun t ht => ?_, hflushed'⟩
    rcases List.mem_append.mp ht with ht | ht
    · exact hproper t ht
    · cases List.mem_singleton.mp ht
      exact proper_start ..

/-- A process goes on to another phase. -/
theorem kept_move {phase : Phase} {left : Option Left} (marker : Option Body) (h : Kept m)
    (hcur : m.Current p) (hq : m.procs[p]? = some q) (hrunning : q.running = true)
    (hlock : phase.locked = true → q.phase.locked = true)
    (hleft : ∀ l, left = some l → l.checkpoint = l.recorded)
    (hflushed : Flush.Tidy (m.view q) → Flush.Saved false (m.view q) → q.Flushed m.marker →
      Proc.Flushed ⟨q.world, phase, left⟩ marker)
    (hpromise : ∀ k, marker = some (.full k) →
      (k = p ∧ phase = .finished ∧ ∃ l, left = some l) ∨
      m.marker = some (.full k) ∧
        (q.phase.locked = true → q.phase ≠ .serving → phase.locked = true ∧ phase ≠ .serving)) :
    Kept { m.setProc p ⟨q.world, phase, left⟩ with marker := marker } := by
  obtain ⟨htidy, hsaved, hproper, hflushed₀⟩ := h.flusher p q hq hcur hrunning
  refine h.set hq rfl (Or.inl hcur) hlock
    (fun _ _ => ⟨htidy, hsaved, hproper, hflushed htidy hsaved hflushed₀⟩) hleft (fun k hk => ?_)
  rcases hpromise k hk with ⟨rfl, hphase, hl⟩ | ⟨hmarker, hlocked⟩
  · exact Or.inl ⟨rfl, hcur, hphase, hl⟩
  · refine Or.inr ⟨hmarker, fun hfinished => ?_, hlocked⟩
    unfold Proc.running at hrunning
    rw [hfinished] at hrunning
    cases hrunning

theorem running_of {phase : Phase} (hphase : q.phase = phase) (h : phase ≠ .finished)
    (h' : phase ≠ .crashed) : q.running = true := by
  unfold Proc.running
  rw [hphase]
  split
  · exact absurd rfl h
  · exact absurd rfl h'
  · rfl

theorem noProducer_of_drained {w : World} (h : Machine.drained w (.apply .defer) = true) :
    NoProducer w := by
  intro t ht htask
  have hdrained := List.all_eq_true.mp h t ht
  simpa [htask] using hdrained

/-- At the writing of the marker every checkpoint is the latest state. -/
theorem leave_kept (htidy : Flush.Tidy (m.view q)) (hsaved : Flush.Saved false (m.view q))
    (hproper : ∀ t ∈ q.world.threads, Proper t) (hproducer : NoProducer q.world)
    (hdirty : q.world.dirty = ∅) (hunwritten : ∀ dir, ¬ Flush.Unwritten (m.view q) dir)
    (hrecorded : ∀ dir, (q.world.last dir).state = m.recorded dir) :
    (m.leave q).checkpoint = (m.leave q).recorded := by
  funext dir
  have hclean : Flush.idOf dir ∉ (m.view q).dirty := by
    show Flush.idOf dir ∉ q.world.dirty
    simp [hdirty]
  have hlast : (m.view q).checkpoint dir = (m.view q).last dir :=
    Flush.checkpoint_of_clean hsaved htidy (fun t ht => not_mark hproper hproducer ht) rfl hclean
      (hunwritten dir)
  show ((m.view q).checkpoint dir).state = m.recorded dir
  rw [hlast]
  exact hrecorded dir

theorem kept_step {a : Action} (h : Kept m) (hok : KeepsPromise m a) (hstep : m.step a = some m') :
    Kept m' := by
  cases a with
  | boot capacity roots =>
      obtain ⟨hfree, hstep⟩ := Option.ite_none_right_eq_some.mp hstep
      cases hstep
      exact kept_boot h capacity roots hfree
  | crash p =>
      obtain ⟨q, hq, hstep⟩ := Option.bind_eq_some_iff.mp hstep
      obtain ⟨hends, hstep⟩ := Option.ite_none_left_eq_some.mp hstep
      cases hstep
      refine h.set hq rfl (Or.inr ⟨rfl, rfl⟩) nofun (fun _ => nofun) (fun l hl => h.left p q l hq hl)
        (fun k hk => Or.inr ⟨hk, fun hphase => absurd (Or.inl hphase) hends, fun hlocked hserving => ?_⟩)
      exact absurd ⟨k, hk⟩ (hok q hq hlocked hserving)
  | read p =>
      obtain ⟨q, hq, hstep⟩ := Option.bind_eq_some_iff.mp hstep
      obtain ⟨hphase, hstep⟩ := Option.ite_none_right_eq_some.mp hstep
      cases hstep
      exact kept_move m.marker h hok hq (running_of hphase nofun nofun)
        (fun _ => by rw [hphase]; rfl) (fun l hl => h.left p q l hq hl) (fun _ _ _ => rfl)
        (fun k hk => Or.inr ⟨hk, fun _ _ => ⟨rfl, nofun⟩⟩)
  | consume p ok =>
      obtain ⟨q, hq, hstep⟩ := Option.bind_eq_some_iff.mp hstep
      split at hstep
      · rename_i body hphase
        cases hstep
        refine kept_move _ h hok.1 hq (running_of hphase nofun nofun) (fun _ => by rw [hphase]; rfl)
          (fun l hl => h.left p q l hq hl) (fun _ _ _ => trivial) (fun k hk => ?_)
        cases ok with
        | true => cases hk
        | false => exact absurd ⟨k, hk⟩ (hok.2 rfl)
      · cases hstep
  | flusher p a =>
      obtain ⟨q, hq, hstep⟩ := Option.bind_eq_some_iff.mp hstep
      obtain ⟨hallows, hstep⟩ := Option.ite_none_right_eq_some.mp hstep
      obtain ⟨w, hw, hstep⟩ := Option.bind_eq_some_iff.mp hstep
      cases hstep
      exact kept_flusher h hok.1 hq hallows (hok.2 q hq) hw
  | teardown p =>
      obtain ⟨q, hq, hstep⟩ := Option.bind_eq_some_iff.mp hstep
      obtain ⟨⟨hphase, hdrained⟩, hstep⟩ := Option.ite_none_right_eq_some.mp hstep
      cases hstep
      exact kept_move m.marker h hok hq (running_of hphase nofun nofun) nofun
        (fun l hl => h.left p q l hq hl) (fun _ _ _ => noProducer_of_drained hdrained)
        (fun k hk => Or.inr ⟨hk, fun _ hserving => absurd hphase hserving⟩)
  | flushAll p order =>
      obtain ⟨q, hq, hstep⟩ := Option.bind_eq_some_iff.mp hstep
      obtain ⟨⟨hphase, -, -, horder⟩, hstep⟩ := Option.ite_none_right_eq_some.mp hstep
      cases hstep
      refine kept_move m.marker h hok hq (running_of hphase nofun nofun) nofun
        (fun l hl => h.left p q l hq hl) (fun _ _ hflushed => ?_)
        (fun k hk => Or.inr ⟨hk, fun hlocked => (by rw [hphase] at hlocked; cases hlocked)⟩)
      unfold Proc.Flushed at hflushed
      rw [hphase] at hflushed
      refine ⟨hflushed, nofun, Or.inr fun id hid => Or.inl ?_⟩
      have hid : id ∈ q.world.dirty := hid
      rw [← horder] at hid
      exact List.mem_toFinset.mp hid
  | flushNext p =>
      obtain ⟨q, hq, hstep⟩ := Option.bind_eq_some_iff.mp hstep
      obtain ⟨q', hnext, hstep⟩ := Option.bind_eq_some_iff.mp hstep
      cases hstep
      exact kept_next h hok hq hnext
  | create p ok =>
      obtain ⟨q, hq, hstep⟩ := Option.bind_eq_some_iff.mp hstep
      obtain ⟨hphase, hstep⟩ := Option.ite_none_right_eq_some.mp hstep
      have hunlocked : q.phase.locked = true → False := fun hlocked => by
        rw [hphase] at hlocked
        cases hlocked
      cases ok with
      | true =>
          cases hstep
          refine kept_move _ h hok hq (running_of hphase nofun nofun) nofun
            (fun l hl => h.left p q l hq hl) (fun _ _ hflushed => ?_) nofun
          unfold Proc.Flushed at hflushed
          rw [hphase] at hflushed
          exact hflushed
      | false =>
          cases hstep
          exact kept_move m.marker h hok hq (running_of hphase nofun nofun) nofun
            (fun l hl => h.left p q l hq hl) (fun _ _ _ => trivial)
            (fun k hk => Or.inr ⟨hk, fun hlocked => (hunlocked hlocked).elim⟩)
  | fill p ok =>
      obtain ⟨q, hq, hstep⟩ := Option.bind_eq_some_iff.mp hstep
      obtain ⟨hphase, hstep⟩ := Option.ite_none_right_eq_some.mp hstep
      have hunlocked : q.phase.locked = true → False := fun hlocked => by
        rw [hphase] at hlocked
        cases hlocked
      cases ok with
      | true =>
          cases hstep
          have hrunning := running_of hphase nofun nofun
          obtain ⟨htidy, hsaved, hproper, hflushed⟩ := h.flusher p q hq hok.1 hrunning
          unfold Proc.Flushed at hflushed
          rw [hphase] at hflushed
          refine kept_move _ h hok.1 hq hrunning nofun (fun l hl => ?_) (fun _ _ _ => trivial)
            (fun k hk => ?_)
          · cases hl
            exact leave_kept htidy hsaved hproper hflushed.1 hflushed.2 (hok.2 q hq).1 (hok.2 q hq).2
          · cases hk
            exact Or.inl ⟨rfl, rfl, _, rfl⟩
      | false =>
          cases hstep
          exact kept_move m.marker h hok.1 hq (running_of hphase nofun nofun) nofun
            (fun l hl => h.left p q l hq hl) (fun _ _ _ => trivial)
            (fun k hk => Or.inr ⟨hk, fun hlocked => (hunlocked hlocked).elim⟩)

end Steps

theorem kept_of_reach {m : Machine} (h : system.Reach KeepsPromise m) : Kept m := by
  refine h.invariant ?_ fun m a m' hinv hok hstep => kept_step hinv hok hstep
  rintro m ⟨hprocs, hmarker, -⟩
  have hnone : ∀ (j : ℕ) (r : Proc), m.procs[j]? = some r → False := by
    intro j r hr
    rw [hprocs] at hr
    simp at hr
  exact ⟨fun j r hr => (hnone j r hr).elim, fun j r hr => (hnone j r hr).elim,
    fun j r l hr => (hnone j r hr).elim, fun k hk => (by rw [hmarker] at hk; cases hk)⟩

/-- **The marker does not lie.** A process that finds the full marker finds the one of the
process before it, which has ended through `shutdown`; and when that one wrote it, every
checkpoint was the state last recorded for its root. -/
theorem marker_honest {m : Machine} (h : system.Reach KeepsPromise m) {p k : ℕ} {q : Proc}
    (hq : m.procs[p]? = some q) (hfound : q.phase = .found (some (.full k))) :
    p = k + 1 ∧ ∃ r l, m.procs[k]? = some r ∧ r.phase = .finished ∧ r.left = some l ∧
      l.checkpoint = l.recorded := by
  have hkept := kept_of_reach h
  have hcur := hkept.alone p q hq (by rw [hfound]; rfl)
  have hflushed := (hkept.flusher p q hq hcur (running_of hfound nofun nofun)).2.2.2
  unfold Proc.Flushed at hflushed
  rw [hfound] at hflushed
  obtain ⟨⟨r, l, hr, hphase, hl⟩, hlast⟩ := hkept.promise k hflushed.symm
  refine ⟨?_, r, l, hr, hphase, hl, hkept.left k r l hr hl⟩
  have hcur : p + 1 = m.procs.length := hcur
  rcases hlast with hk | ⟨hk, -⟩
  · have hk : k + 1 = m.procs.length := hk
    have hpk : p = k := by omega
    subst hpk
    cases hq.symm.trans hr
    rw [hfound] at hphase
    cases hphase
  · have hk : k + 1 + 1 = m.procs.length := hk
    omega

/-- A step of a process keeps the latest states of its flusher those recorded last. -/
theorem step_recorded {m m' : Machine} {a : Action} (hstep : m.step a = some m') :
    (∃ capacity roots, a = .boot capacity roots) ∨ ∃ p q q', m.procs[p]? = some q ∧
      m'.procs = m.procs.set p q' ∧ ∀ dir, (q.world.last dir).state = m.recorded dir →
        (q'.world.last dir).state = m'.recorded dir := by
  cases a with
  | boot capacity roots => exact Or.inl ⟨capacity, roots, rfl⟩
  | flusher p a =>
      obtain ⟨q, hq, hstep⟩ := Option.bind_eq_some_iff.mp hstep
      obtain ⟨-, hstep⟩ := Option.ite_none_right_eq_some.mp hstep
      obtain ⟨w, -, hstep⟩ := Option.bind_eq_some_iff.mp hstep
      cases hstep
      refine Or.inr ⟨p, q, _, hq, rfl, fun dir hdir => ?_⟩
      show (w.last dir).state = m.remember q.world w dir
      unfold Machine.remember
      split
      · rename_i hlast
        rw [hlast]
        exact hdir
      · rfl
  | flushNext p =>
      obtain ⟨q, hq, hstep⟩ := Option.bind_eq_some_iff.mp hstep
      obtain ⟨q', hnext, hstep⟩ := Option.bind_eq_some_iff.mp hstep
      cases hstep
      have hlast : q'.world.last = q.world.last := by
        obtain ⟨-, -, -, -, -, hworld | ⟨id, -, hworld⟩⟩ := next_cases hnext <;> rw [hworld]
        rfl
      exact Or.inr ⟨p, q, q', hq, rfl, fun dir hdir => (by rw [hlast]; exact hdir)⟩
  | consume p ok =>
      obtain ⟨q, hq, hstep⟩ := Option.bind_eq_some_iff.mp hstep
      split at hstep
      · cases hstep
        exact Or.inr ⟨p, q, _, hq, rfl, fun dir hdir => hdir⟩
      · cases hstep
  | crash p =>
      obtain ⟨q, hq, hstep⟩ := Option.bind_eq_some_iff.mp hstep
      obtain ⟨-, hstep⟩ := Option.ite_none_left_eq_some.mp hstep
      cases hstep
      exact Or.inr ⟨p, q, _, hq, rfl, fun dir hdir => hdir⟩
  | create p ok | fill p ok =>
      obtain ⟨q, hq, hstep⟩ := Option.bind_eq_some_iff.mp hstep
      obtain ⟨-, hstep⟩ := Option.ite_none_right_eq_some.mp hstep
      cases ok <;> cases hstep <;> exact Or.inr ⟨p, q, _, hq, rfl, fun dir hdir => hdir⟩
  | read p | teardown p | flushAll p order =>
      obtain ⟨q, hq, hstep⟩ := Option.bind_eq_some_iff.mp hstep
      obtain ⟨-, hstep⟩ := Option.ite_none_right_eq_some.mp hstep
      cases hstep
      exact Or.inr ⟨p, q, _, hq, rfl, fun dir hdir => hdir⟩

/-- The first process cannot have lost what an earlier one recorded. -/
theorem first_recorded {ok : Machine → Action → Prop} {m : Machine} (h : system.Reach ok m) :
    (m.procs = [] → ∀ dir, m.recorded dir = ((m.disk dir).map Version.state).getD .empty) ∧
      ∀ q, m.procs = [q] → ∀ dir, (q.world.last dir).state = m.recorded dir := by
  refine h.invariant (I := fun m => (m.procs = [] →
    ∀ dir, m.recorded dir = ((m.disk dir).map Version.state).getD .empty) ∧
      ∀ q, m.procs = [q] → ∀ dir, (q.world.last dir).state = m.recorded dir) ?_ ?_
  · rintro m ⟨hprocs, -, hrecorded⟩
    exact ⟨fun _ => hrecorded, fun q hq => by rw [hprocs] at hq; cases hq⟩
  · rintro m a m' ⟨hnone, hone⟩ - hstep
    rcases step_recorded hstep with ⟨capacity, roots, rfl⟩ | ⟨p, q, q', hq, hprocs, hkeeps⟩
    · obtain ⟨-, hstep⟩ := Option.ite_none_right_eq_some.mp hstep
      cases hstep
      refine ⟨fun hp => absurd hp (by simp), fun q hq dir => ?_⟩
      obtain ⟨hempty, hlast⟩ := List.append_eq_singleton_iff.mp hq |>.resolve_right (by simp)
      cases hlast
      rw [hnone hempty]
      show ((m.found dir).getD ⟨.empty, dir, 0⟩).state = _
      unfold Machine.found
      cases m.disk dir <;> rfl
    · have hlength : m'.procs.length = m.procs.length := by rw [hprocs, List.length_set]
      have hlt := List.lt_of_getElem?_eq_some hq
      refine ⟨fun hp => ?_, fun r hr dir => ?_⟩
      · rw [hp] at hlength
        simp at hlength
        omega
      · rw [hr, List.length_singleton] at hlength
        obtain ⟨q₀, hq₀⟩ := List.length_eq_one_iff.mp hlength.symm
        have hp : p = 0 := by omega
        subst hp
        rw [hq₀] at hq hprocs
        cases hq
        rw [hr] at hprocs
        cases hprocs
        exact hkeeps dir (hone q hq₀ dir)

/-- A check that is enough for `KeepsPromise`, up to the writing of the marker. -/
def keepsPromise (m : Machine) : Action → Bool
  | .boot _ _ => true
  | .consume p ok => p + 1 = m.procs.length && ok
  | .flusher p a => p + 1 = m.procs.length && m.procs[p]?.all fun q => Flush.orderly (m.view q) a
  | .read p | .teardown p | .flushAll p _ | .flushNext p | .create p _ => p + 1 = m.procs.length
  | _ => false

theorem keepsPromise_of_check (m : Machine) (a : Action) (h : keepsPromise m a = true) :
    KeepsPromise m a := by
  cases a with
  | boot capacity roots => trivial
  | consume p ok =>
      simp only [keepsPromise, Bool.and_eq_true, decide_eq_true_eq] at h
      exact ⟨h.1, fun hok => absurd h.2 (by simp [hok])⟩
  | flusher p a =>
      simp only [keepsPromise, Bool.and_eq_true, decide_eq_true_eq] at h
      refine ⟨h.1, fun q hq => Flush.orderly_of_check _ a ?_⟩
      rw [hq] at h
      exact h.2
  | crash p => cases h
  | fill p ok => cases h
  | read p | teardown p | flushAll p order | flushNext p | create p ok =>
      have hcur : p + 1 = m.procs.length := of_decide_eq_true h
      exact hcur

/-- An apply of the producer lane that records a state. -/
def recordRun (s : GraphState) : List Flush.Action :=
  [.start "app" (.apply .defer)] ++ List.replicate 6 (.run 0 .ok) ++ [.run 0 (.fresh s)] ++
    List.replicate 4 (.run 0 .ok)

/-- A file system with nothing on it. -/
def fresh : Machine := ⟨fun _ => none, none, fun _ => .empty, []⟩

theorem reach_fresh (ok : Machine → Action → Prop) : system.Reach ok fresh :=
  .init ⟨rfl, rfl, fun _ => rfl⟩

/-- A state with a node. -/
def oneNode : GraphState :=
  { GraphState.empty with graph := ⟨[⟨⟨"file:a"⟩, "a", "file", some "a", none, ∅⟩], []⟩ }

/-- `marker_honest` after an apply whose state the shutdown flushes. -/
theorem marker_honest_sample : ∃ (m : Machine) (q r : Proc) (l : Left), m.procs[1]? = some q ∧
    q.phase = .found (some (.full 0)) ∧ m.procs[0]? = some r ∧ r.left = some l ∧
      l.checkpoint = l.recorded := by
  have hrun : (system.runOk keepsPromise fresh ([.boot 1 [["srv", "app"]], .read 0,
      .consume 0 true] ++ (recordRun oneNode).map (.flusher 0) ++ [.teardown 0, .flushAll 0 ["app"],
        .flushNext 0] ++ List.replicate 8 (.flusher 0 (.run 1 .ok)) ++
          [.flushNext 0, .flushNext 0, .create 0 true])).bind (fun m₁ =>
      (m₁.step (.fill 0 true)).bind fun m₂ =>
        (system.runOk keepsPromise m₂ [.boot 1 [["srv", "app"]], .read 1]).map fun m =>
          (m₁.procs.length, m₁.procs.all (fun q => q.world.threads.all fun t => t.pc.held.isEmpty),
            m.procs[1]?.map Proc.phase)) =
      some (1, true, some (.found (some (.full 0)))) := by
    decide +kernel
  obtain ⟨m₁, hm₁, hrun⟩ := Option.bind_eq_some_iff.mp hrun
  obtain ⟨m₂, hfill, hrun⟩ := Option.bind_eq_some_iff.mp hrun
  obtain ⟨m, hm, hends⟩ := Option.map_eq_some_iff.mp hrun
  simp only [Prod.mk.injEq] at hends
  obtain ⟨hlength, hheld, hphase⟩ := hends
  obtain ⟨q, hq, hphase⟩ := Option.map_eq_some_iff.mp hphase
  have hreach₁ := (reach_fresh KeepsPromise).runOk keepsPromise_of_check hm₁
  have hok : KeepsPromise m₁ (.fill 0 true) := by
    refine ⟨hlength.symm, fun q hq => ⟨?_, ?_⟩⟩
    · rintro dir ⟨t, ht, x, hx, -⟩
      have hnone := List.all_eq_true.mp (List.all_eq_true.mp hheld q (List.mem_of_getElem? hq)) t ht
      rw [List.isEmpty_iff.mp hnone] at hx
      cases hx
    · obtain ⟨q₀, hq₀⟩ := List.length_eq_one_iff.mp hlength
      rw [hq₀] at hq
      cases hq
      exact (first_recorded hreach₁).2 q hq₀
  have hreach := (hreach₁.step hok hfill).runOk keepsPromise_of_check hm
  obtain ⟨-, r, l, hr, -, hl, hkept⟩ := marker_honest hreach hq hphase
  exact ⟨m, q, r, l, hq, hphase, hr, hl, hkept⟩

/-- A marker that was read stays. -/
def Action.leavesMarker : Action → Bool
  | .consume _ false => true
  | _ => false

/-- The state that an eviction fails to write back is lost, and the marker is written; and
the marker of a process that another has overtaken is found after the other's crash. -/
theorem marker_lies :
    ¬ (∀ m, system.Reach Lts.anyStep m → ∀ (p k : ℕ) (q : Proc), m.procs[p + 1]? = some q →
      q.phase = .found (some (.full k)) → ∃ r l, m.procs[p]? = some r ∧ r.phase = .finished ∧
        r.left = some l ∧ l.checkpoint = l.recorded) ∧
    ¬ ∀ m, system.Reach (fun _ a => ∀ p, a ≠ .consume p false) m → ∀ (p k : ℕ) (q : Proc),
      m.procs[p]? = some q → q.phase = .found (some (.full k)) → p = k + 1 := by
  constructor
  · intro hclaim
    have hrun : (system.run fresh ([.boot 1 [["srv", "app"], ["srv", "lib"]], .read 0,
        .consume 0 true] ++ (recordRun oneNode).map (.flusher 0) ++
          [.flusher 0 (.start "lib" (.query false))] ++
            List.replicate 6 (.flusher 0 (.run 1 .ok)) ++ [.flusher 0 (.run 1 .fail), .teardown 0,
              .flushAll 0 [], .flushNext 0, .create 0 true, .fill 0 true, .boot 1 [], .read 1])).map
        (fun m => (m.procs[1]?.map Proc.phase, (m.procs[0]?.bind Proc.left).map fun l =>
          ((l.checkpoint ["srv", "app", ".filigrio-out"]).graph.nodes.length,
            (l.recorded ["srv", "app", ".filigrio-out"]).graph.nodes.length))) =
        some (some (.found (some (.full 0))), some (0, 1)) := by
      decide +kernel
    obtain ⟨m, hm, hends⟩ := Option.map_eq_some_iff.mp hrun
    obtain ⟨hphase, hleft⟩ := Prod.mk.inj hends
    obtain ⟨q, hq, hphase⟩ := Option.map_eq_some_iff.mp hphase
    have hreach := (reach_fresh Lts.anyStep).run (fun _ _ _ => trivial) hm
    obtain ⟨r, l, hr, -, hl, hkept⟩ := hclaim m hreach 0 0 q hq hphase
    rw [hr, Option.bind_some, hl, Option.map_some, hkept] at hleft
    obtain ⟨hzero, hone⟩ := Prod.mk.inj (Option.some.inj hleft)
    omega
  · intro hclaim
    have hrun : (system.runOk (fun _ a => !a.leavesMarker)
        fresh [.boot 1 [], .read 0, .consume 0 true, .teardown 0, .boot 1 [], .read 1,
          .consume 1 true, .flushAll 0 [], .flushNext 0, .create 0 true, .fill 0 true, .crash 1,
          .boot 1 [], .read 2]).map (fun m => m.procs[2]?.map Proc.phase) =
        some (some (.found (some (.full 0)))) := by
      decide +kernel
    obtain ⟨m, hm, hphase⟩ := Option.map_eq_some_iff.mp hrun
    obtain ⟨q, hq, hphase⟩ := Option.map_eq_some_iff.mp hphase
    have hreach := (reach_fresh fun _ a => ∀ p, a ≠ .consume p false).runOk (fun _ a ha p hp => by
      subst hp
      cases ha) hm
    have hnext := hclaim m hreach 2 0 q hq hphase
    omega

end Filigrio.Daemon.Marker
