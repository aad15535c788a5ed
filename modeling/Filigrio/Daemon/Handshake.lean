import Filigrio.Lib.Lts
import Mathlib.Tactic.Common

/-!
# Filigrio.Daemon.Handshake

The life of daemon processes around one socket path: `performHandshake` (connect,
open the lock file, try its lock, connect again), `startup` (recover, remove an
existing socket path, bind), serving, and `teardown` (close the lock, unlink its
path, unlink the socket path, flush and write the marker). Each is one atomic step
of one process, and a process can crash anywhere.

The lock is on an inode, and `teardown` unlinks its name: a process that opened the
file before the unlink locks an inode that nobody else will open again. `CleanWin`
leaves out exactly the wins that rest on such a lock, and those that fall into another
process's teardown; without them at most one process is a daemon (`daemon_exclusive`).
-/

namespace Filigrio.Daemon.Handshake

/-- An index into the list of processes. -/
abbrev Pid := ℕ

abbrev Inode := ℕ

/-- Where a process stands: the step it takes next. -/
inductive Pc
  /-- `perform_handshake`, step 1: connect. -/
  | connecting
  /-- `acquire_lock`: open the lock file. -/
  | opening
  /-- `acquire_lock`: try the lock of the opened inode. -/
  | locking (fd : Inode)
  /-- Step 3: connect again, under the lock. -/
  | probing (fd : Inode)
  /-- `BecameDaemon`: load the registry, reconcile, start the watchers. -/
  | recovering (fd : Inode)
  /-- Remove an existing socket path. -/
  | cleaning (fd : Inode)
  | binding (fd : Inode)
  | serving (fd : Inode)
  /-- `teardown`, the lock closed: unlink its path. -/
  | unlocked
  /-- Unlink the socket path. -/
  | unlinking
  /-- Stop the watchers, flush, write the marker. -/
  | flushing
  /-- Returned, failed or crashed. -/
  | gone
  deriving DecidableEq, Repr

namespace Pc

/-- The inode whose lock the process holds. -/
def lock? : Pc → Option Inode
  | probing fd | recovering fd | cleaning fd | binding fd | serving fd => some fd
  | _ => none

/-- Past closing its lock, and not yet through. -/
def tearsDown : Pc → Bool
  | unlocked | unlinking | flushing => true
  | _ => false

/-- Between winning the handshake and the end of the teardown. -/
def isDaemon : Pc → Bool
  | recovering _ | cleaning _ | binding _ | serving _ => true
  | pc => pc.tearsDown

/-- Bound to the socket path it made: the listener lives until the teardown is over. -/
def listens : Pc → Bool
  | serving _ => true
  | pc => pc.tearsDown

end Pc

/-- The processes, the inode named by the lock path, the next free inode, and the
process that bound the file at the socket path. -/
structure World where
  procs : List Pc
  lockPath : Option Inode
  nextInode : Inode
  sock : Option Pid

namespace World

variable (w : World)

/-- `is_daemon_running`: does a connect reach a listener? -/
def isDaemonRunning : Bool := w.sock.any fun p => w.procs[p]?.any Pc.listens

/-- Is the lock of the inode held by any process? -/
def locked (fd : Inode) : Bool := w.procs.any fun pc => pc.lock? = some fd

/-- Move one process on. -/
def goto (p : Pid) (pc : Pc) : World := { w with procs := w.procs.set p pc }

end World

/-- The steps. -/
inductive Action
  | spawn
  | connect (p : Pid)
  | «open» (p : Pid)
  | tryLock (p : Pid)
  | reconnect (p : Pid)
  /-- Load the registry and reconcile; a registry that cannot be read is an error. -/
  | recover (p : Pid) (ok : Bool)
  | removeSocket (p : Pid)
  | bind (p : Pid)
  | closeLock (p : Pid)
  | unlinkLock (p : Pid)
  | unlinkSocket (p : Pid)
  | finish (p : Pid)
  | crash (p : Pid)
  deriving DecidableEq, Repr

/-- What each step does. An error ends the process, which closes its files. -/
def step (w : World) : Action → Option World
  | .spawn => some { w with procs := w.procs ++ [.connecting] }
  | .connect p =>
    match w.procs[p]? with
    | some .connecting => some (w.goto p (if w.isDaemonRunning then .gone else .opening))
    | _ => none
  | .open p =>
    match w.procs[p]? with
    | some .opening =>
      match w.lockPath with
      | some fd => some (w.goto p (.locking fd))
      | none =>
        some { w.goto p (.locking w.nextInode) with
          lockPath := some w.nextInode
          nextInode := w.nextInode + 1 }
    | _ => none
  | .tryLock p =>
    match w.procs[p]? with
    | some (.locking fd) => some (w.goto p (if w.locked fd then .gone else .probing fd))
    | _ => none
  | .reconnect p =>
    match w.procs[p]? with
    | some (.probing fd) => some (w.goto p (if w.isDaemonRunning then .gone else .recovering fd))
    | _ => none
  | .recover p ok =>
    match w.procs[p]? with
    | some (.recovering fd) => some (w.goto p (if ok then .cleaning fd else .gone))
    | _ => none
  | .removeSocket p =>
    match w.procs[p]? with
    | some (.cleaning fd) => some { w.goto p (.binding fd) with sock := none }
    | _ => none
  | .bind p =>
    match w.procs[p]? with
    | some (.binding fd) =>
      -- binding to an existing path is an error
      if w.sock = none then some { w.goto p (.serving fd) with sock := some p }
      else some (w.goto p .gone)
    | _ => none
  | .closeLock p =>
    match w.procs[p]? with
    | some (.serving _) => some (w.goto p .unlocked)
    | _ => none
  | .unlinkLock p =>
    match w.procs[p]? with
    | some .unlocked => some { w.goto p .unlinking with lockPath := none }
    | _ => none
  | .unlinkSocket p =>
    match w.procs[p]? with
    | some .unlinking => some { w.goto p .flushing with sock := none }
    | _ => none
  | .finish p =>
    match w.procs[p]? with
    | some .flushing => some (w.goto p .gone)
    | _ => none
  | .crash p => if p < w.procs.length then some (w.goto p .gone) else none

/-- Processes come and go around a directory that starts out empty. -/
def system : Lts World Action where
  init w := w = ⟨[], none, 0, none⟩
  step := step

/-! ### The promise -/

/-- No two processes are between winning the handshake and the end of the teardown. -/
def Exclusive (w : World) : Prop :=
  ∀ (p q : Pid) (a b : Pc), w.procs[p]? = some a → w.procs[q]? = some b → a.isDaemon = true →
    b.isDaemon = true → p = q

/-- A step that unlinks the socket path, and the process that takes it. -/
def Action.unlinksSocket? : Action → Option Pid
  | removeSocket p | unlinkSocket p => some p
  | _ => none

/-- No step unlinks a socket path that another live process has bound. -/
def UnlinksOwn (w : World) : Prop :=
  ∀ a p w', a.unlinksSocket? = some p → step w a = some w' →
    ∀ q, w.sock = some q → w.procs[q]?.any Pc.listens = true → q = p

/-- A process that wins the handshake holds the lock of the file that the lock path
still names, and no process is in its teardown past closing the lock. -/
def CleanWin (w : World) : Action → Prop
  | .reconnect p => w.isDaemonRunning = false → ∀ fd, w.procs[p]? = some (.probing fd) →
      w.lockPath = some fd ∧ ∀ pc ∈ w.procs, pc.tearsDown = false
  | _ => True

/-! ### What a step does -/

/-- What a step of process `p` from `pc` to `pc'` can do to the locks and the daemons. -/
structure Effect (w : World) (a : Action) (w' : World) (p : Pid) (pc pc' : Pc) : Prop where
  source : w.procs[p]? = some pc
  procs : w'.procs = w.procs.set p pc'
  /-- A lock is taken when it is free, and otherwise only kept. -/
  lock : ∀ fd, pc'.lock? = some fd → pc.lock? = some fd ∨ w.locked fd = false
  /-- A process becomes a daemon by winning, and keeps its lock until the teardown. -/
  daemon : pc'.isDaemon = true → (pc.isDaemon = true ∧ pc'.lock? = pc.lock?) ∨
    pc'.tearsDown = true ∧ pc.isDaemon = true ∨
    ∃ fd, a = .reconnect p ∧ w.isDaemonRunning = false ∧ pc = .probing fd ∧ pc' = .recovering fd
  /-- The lock path is created when there is none, and unlinked by a daemon. -/
  lockPath : w'.lockPath = w.lockPath ∨ w.lockPath = none ∨
    pc.isDaemon = true ∧ pc.tearsDown = true ∧ pc'.lock? = none

theorem Effect.get {w w' : World} {a : Action} {p q : Pid} {pc pc' b : Pc}
    (h : Effect w a w' p pc pc') (hq : w'.procs[q]? = some b) :
    (q = p ∧ b = pc') ∨ (q ≠ p ∧ w.procs[q]? = some b) := by
  rw [h.procs] at hq
  exact List.getElem?_set_cases (List.lt_of_getElem?_eq_some h.source) hq

theorem step_effect {w w' : World} {a : Action} (h : step w a = some w') :
    (a = .spawn ∧ w' = { w with procs := w.procs ++ [.connecting] }) ∨
      ∃ p pc pc', Effect w a w' p pc pc' := by
  cases a with
  | spawn => exact Or.inl ⟨rfl, (Option.some.inj h).symm⟩
  | connect p =>
      right
      simp only [step] at h
      split at h
      · rename_i hp
        cases h
        refine ⟨p, .connecting, _, hp, rfl, ?_, ?_, Or.inl rfl⟩ <;>
          cases w.isDaemonRunning <;> simp [Pc.lock?, Pc.isDaemon, Pc.tearsDown]
      · cases h
  | «open» p =>
      right
      simp only [step] at h
      split at h
      · rename_i hp
        split at h
        · cases h
          exact ⟨p, .opening, _, hp, rfl, by simp [Pc.lock?],
            by simp [Pc.isDaemon, Pc.tearsDown], Or.inl rfl⟩
        · rename_i hnone
          cases h
          exact ⟨p, .opening, _, hp, rfl, by simp [Pc.lock?],
            by simp [Pc.isDaemon, Pc.tearsDown], Or.inr (Or.inl hnone)⟩
      · cases h
  | tryLock p =>
      right
      simp only [step] at h
      split at h
      · rename_i fd hp
        cases h
        refine ⟨p, .locking fd, _, hp, rfl, ?_, ?_, Or.inl rfl⟩
        · intro fd' hfd
          cases hl : w.locked fd with
          | true => simp [hl, Pc.lock?] at hfd
          | false =>
              simp [hl, Pc.lock?] at hfd
              exact Or.inr (hfd ▸ hl)
        · cases w.locked fd <;> simp [Pc.isDaemon, Pc.tearsDown]
      · cases h
  | reconnect p =>
      right
      simp only [step] at h
      split at h
      · rename_i fd hp
        cases h
        refine ⟨p, .probing fd, _, hp, rfl, ?_, ?_, Or.inl rfl⟩
        · cases w.isDaemonRunning <;> simp [Pc.lock?]
        · intro hd
          cases hr : w.isDaemonRunning with
          | true => simp [hr, Pc.isDaemon, Pc.tearsDown] at hd
          | false => exact Or.inr (Or.inr ⟨fd, rfl, rfl, rfl, by simp⟩)
      · cases h
  | recover p ok =>
      right
      simp only [step] at h
      split at h
      · rename_i fd hp
        cases h
        exact ⟨p, .recovering fd, _, hp, rfl, by cases ok <;> simp [Pc.lock?],
          by cases ok <;> simp [Pc.isDaemon, Pc.tearsDown, Pc.lock?], Or.inl rfl⟩
      · cases h
  | removeSocket p =>
      right
      simp only [step] at h
      split at h
      · rename_i fd hp
        cases h
        exact ⟨p, .cleaning fd, _, hp, rfl, by simp [Pc.lock?],
          by simp [Pc.isDaemon, Pc.lock?], Or.inl rfl⟩
      · cases h
  | bind p =>
      right
      simp only [step] at h
      split at h
      · rename_i fd hp
        split at h
        · cases h
          exact ⟨p, .binding fd, _, hp, rfl, by simp [Pc.lock?],
            by simp [Pc.isDaemon, Pc.lock?], Or.inl rfl⟩
        · cases h
          exact ⟨p, .binding fd, _, hp, rfl, by simp [Pc.lock?],
            by simp [Pc.isDaemon, Pc.tearsDown], Or.inl rfl⟩
      · cases h
  | closeLock p =>
      right
      simp only [step] at h
      split at h
      · rename_i fd hp
        cases h
        exact ⟨p, .serving fd, _, hp, rfl, by simp [Pc.lock?],
          by simp [Pc.isDaemon, Pc.tearsDown], Or.inl rfl⟩
      · cases h
  | unlinkLock p =>
      right
      simp only [step] at h
      split at h
      · rename_i hp
        cases h
        exact ⟨p, .unlocked, _, hp, rfl, by simp [Pc.lock?],
          by simp [Pc.isDaemon, Pc.tearsDown, Pc.lock?],
          Or.inr (Or.inr (by simp [Pc.isDaemon, Pc.tearsDown, Pc.lock?]))⟩
      · cases h
  | unlinkSocket p =>
      right
      simp only [step] at h
      split at h
      · rename_i hp
        cases h
        exact ⟨p, .unlinking, _, hp, rfl, by simp [Pc.lock?],
          by simp [Pc.isDaemon, Pc.tearsDown, Pc.lock?], Or.inl rfl⟩
      · cases h
  | finish p =>
      right
      simp only [step] at h
      split at h
      · rename_i hp
        cases h
        exact ⟨p, .flushing, _, hp, rfl, by simp [Pc.lock?],
          by simp [Pc.isDaemon, Pc.tearsDown], Or.inl rfl⟩
      · cases h
  | crash p =>
      right
      simp only [step] at h
      split at h
      · rename_i hlt
        cases h
        exact ⟨p, w.procs.get ⟨p, hlt⟩, _, List.getElem?_eq_getElem hlt, rfl, by simp [Pc.lock?],
          by simp [Pc.isDaemon, Pc.tearsDown], Or.inl rfl⟩
      · cases h

/-! ### The invariant -/

/-- Locks are exclusive, a daemon that holds its lock holds that of the file the lock
path names, and there is at most one daemon. -/
structure Inv (w : World) : Prop where
  locks : ∀ (p q : Pid) (a b : Pc) (fd : Inode), w.procs[p]? = some a → w.procs[q]? = some b → a.lock? = some fd →
    b.lock? = some fd → p = q
  linked : ∀ (p : Pid) (a : Pc) (fd : Inode), w.procs[p]? = some a → a.isDaemon = true → a.lock? = some fd →
    w.lockPath = some fd
  exclusive : Exclusive w

theorem not_locked {w : World} {fd : Inode} (h : w.locked fd = false) {p : Pid} {a : Pc}
    (hp : w.procs[p]? = some a) : a.lock? ≠ some fd := by
  intro hlock
  have hnone := List.any_eq_false.mp h a (List.mem_of_getElem? hp)
  simp [hlock] at hnone

/-- A daemon either tears down or holds its lock. -/
theorem tearsDown_or_lock {a : Pc} (h : a.isDaemon = true) :
    a.tearsDown = true ∨ ∃ fd, a.lock? = some fd := by
  cases a <;> simp_all [Pc.isDaemon, Pc.tearsDown, Pc.lock?]

theorem not_lock_of_tearsDown {a : Pc} (h : a.tearsDown = true) : a.lock? = none := by
  cases a <;> simp_all [Pc.tearsDown, Pc.lock?]

section Step

variable {w w' : World} {a : Action} {p : Pid} {pc pc' : Pc}

theorem locks_step (hinv : Inv w) (h : Effect w a w' p pc pc') :
    ∀ (q r : Pid) (b c : Pc) (fd : Inode), w'.procs[q]? = some b → w'.procs[r]? = some c → b.lock? = some fd →
      c.lock? = some fd → q = r := by
  -- the lock of the process that moved, against that of one that did not
  have hmoved : ∀ (q : Pid) (b : Pc) (fd : Inode), q ≠ p → w.procs[q]? = some b → pc'.lock? = some fd →
      b.lock? = some fd → False := by
    intro q b fd hqp hq hlock' hlock
    rcases h.lock fd hlock' with hkept | hfree
    · exact hqp (hinv.locks _ _ _ _ fd hq h.source hlock hkept)
    · exact not_locked hfree hq hlock
  intro q r b c fd hq hr hb hc
  rcases h.get hq with ⟨rfl, rfl⟩ | ⟨hqp, hq⟩ <;> rcases h.get hr with ⟨rfl, rfl⟩ | ⟨hrp, hr⟩
  · rfl
  · exact (hmoved r c fd hrp hr hb hc).elim
  · exact (hmoved q b fd hqp hq hc hb).elim
  · exact hinv.locks _ _ _ _ fd hq hr hb hc

/-- The process that just won is alone: any other daemon would hold the same lock. -/
theorem alone_of_win (hinv : Inv w) {fd : Inode} (hp : w.procs[p]? = some (.probing fd))
    (hlinked : w.lockPath = some fd) (hquiet : ∀ pc ∈ w.procs, pc.tearsDown = false)
    {q : Pid} {b : Pc} (hq : w.procs[q]? = some b) (hb : b.isDaemon = true) : q = p := by
  rcases tearsDown_or_lock hb with hdown | ⟨fd', hlock⟩
  · rw [hquiet b (List.mem_of_getElem? hq)] at hdown
    cases hdown
  · have hfd : w.lockPath = some fd' := hinv.linked q b fd' hq hb hlock
    cases hlinked.symm.trans hfd
    exact hinv.locks _ _ _ _ fd hq hp hlock rfl

theorem inv_step (hinv : Inv w) (hok : CleanWin w a) (h : Effect w a w' p pc pc') : Inv w' := by
  have hwin : pc'.isDaemon = true → pc.isDaemon = false → ∃ fd, pc = .probing fd ∧
      pc' = .recovering fd ∧ w.lockPath = some fd ∧ ∀ pc ∈ w.procs, pc.tearsDown = false := by
    intro hd hnot
    rcases h.daemon hd with ⟨hpc, -⟩ | ⟨-, hpc⟩ | ⟨fd, rfl, hrun, rfl, rfl⟩
    · rw [hnot] at hpc
      cases hpc
    · rw [hnot] at hpc
      cases hpc
    · obtain ⟨hlinked, hquiet⟩ := hok hrun fd h.source
      exact ⟨fd, rfl, rfl, hlinked, hquiet⟩
  refine ⟨locks_step hinv h, ?_, ?_⟩
  · intro q b fd hq hb hlock
    -- the lock path is changed only where no daemon holds a lock
    have hpath : w.lockPath = some fd → w'.lockPath = some fd := by
      intro hfd
      rcases h.lockPath with heq | hnone | ⟨hpc, hdown, hlock'⟩
      · rw [heq, hfd]
      · rw [hnone] at hfd
        cases hfd
      · rcases h.get hq with ⟨rfl, rfl⟩ | ⟨hqp, hq⟩
        · rw [hlock'] at hlock
          cases hlock
        · exact absurd (hinv.exclusive _ _ _ _ hq h.source hb hpc) hqp
    rcases h.get hq with ⟨rfl, rfl⟩ | ⟨hqp, hq⟩
    · rcases h.daemon hb with ⟨hpc, hsame⟩ | ⟨hdown, -⟩ | ⟨fd', rfl, hrun, rfl, rfl⟩
      · exact hpath (hinv.linked _ pc fd h.source hpc (hsame ▸ hlock))
      · rw [not_lock_of_tearsDown hdown] at hlock
        cases hlock
      · cases hlock
        exact hpath (hok hrun fd h.source).1
    · exact hpath (hinv.linked q b fd hq hb hlock)
  · intro q r b c hq hr hb hc
    -- a new daemon is alone; the others are as before
    have hmoved : ∀ (q : Pid) (b : Pc), w.procs[q]? = some b → b.isDaemon = true → pc'.isDaemon = true →
        q = p := by
      intro q b hq hb hd
      by_cases hpc : pc.isDaemon = true
      · exact hinv.exclusive _ _ _ _ hq h.source hb hpc
      · obtain ⟨fd, rfl, -, hlinked, hquiet⟩ := hwin hd (Bool.not_eq_true _ ▸ hpc)
        exact alone_of_win hinv h.source hlinked hquiet hq hb
    rcases h.get hq with ⟨rfl, rfl⟩ | ⟨hqp, hq⟩ <;> rcases h.get hr with ⟨rfl, rfl⟩ | ⟨hrp, hr⟩
    · rfl
    · exact (hmoved r c hr hc hb).symm
    · exact hmoved q b hq hb hc
    · exact hinv.exclusive _ _ _ _ hq hr hb hc

end Step

theorem inv_spawn {w : World} (hinv : Inv w) :
    Inv { w with procs := w.procs ++ [.connecting] } := by
  -- the new process is neither a daemon nor holds a lock
  have hget : ∀ (q : Pid) (b : Pc), (w.procs ++ [Pc.connecting])[q]? = some b →
      w.procs[q]? = some b ∨ b = .connecting := by
    intro q b hq
    exact (List.getElem?_concat_cases hq).symm.imp id And.right
  refine ⟨?_, ?_, ?_⟩
  · intro p q a b fd hp hq ha hb
    rcases hget p a hp with hp | rfl
    · rcases hget q b hq with hq | rfl
      · exact hinv.locks p q a b fd hp hq ha hb
      · cases hb
    · cases ha
  · intro p a fd hp ha hlock
    rcases hget p a hp with hp | rfl
    · exact hinv.linked p a fd hp ha hlock
    · cases hlock
  · intro p q a b hp hq ha hb
    rcases hget p a hp with hp | rfl
    · rcases hget q b hq with hq | rfl
      · exact hinv.exclusive p q a b hp hq ha hb
      · cases hb
    · cases ha

theorem inv_of_reach {w : World} (h : system.Reach CleanWin w) : Inv w := by
  refine h.invariant ?_ ?_
  · rintro w rfl
    exact ⟨by simp, by simp, fun p q a b hp => by simp at hp⟩
  · intro w a w' hinv hok hstep
    rcases step_effect hstep with ⟨rfl, rfl⟩ | ⟨p, pc, pc', heffect⟩
    · exact inv_spawn hinv
    · exact inv_step hinv hok heffect

theorem isDaemon_of_listens {a : Pc} (h : a.listens = true) : a.isDaemon = true := by
  cases a <;> simp_all [Pc.listens, Pc.isDaemon, Pc.tearsDown]

/-- Only a daemon unlinks the socket path. -/
theorem isDaemon_of_unlinks {w w' : World} {a : Action} {p : Pid}
    (ha : a.unlinksSocket? = some p) (h : step w a = some w') :
    ∃ pc, w.procs[p]? = some pc ∧ pc.isDaemon = true := by
  cases a with
  | removeSocket q =>
      cases ha
      simp only [step] at h
      split at h
      · exact ⟨_, ‹_›, rfl⟩
      · cases h
  | unlinkSocket q =>
      cases ha
      simp only [step] at h
      split at h
      · exact ⟨_, ‹_›, rfl⟩
      · cases h
  | _ => cases ha

/-- **At most one daemon.** In every run in which each winner holds the lock of the file
under the lock path while no process tears down, daemons are exclusive, and no process
unlinks a socket path that another live one has bound. -/
theorem daemon_exclusive {w : World} (h : system.Reach CleanWin w) :
    Exclusive w ∧ UnlinksOwn w := by
  have hinv := inv_of_reach h
  refine ⟨hinv.exclusive, ?_⟩
  intro a p w' ha hstep q hsock hlive
  obtain ⟨pc, hp, hd⟩ := isDaemon_of_unlinks ha hstep
  obtain ⟨b, hq, hlistens⟩ := (Option.any_eq_true ..).mp hlive
  exact hinv.exclusive q p b pc hq hp (isDaemon_of_listens hlistens) hd

/-! ### Sample runs -/

/-- `CleanWin`, decided. -/
def cleanWin (w : World) : Action → Bool
  | .reconnect p => w.isDaemonRunning ||
      match w.procs[p]? with
      | some (.probing fd) => w.lockPath = some fd && w.procs.all fun pc => !pc.tearsDown
      | _ => true
  | _ => true

theorem cleanWin_of_eq_true {w : World} {a : Action} (h : cleanWin w a = true) :
    CleanWin w a := by
  cases a with
  | reconnect p =>
      intro hrun fd hp
      simp only [cleanWin, hrun, hp, Bool.false_or, Bool.and_eq_true, decide_eq_true_eq,
        List.all_eq_true, Bool.not_eq_true'] at h
      exact h
  | _ => trivial

/-- The steps by which process `p` wins and serves. -/
def serve (p : Pid) : List Action :=
  [.tryLock p, .reconnect p, .recover p true, .removeSocket p, .bind p]

/-- `daemon_exclusive` on a daemon that serves and tears down while a second process is
refused, then succeeds it. -/
theorem daemon_exclusive_sample : ∃ w, w.procs = [.gone, .gone, .serving 1] ∧
    Exclusive w ∧ UnlinksOwn w := by
  have hrun : (system.runOk cleanWin ⟨[], none, 0, none⟩
      ([.spawn, .connect 0, .open 0] ++ serve 0 ++ [.spawn, .connect 1, .closeLock 0,
        .unlinkLock 0, .unlinkSocket 0, .finish 0, .spawn, .connect 2, .open 2] ++ serve 2)).map
      World.procs = some [.gone, .gone, .serving 1] := by decide
  obtain ⟨w, hw, hprocs⟩ := Option.map_eq_some_iff.mp hrun
  exact ⟨w, hprocs, daemon_exclusive
    (.runOk (fun _ _ => cleanWin_of_eq_true) (.init rfl) hw)⟩

/-- Two daemons: the second opened the lock file before the first unlinked it and locks
the orphan, the third locks a new file; the third then unlinks the second's socket. -/
theorem daemon_not_exclusive : ∃ w, system.Reach Lts.anyStep w ∧ ¬ Exclusive w ∧
    ¬ UnlinksOwn w := by
  have hrun : (system.run ⟨[], none, 0, none⟩
      ([.spawn, .connect 0, .open 0, .spawn, .connect 1, .open 1, .spawn, .connect 2] ++ serve 0 ++
        [.closeLock 0, .unlinkLock 0, .tryLock 1, .open 2, .tryLock 2, .unlinkSocket 0, .finish 0,
          .reconnect 1, .reconnect 2, .recover 1 true, .removeSocket 1, .bind 1,
          .recover 2 true])).map (fun w => (w.procs, w.sock))
      = some ([.gone, .serving 0, .cleaning 1], some 1) := by decide
  obtain ⟨w, hw, heq⟩ := Option.map_eq_some_iff.mp hrun
  obtain ⟨hprocs, hsock⟩ := Prod.mk.inj heq
  refine ⟨w, Lts.Reach.run (.init rfl) (fun _ _ _ => trivial) hw, ?_, ?_⟩
  · intro hexclusive
    exact absurd (hexclusive 1 2 (.serving 0) (.cleaning 1) (by rw [hprocs]; rfl)
      (by rw [hprocs]; rfl) rfl rfl) (by decide)
  · intro hown
    have hstep : ∃ w', step w (.removeSocket 2) = some w' := by
      simp only [step, hprocs]
      exact ⟨_, rfl⟩
    obtain ⟨w', hstep⟩ := hstep
    exact absurd (hown (.removeSocket 2) 2 w' rfl hstep 1 hsock (by rw [hprocs]; rfl)) (by decide)

end Filigrio.Daemon.Handshake
