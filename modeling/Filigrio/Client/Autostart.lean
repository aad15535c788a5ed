import Filigrio.Daemon.Handshake

/-!
# Filigrio.Client.Autostart

Clients that start the daemon when they find none (`ensure_daemon_ready`): look for it,
take the startup lock, look again, spawn, and wait under the lock until it listens. Any
number of clients run beside the daemon processes of `Daemon.Handshake`, each call one
step, and all of them can crash.

The lock file of the clients is never unlinked, so its lock is one lock; it does not
outlast a client that gives up waiting. `Patient` leaves out exactly the clients that let
go while the process they spawned is still coming up, and daemons started by hand.
-/

namespace Filigrio.Client.Autostart

open Filigrio.Daemon
open Filigrio.Daemon.Handshake (Pid)

/-- Where a client stands in `ensure_daemon_ready`: the step it takes next. -/
inductive Pc
  /-- Phase 1: `check_socket_ready`. -/
  | checking
  /-- Phase 2: `acquire_flock`, which waits. -/
  | locking
  /-- The check once more, under the lock. -/
  | rechecking
  /-- Phase 3: `spawn_daemon`. -/
  | spawning
  /-- Phase 4: `wait_for_daemon_ready`, for the process it spawned. -/
  | waiting (p : Pid)
  | returned (ready : Bool)
  /-- An error, or a crash. -/
  | failed
  deriving DecidableEq, Repr

/-- The client holds the startup lock. -/
def Pc.guarded : Pc → Bool
  | rechecking | spawning | waiting _ => true
  | _ => false

/-- The clients, and the daemon processes with their files. -/
structure World where
  clients : List Pc
  daemons : Handshake.World

def World.goto (w : World) (c : ℕ) (pc : Pc) : World := { w with clients := w.clients.set c pc }

inductive Action
  /-- A client is started. -/
  | arrive
  | check (c : ℕ)
  /-- The lock is had, or the lock file cannot be created or opened. -/
  | lock (c : ℕ) (ok : Bool)
  | recheck (c : ℕ)
  | spawn (c : ℕ) (ok : Bool)
  | poll (c : ℕ)
  /-- `startup_timeout` is over. -/
  | timeout (c : ℕ)
  | crash (c : ℕ)
  | daemon (a : Handshake.Action)
  deriving DecidableEq, Repr

/-- What each step does. Whoever returns, fails or crashes lets go of the lock. -/
def step (w : World) : Action → Option World
  | .arrive => some { w with clients := w.clients ++ [.checking] }
  | .check c =>
    match w.clients[c]? with
    | some .checking =>
      some (w.goto c (if w.daemons.isDaemonRunning then .returned true else .locking))
    | _ => none
  | .lock c ok =>
    match w.clients[c]? with
    | some .locking =>
      if !ok then some (w.goto c .failed)
      -- the call blocks while another client holds the lock
      else if w.clients.any Pc.guarded then none
      else some (w.goto c .rechecking)
    | _ => none
  | .recheck c =>
    match w.clients[c]? with
    | some .rechecking =>
      some (w.goto c (if w.daemons.isDaemonRunning then .returned true else .spawning))
    | _ => none
  | .spawn c ok =>
    match w.clients[c]? with
    | some .spawning =>
      if ok then
        (Handshake.step w.daemons .spawn).map fun daemons =>
          { w.goto c (.waiting w.daemons.procs.length) with daemons }
      else some (w.goto c .failed)
    | _ => none
  | .poll c =>
    match w.clients[c]? with
    | some (.waiting _) =>
      if w.daemons.isDaemonRunning then some (w.goto c (.returned true)) else some w
    | _ => none
  | .timeout c =>
    match w.clients[c]? with
    | some (.waiting _) => some (w.goto c (.returned false))
    | _ => none
  | .crash c => if c < w.clients.length then some (w.goto c .failed) else none
  | .daemon a => (Handshake.step w.daemons a).map fun daemons => { w with daemons }

/-- Clients and daemons come and go around a directory that starts out empty. -/
def system : Lts World Action where
  init w := w = ⟨[], [], none, 0, none⟩
  step := step

/-! ### The promise -/

/-- A process on its way to serving. -/
def starting : Handshake.Pc → Bool
  | .connecting | .opening | .locking _ | .probing _ | .recovering _ | .cleaning _ | .binding _ =>
    true
  | _ => false

/-- A process that a connect to its socket path reaches. -/
def reachable : Handshake.Pc → Bool
  | .serving _ | .unlocked | .unlinking => true
  | _ => false

/-- From its start to the unlinking of its socket path. -/
def live (pc : Handshake.Pc) : Bool := starting pc || reachable pc

/-- No two processes are live. -/
def Solitary (d : Handshake.World) : Prop :=
  ∀ (p q : Pid) (a b : Handshake.Pc), d.procs[p]? = some a → d.procs[q]? = some b →
    live a = true → live b = true → p = q

/-- No process on its way is refused the daemon's own lock. -/
def Uncontended (d : Handshake.World) : Prop :=
  ∀ (p : Pid) (fd : Handshake.Inode), d.procs[p]? = some (.locking fd) → d.locked fd = false

/-- No client lets go of the startup lock, by giving up or by crashing, while the process
it spawned is still coming up; and daemons are started by clients alone. -/
def Patient (w : World) : Action → Prop
  | .timeout c | .crash c => ∀ p, w.clients[c]? = some (.waiting p) →
      ∀ a, w.daemons.procs[p]? = some a → starting a = false
  | .daemon a => a ≠ .spawn
  | _ => True

/-! ### What a daemon's step does -/

/-- What a step of process `p` does to where it stands and to the socket path. -/
inductive Moves (p : Pid) (sock : Option Pid) : Handshake.Pc → Handshake.Pc → Option Pid → Prop
  | ends {a : Handshake.Pc} : Moves p sock a .gone sock
  | starts {a b : Handshake.Pc} {sock' : Option Pid} : starting a = true → starting b = true →
      sock' = sock ∨ sock' = none → Moves p sock a b sock'
  | binds {a b : Handshake.Pc} : starting a = true → reachable b = true → Moves p sock a b (some p)
  | serves {a b : Handshake.Pc} : reachable a = true → reachable b = true → Moves p sock a b sock
  | unlinks {a : Handshake.Pc} : reachable a = true → Moves p sock a .flushing none

theorem daemon_moves {d d' : Handshake.World} {a : Handshake.Action} (ha : a ≠ .spawn)
    (h : Handshake.step d a = some d') : ∃ p pc pc', d.procs[p]? = some pc ∧
      d'.procs = d.procs.set p pc' ∧ Moves p d.sock pc pc' d'.sock := by
  cases a with
  | spawn => exact absurd rfl ha
  | connect p =>
      simp only [Handshake.step] at h
      split at h
      · rename_i hp
        cases h
        refine ⟨p, _, _, hp, rfl, ?_⟩
        cases d.isDaemonRunning
        · exact .starts rfl rfl (Or.inl rfl)
        · exact .ends
      · cases h
  | «open» p =>
      simp only [Handshake.step] at h
      split at h
      · rename_i hp
        split at h <;> cases h <;> exact ⟨p, _, _, hp, rfl, .starts rfl rfl (Or.inl rfl)⟩
      · cases h
  | tryLock p =>
      simp only [Handshake.step] at h
      split at h
      · rename_i fd hp
        cases h
        refine ⟨p, _, _, hp, rfl, ?_⟩
        cases d.locked fd
        · exact .starts rfl rfl (Or.inl rfl)
        · exact .ends
      · cases h
  | reconnect p =>
      simp only [Handshake.step] at h
      split at h
      · rename_i fd hp
        cases h
        refine ⟨p, _, _, hp, rfl, ?_⟩
        cases d.isDaemonRunning
        · exact .starts rfl rfl (Or.inl rfl)
        · exact .ends
      · cases h
  | recover p ok =>
      simp only [Handshake.step] at h
      split at h
      · rename_i fd hp
        cases h
        refine ⟨p, _, _, hp, rfl, ?_⟩
        cases ok
        · exact .ends
        · exact .starts rfl rfl (Or.inl rfl)
      · cases h
  | removeSocket p =>
      simp only [Handshake.step] at h
      split at h
      · rename_i fd hp
        cases h
        exact ⟨p, _, _, hp, rfl, .starts rfl rfl (Or.inr rfl)⟩
      · cases h
  | bind p =>
      simp only [Handshake.step] at h
      split at h
      · rename_i fd hp
        split at h
        · cases h
          exact ⟨p, _, _, hp, rfl, .binds rfl rfl⟩
        · cases h
          exact ⟨p, _, _, hp, rfl, .ends⟩
      · cases h
  | closeLock p =>
      simp only [Handshake.step] at h
      split at h
      · rename_i fd hp
        cases h
        exact ⟨p, _, _, hp, rfl, .serves rfl rfl⟩
      · cases h
  | unlinkLock p =>
      simp only [Handshake.step] at h
      split at h
      · rename_i hp
        cases h
        exact ⟨p, _, _, hp, rfl, .serves rfl rfl⟩
      · cases h
  | unlinkSocket p =>
      simp only [Handshake.step] at h
      split at h
      · rename_i hp
        cases h
        exact ⟨p, _, _, hp, rfl, .unlinks rfl⟩
      · cases h
  | finish p =>
      simp only [Handshake.step] at h
      split at h
      · rename_i hp
        cases h
        exact ⟨p, _, _, hp, rfl, .ends⟩
      · cases h
  | crash p =>
      simp only [Handshake.step] at h
      split at h
      · rename_i hlt
        cases h
        exact ⟨p, d.procs.get ⟨p, hlt⟩, _, List.getElem?_eq_getElem hlt, rfl, .ends⟩
      · cases h

/-! ### The daemons' invariant -/

theorem not_starting_of_reachable {a : Handshake.Pc} (h : reachable a = true) :
    starting a = false := by
  cases a <;> simp_all [starting, reachable]

theorem live_of_starting {a : Handshake.Pc} (h : starting a = true) : live a = true := by
  simp [live, h]

theorem live_of_reachable {a : Handshake.Pc} (h : reachable a = true) : live a = true := by
  simp [live, h]

theorem listens_of_reachable {a : Handshake.Pc} (h : reachable a = true) : a.listens = true := by
  cases a <;> simp_all [Handshake.Pc.listens, Handshake.Pc.tearsDown, reachable]

/-- At most one process is live; one that can be reached owns the socket path, and the
path's owner can be reached unless it is gone. -/
structure Solo (d : Handshake.World) : Prop where
  single : Solitary d
  bound : ∀ p a, d.procs[p]? = some a → reachable a = true → d.sock = some p
  holder : ∀ p, d.sock = some p → ∃ a, d.procs[p]? = some a ∧ (reachable a = true ∨ a = .gone)

section Daemons

variable {d d' : Handshake.World} {p q : Pid} {pc pc' a b : Handshake.Pc}

/-- No process comes alive by a step. -/
theorem Moves.live {sock sock' : Option Pid} (h : Moves p sock pc pc' sock')
    (hlive : live pc' = true) : live pc = true := by
  cases h with
  | ends => cases hlive
  | starts ha => exact live_of_starting ha
  | binds ha => exact live_of_starting ha
  | serves ha => exact live_of_reachable ha
  | unlinks => cases hlive

theorem Moves.starting {sock sock' : Option Pid} (h : Moves p sock pc pc' sock')
    (hstarts : starting pc' = true) : starting pc = true := by
  cases h with
  | ends => cases hstarts
  | starts ha => exact ha
  | binds ha => exact ha
  | serves _ hb =>
      rw [not_starting_of_reachable hb] at hstarts
      cases hstarts
  | unlinks => cases hstarts

/-- A process after a step of `p` was as far before, or is `p`. -/
theorem procs_set (hp : d.procs[p]? = some pc) (hset : d'.procs = d.procs.set p pc')
    (hq : d'.procs[q]? = some b) : (q = p ∧ b = pc') ∨ (q ≠ p ∧ d.procs[q]? = some b) := by
  rw [hset] at hq
  exact List.getElem?_set_cases (List.lt_of_getElem?_eq_some hp) hq

theorem live_before {sock sock' : Option Pid} (hp : d.procs[p]? = some pc)
    (hset : d'.procs = d.procs.set p pc') (hmoves : Moves p sock pc pc' sock')
    (hq : d'.procs[q]? = some b) (hb : live b = true) :
    ∃ a, d.procs[q]? = some a ∧ live a = true := by
  rcases procs_set hp hset hq with ⟨rfl, rfl⟩ | ⟨-, hq⟩
  · exact ⟨pc, hp, hmoves.live hb⟩
  · exact ⟨b, hq, hb⟩

theorem starting_before {sock sock' : Option Pid} (hp : d.procs[p]? = some pc)
    (hset : d'.procs = d.procs.set p pc') (hmoves : Moves p sock pc pc' sock')
    (hq : d'.procs[q]? = some b)
    (hb : starting b = true) : ∃ a, d.procs[q]? = some a ∧ starting a = true := by
  rcases procs_set hp hset hq with ⟨rfl, rfl⟩ | ⟨-, hq⟩
  · exact ⟨pc, hp, hmoves.starting hb⟩
  · exact ⟨b, hq, hb⟩

theorem Solo.step (h : Solo d) (hp : d.procs[p]? = some pc) (hset : d'.procs = d.procs.set p pc')
    (hmoves : Moves p d.sock pc pc' d'.sock) : Solo d' := by
  have hlt := List.lt_of_getElem?_eq_some hp
  generalize hs' : d'.sock = sock' at hmoves
  -- a live process that moves leaves no other one that can be reached
  have halone : Autostart.live pc = true → ∀ (q : Pid) (b : Handshake.Pc), q ≠ p →
      d.procs[q]? = some b → reachable b = true →
      False := by
    intro hlive q b hne hq hb
    exact hne (h.single q p b pc hq hp (live_of_reachable hb) hlive)
  refine ⟨?_, ?_, ?_⟩
  · intro q r a b hq hr ha hb
    obtain ⟨a', hq, ha⟩ := live_before hp hset hmoves hq ha
    obtain ⟨b', hr, hb⟩ := live_before hp hset hmoves hr hb
    exact h.single q r a' b' hq hr ha hb
  · intro q b hq hb
    rw [hs']
    rcases procs_set hp hset hq with ⟨rfl, rfl⟩ | ⟨hne, hq⟩
    · cases hmoves with
      | ends => cases hb
      | starts _ hstarts =>
          rw [not_starting_of_reachable hb] at hstarts
          cases hstarts
      | binds => rfl
      | serves ha => exact h.bound _ pc hp ha
      | unlinks => cases hb
    · have hsock := h.bound q b hq hb
      cases hmoves with
      | ends => exact hsock
      | starts ha _ hor => exact (halone (live_of_starting ha) q b hne hq hb).elim
      | binds ha => exact (halone (live_of_starting ha) q b hne hq hb).elim
      | serves => exact hsock
      | unlinks ha => exact (halone (live_of_reachable ha) q b hne hq hb).elim
  · intro q hsock
    rw [hs'] at hsock
    have hself : d'.procs[p]? = some pc' := by
      rw [hset]
      exact List.getElem?_set_self hlt
    have hother : ∀ q : Pid, q ≠ p → d'.procs[q]? = d.procs[q]? := by
      intro q hne
      rw [hset]
      exact List.getElem?_set_ne (Ne.symm hne)
    by_cases hne : q = p
    · subst hne
      refine ⟨pc', hself, ?_⟩
      cases hmoves with
      | ends => exact Or.inr rfl
      | starts ha _ hor =>
          rcases hor with heq | hnone
          · obtain ⟨a, hq, hor⟩ := h.holder q (heq ▸ hsock)
            cases hp.symm.trans hq
            rcases hor with hr | rfl
            · rw [not_starting_of_reachable hr] at ha
              cases ha
            · cases ha
          · rw [hnone] at hsock
            cases hsock
      | binds _ hb => exact Or.inl hb
      | serves _ hb => exact Or.inl hb
      | unlinks => cases hsock
    · rw [hother q hne]
      refine h.holder q ?_
      cases hmoves with
      | ends => exact hsock
      | starts _ _ hor =>
          rcases hor with heq | hnone
          · exact heq ▸ hsock
          · rw [hnone] at hsock
            cases hsock
      | binds => exact absurd (Option.some.inj hsock).symm hne
      | serves => exact hsock
      | unlinks => cases hsock

/-- When a daemon is found, the socket path's owner can be reached. -/
theorem Solo.running (h : Solo d) (hrun : d.isDaemonRunning = true) :
    ∃ (q : Pid) (b : Handshake.Pc), d.procs[q]? = some b ∧ reachable b = true := by
  obtain ⟨q, hsock, hany⟩ := (Option.any_eq_true ..).mp hrun
  obtain ⟨b, hq, hlistens⟩ := (Option.any_eq_true ..).mp hany
  obtain ⟨a, hq', hor⟩ := h.holder q hsock
  cases hq.symm.trans hq'
  rcases hor with hr | rfl
  · exact ⟨q, b, hq, hr⟩
  · cases hlistens

/-- And when none is found, no process can be reached. -/
theorem Solo.not_reachable (h : Solo d) (hrun : d.isDaemonRunning = false)
    (hq : d.procs[q]? = some b) : reachable b = false := by
  cases hr : reachable b with
  | false => rfl
  | true =>
      have hfound : d.isDaemonRunning = true := by
        rw [Handshake.World.isDaemonRunning, h.bound q b hq hr]
        exact (Option.any_eq_true ..).mpr ⟨q, rfl, (Option.any_eq_true ..).mpr
          ⟨b, hq, listens_of_reachable hr⟩⟩
      rw [hfound] at hrun
      cases hrun

end Daemons

/-! ### What a step does -/

/-- A client leaves, gets the lock, finds no daemon, or spawns one; or a daemon moves. -/
inductive Effect (w : World) : Action → World → Prop
  | arrives {a : Action} : Effect w a { w with clients := w.clients ++ [.checking] }
  | stays {a : Action} : Effect w a w
  /-- To where it does not hold the lock. -/
  | leaves {a : Action} {c : ℕ} {pc pc' : Pc} (hc : w.clients[c]? = some pc)
      (hout : pc'.guarded = false)
      (hwhy : ∀ p, pc = .waiting p → a = .timeout c ∨ a = .crash c ∨
        w.daemons.isDaemonRunning = true) : Effect w a (w.goto c pc')
  | locks {a : Action} {c : ℕ} (hc : w.clients[c]? = some .locking)
      (hfree : w.clients.any Pc.guarded = false) : Effect w a (w.goto c .rechecking)
  | misses {a : Action} {c : ℕ} (hc : w.clients[c]? = some .rechecking)
      (hrun : w.daemons.isDaemonRunning = false) : Effect w a (w.goto c .spawning)
  | spawns {a : Action} {c : ℕ} (hc : w.clients[c]? = some .spawning) :
      Effect w a { w.goto c (.waiting w.daemons.procs.length) with
        daemons := { w.daemons with procs := w.daemons.procs ++ [.connecting] } }
  | daemon {b : Handshake.Action} {d : Handshake.World}
      (hd : Handshake.step w.daemons b = some d) : Effect w (.daemon b) { w with daemons := d }

theorem step_effect {w w' : World} {a : Action} (h : step w a = some w') : Effect w a w' := by
  cases a with
  | arrive =>
      cases h
      exact .arrives
  | check c =>
      simp only [step] at h
      split at h
      · rename_i hc
        cases h
        cases w.daemons.isDaemonRunning <;> exact .leaves hc rfl (fun _ h => by cases h)
      · cases h
  | lock c ok =>
      simp only [step] at h
      split at h
      · rename_i hc
        split at h
        · cases h
          exact .leaves hc rfl (fun _ h => by cases h)
        · split at h
          · cases h
          · rename_i hfree
            cases h
            exact .locks hc (by simpa using hfree)
      · cases h
  | recheck c =>
      simp only [step] at h
      split at h
      · rename_i hc
        cases h
        cases hrun : w.daemons.isDaemonRunning
        · exact .misses hc hrun
        · exact .leaves hc rfl (fun _ h => by cases h)
      · cases h
  | spawn c ok =>
      simp only [step] at h
      split at h
      · rename_i hc
        split at h
        · cases h
          exact .spawns hc
        · cases h
          exact .leaves hc rfl (fun _ h => by cases h)
      · cases h
  | poll c =>
      simp only [step] at h
      split at h
      · rename_i p hc
        split at h
        · rename_i hrun
          cases h
          exact .leaves hc rfl (fun _ _ => Or.inr (Or.inr hrun))
        · cases h
          exact .stays
      · cases h
  | timeout c =>
      simp only [step] at h
      split at h
      · rename_i p hc
        cases h
        exact .leaves hc rfl (fun _ _ => Or.inl rfl)
      · cases h
  | crash c =>
      simp only [step] at h
      split at h
      · rename_i hlt
        cases h
        exact .leaves (List.getElem?_eq_getElem hlt) rfl (fun _ _ => Or.inr (Or.inl rfl))
      · cases h
  | daemon b =>
      obtain ⟨d, hd, rfl⟩ := Option.map_eq_some_iff.mp h
      exact .daemon hd

/-! ### The invariant -/

/-- The startup lock is exclusive; a process is starting only while the client that
spawned it waits under the lock, and then no other one is live; and no process is live when
a client has made up its mind to spawn one. -/
structure Inv (w : World) : Prop where
  solo : Solo w.daemons
  lock : ∀ (c d : ℕ) (a b : Pc), w.clients[c]? = some a → w.clients[d]? = some b →
    a.guarded = true → b.guarded = true → c = d
  spawner : ∀ (p : Pid) (a : Handshake.Pc), w.daemons.procs[p]? = some a → starting a = true →
    ∃ c : ℕ, w.clients[c]? = some (.waiting p)
  waits : ∀ (c : ℕ) (p : Pid), w.clients[c]? = some (.waiting p) →
    ∀ (q : Pid) (a : Handshake.Pc), w.daemons.procs[q]? = some a → live a = true → q = p
  clear : ∀ c : ℕ, w.clients[c]? = some .spawning →
    ∀ (q : Pid) (a : Handshake.Pc), w.daemons.procs[q]? = some a → live a = false

section Step

variable {w w' : World} {a : Action} {c : ℕ} {pc pc' : Pc}

theorem clients_set (hc : w.clients[c]? = some pc) {d : ℕ} {b : Pc}
    (hd : (w.goto c pc').clients[d]? = some b) :
    (d = c ∧ b = pc') ∨ (d ≠ c ∧ w.clients[d]? = some b) :=
  List.getElem?_set_cases (List.lt_of_getElem?_eq_some hc) hd

/-- A client's move keeps the lock exclusive, when it takes the lock only where no other
client holds it. -/
theorem lock_goto (hinv : Inv w) (hc : w.clients[c]? = some pc)
    (htake : pc'.guarded = true → pc.guarded = true ∨ w.clients.any Pc.guarded = false)
    (d e : ℕ) (a b : Pc) (hd : (w.goto c pc').clients[d]? = some a)
    (he : (w.goto c pc').clients[e]? = some b) (ha : a.guarded = true) (hb : b.guarded = true) :
    d = e := by
  have hmoved : ∀ (d : ℕ) (a : Pc), d ≠ c → w.clients[d]? = some a → a.guarded = true →
      pc'.guarded = true → False := by
    intro d a hne hd ha hpc'
    rcases htake hpc' with hpc | hfree
    · exact hne (hinv.lock d c a pc hd hc ha hpc)
    · have hnone := List.any_eq_false.mp hfree a (List.mem_of_getElem? hd)
      exact hnone ha
  rcases clients_set hc hd with ⟨rfl, rfl⟩ | ⟨hdc, hd'⟩ <;>
    rcases clients_set hc he with ⟨rfl, rfl⟩ | ⟨hec, he'⟩
  · rfl
  · exact (hmoved e b hec he' hb ha).elim
  · exact (hmoved d a hdc hd' ha hb).elim
  · exact hinv.lock d e a b hd' he' ha hb

/-- A client can move while the daemons stay, unless it leaves one to start alone or
decides to spawn beside a live one. -/
theorem inv_goto (hinv : Inv w) (hc : w.clients[c]? = some pc)
    (htake : pc'.guarded = true → pc.guarded = true ∨ w.clients.any Pc.guarded = false)
    (hleave : ∀ p, pc = .waiting p → ∀ a, w.daemons.procs[p]? = some a → starting a = false)
    (hwait : ∀ p, pc' ≠ .waiting p)
    (hclear : pc' = .spawning → ∀ (q : Pid) (a : Handshake.Pc), w.daemons.procs[q]? = some a →
      live a = false) : Inv (w.goto c pc') where
  solo := hinv.solo
  lock := lock_goto hinv hc htake
  spawner := by
    intro p a hp ha
    obtain ⟨d, hd⟩ := hinv.spawner p a hp ha
    have hne : c ≠ d := by
      intro heq
      subst heq
      cases hc.symm.trans hd
      rw [hleave p rfl a hp] at ha
      cases ha
    exact ⟨d, by rw [← hd]; exact List.getElem?_set_ne hne⟩
  waits := by
    intro d p hd
    rcases clients_set hc hd with ⟨-, heq⟩ | ⟨-, hd⟩
    · exact absurd heq.symm (hwait p)
    · exact hinv.waits d p hd
  clear := by
    intro d hd
    rcases clients_set hc hd with ⟨-, heq⟩ | ⟨-, hd⟩
    · exact hclear heq.symm
    · exact hinv.clear d hd

/-- A client under the lock that finds no daemon finds no process at all on its way. -/
theorem none_live (hinv : Inv w) (hc : w.clients[c]? = some .rechecking)
    (hrun : w.daemons.isDaemonRunning = false) {q : Pid} {b : Handshake.Pc}
    (hq : w.daemons.procs[q]? = some b) : live b = false := by
  have hreach := hinv.solo.not_reachable hrun hq
  cases hs : starting b with
  | false => simp [live, hs, hreach]
  | true =>
      obtain ⟨d, hd⟩ := hinv.spawner q b hq hs
      obtain rfl := hinv.lock d c _ _ hd hc rfl rfl
      cases hc.symm.trans hd

/-- The process a client waits for is up once a daemon is found. -/
theorem up_of_running (hinv : Inv w) {p : Pid} (hc : w.clients[c]? = some (.waiting p))
    (hrun : w.daemons.isDaemonRunning = true) {a : Handshake.Pc}
    (hp : w.daemons.procs[p]? = some a) : starting a = false := by
  obtain ⟨q, b, hq, hb⟩ := hinv.solo.running hrun
  obtain rfl := hinv.waits c p hc q b hq (live_of_reachable hb)
  cases hp.symm.trans hq
  exact not_starting_of_reachable hb

theorem inv_spawns (hinv : Inv w) (hc : w.clients[c]? = some .spawning) :
    Inv { w.goto c (.waiting w.daemons.procs.length) with
      daemons := { w.daemons with procs := w.daemons.procs ++ [.connecting] } } := by
  have hnone := hinv.clear c hc
  have hget : ∀ (q : Pid) (b : Handshake.Pc),
      (w.daemons.procs ++ [Handshake.Pc.connecting])[q]? = some b → live b = true →
      q = w.daemons.procs.length := by
    intro q b hq hb
    rcases List.getElem?_concat_cases hq with ⟨rfl, -⟩ | hq
    · rfl
    · rw [hnone q b hq] at hb
      cases hb
  -- whoever else holds the lock is the client itself
  have hother : ∀ (d : ℕ) (b : Pc), d ≠ c → w.clients[d]? = some b → b.guarded = false := by
    intro d b hne hd
    cases hb : b.guarded with
    | false => rfl
    | true => exact absurd (hinv.lock d c b _ hd hc hb rfl) hne
  refine ⟨⟨?_, ?_, ?_⟩, ?_, ?_, ?_, ?_⟩
  · intro p q a b hp hq ha hb
    rw [hget p a hp ha, hget q b hq hb]
  · intro p a hp ha
    rcases List.getElem?_concat_cases hp with ⟨-, rfl⟩ | hp
    · cases ha
    · exact hinv.solo.bound p a hp ha
  · intro p hp
    obtain ⟨a, ha, hor⟩ := hinv.solo.holder p hp
    exact ⟨a, by rw [← ha]; exact List.getElem?_append_left (List.lt_of_getElem?_eq_some ha), hor⟩
  · exact lock_goto hinv hc (fun _ => Or.inl rfl)
  · intro p a hp ha
    obtain rfl := hget p a hp (live_of_starting ha)
    exact ⟨c, List.getElem?_set_self (List.lt_of_getElem?_eq_some hc)⟩
  · intro d p hd q b hq hb
    rcases clients_set hc hd with ⟨-, heq⟩ | ⟨hne, hd⟩
    · cases heq
      exact hget q b hq hb
    · cases hother d _ hne hd
  · intro d hd
    rcases clients_set hc hd with ⟨-, heq⟩ | ⟨hne, hd⟩
    · cases heq
    · cases hother d _ hne hd

theorem inv_daemon (hinv : Inv w) {b : Handshake.Action} {d : Handshake.World} (hb : b ≠ .spawn)
    (hd : Handshake.step w.daemons b = some d) : Inv { w with daemons := d } := by
  obtain ⟨p, pc, pc', hp, hset, hmoves⟩ := daemon_moves hb hd
  refine ⟨hinv.solo.step hp hset hmoves, hinv.lock, ?_, ?_, ?_⟩
  · intro q a hq ha
    obtain ⟨a', hq, ha⟩ := starting_before hp hset hmoves hq ha
    exact hinv.spawner q a' hq ha
  · intro c r hc q a hq ha
    obtain ⟨a', hq, ha⟩ := live_before hp hset hmoves hq ha
    exact hinv.waits c r hc q a' hq ha
  · intro c hc q a hq
    cases ha : live a with
    | false => rfl
    | true =>
        obtain ⟨a', hq, ha⟩ := live_before hp hset hmoves hq ha
        rw [hinv.clear c hc q a' hq] at ha
        cases ha

theorem inv_step (hinv : Inv w) (hok : Patient w a) (h : Effect w a w') : Inv w' := by
  cases h with
  | arrives =>
      have hget : ∀ (d : ℕ) (b : Pc), (w.clients ++ [Pc.checking])[d]? = some b →
          b ≠ .checking → w.clients[d]? = some b := by
        intro d b hd hne
        exact (List.getElem?_concat_cases hd).resolve_left fun h => hne h.2
      refine ⟨hinv.solo, ?_, ?_, ?_, ?_⟩
      · intro c d a b hc hd ha hb
        exact hinv.lock c d a b (hget c a hc (by rintro rfl; cases ha))
          (hget d b hd (by rintro rfl; cases hb)) ha hb
      · intro p b hp hb
        obtain ⟨c, hc⟩ := hinv.spawner p b hp hb
        exact ⟨c, by rw [← hc]; exact List.getElem?_append_left (List.lt_of_getElem?_eq_some hc)⟩
      · intro c p hc
        exact hinv.waits c p (hget c _ hc (by simp))
      · intro c hc
        exact hinv.clear c (hget c _ hc (by simp))
  | stays => exact hinv
  | @leaves _ c pc pc' hc hout hwhy =>
      refine inv_goto hinv hc (by simp [hout]) ?_ (by rintro p rfl; cases hout)
        (by rintro rfl; cases hout)
      rintro p rfl b hp
      rcases hwhy p rfl with rfl | rfl | hrun
      · exact hok p hc b hp
      · exact hok p hc b hp
      · exact up_of_running hinv hc hrun hp
  | locks hc hfree =>
      exact inv_goto hinv hc (fun _ => Or.inr hfree) (fun _ h => by cases h)
        (by simp) (by simp)
  | misses hc hrun =>
      exact inv_goto hinv hc (fun _ => Or.inl rfl) (fun _ h => by cases h) (by simp)
        (fun _ q b hq => none_live hinv hc hrun hq)
  | spawns hc => exact inv_spawns hinv hc
  | daemon hd => exact inv_daemon hinv hok hd

end Step

theorem inv_of_reach {w : World} (h : system.Reach Patient w) : Inv w := by
  refine h.invariant ?_ (fun w a w' hinv hok hstep => inv_step hinv hok (step_effect hstep))
  intro w h0
  rw [show w = ⟨[], [], none, 0, none⟩ from h0]
  exact ⟨⟨fun p q a b hp => by simp at hp, by simp, by simp⟩, by simp, by simp, by simp, by simp⟩

/-! ### One daemon at a time -/

theorem live_of_unlinks {d d' : Handshake.World} {a : Handshake.Action} {p : Pid}
    (ha : a.unlinksSocket? = some p) (h : Handshake.step d a = some d') :
    ∃ pc, d.procs[p]? = some pc ∧ live pc = true := by
  cases a with
  | removeSocket q =>
      cases ha
      simp only [Handshake.step] at h
      split at h
      · exact ⟨_, ‹_›, rfl⟩
      · cases h
  | unlinkSocket q =>
      cases ha
      simp only [Handshake.step] at h
      split at h
      · exact ⟨_, ‹_›, rfl⟩
      · cases h
  | _ => cases ha

theorem Solo.unlinksOwn {d : Handshake.World} (h : Solo d) : Handshake.UnlinksOwn d := by
  intro a p d' ha hstep q hsock hany
  obtain ⟨pc, hp, hlive⟩ := live_of_unlinks ha hstep
  obtain ⟨b, hq, hlistens⟩ := (Option.any_eq_true ..).mp hany
  obtain ⟨b', hq', hor⟩ := h.holder q hsock
  cases hq.symm.trans hq'
  rcases hor with hr | rfl
  · exact h.single q p b pc hq hp (live_of_reachable hr) hlive
  · cases hlistens

theorem Solo.uncontended {d : Handshake.World} (h : Solo d) : Uncontended d := by
  intro p fd hp
  refine List.any_eq_false.mpr fun b hb => ?_
  intro hlock
  have hlock : b.lock? = some fd := of_decide_eq_true hlock
  have hlive : live b = true := by
    cases b <;> simp_all [Handshake.Pc.lock?, live, starting, reachable]
  obtain ⟨q, hq⟩ := List.mem_iff_getElem?.mp hb
  obtain rfl := h.single q p b _ hq hp hlive rfl
  cases hp.symm.trans hq
  cases hlock

/-- **Auto-start runs one daemon at a time.** However many clients start it, in whatever
order their steps and the daemons' fall, at most one daemon process is between its start
and the unlinking of its socket path; none is refused the daemon's lock, and none unlinks a
socket path that another live one has bound. -/
theorem autostart_solitary {w : World} (h : system.Reach Patient w) :
    Solitary w.daemons ∧ Uncontended w.daemons ∧ Handshake.UnlinksOwn w.daemons :=
  ⟨(inv_of_reach h).solo.single, (inv_of_reach h).solo.uncontended,
    (inv_of_reach h).solo.unlinksOwn⟩

/-- Two clients that both find no daemon: the second gets the lock when the daemon of the
first is up. -/
def race : List Action :=
  [.arrive, .arrive, .check 0, .check 1, .lock 1 true, .recheck 1, .spawn 1 true,
    .daemon (.connect 0), .daemon (.open 0), .poll 1, .daemon (.tryLock 0),
    .daemon (.reconnect 0), .daemon (.recover 0 true), .daemon (.removeSocket 0),
    .daemon (.bind 0), .poll 1, .lock 0 true, .recheck 0]

theorem autostart_solitary_race : ∃ w : World, w.clients = [.returned true, .returned true] ∧
    w.daemons.procs = [.serving 0] ∧ Solitary w.daemons ∧ Uncontended w.daemons ∧
      Handshake.UnlinksOwn w.daemons := by
  have hrun : (system.run ⟨[], [], none, 0, none⟩ race).map
      (fun w => (w.clients, w.daemons.procs)) =
      some ([.returned true, .returned true], [.serving 0]) := by decide
  obtain ⟨w, hw, heq⟩ := Option.map_eq_some_iff.mp hrun
  obtain ⟨hclients, hprocs⟩ := Prod.mk.inj heq
  refine ⟨w, hclients, hprocs, autostart_solitary (.run (.init rfl) (fun w a ha => ?_) hw)⟩
  have hspawn : a ≠ .daemon .spawn := by
    rintro rfl
    exact absurd ha (by decide)
  have htimeout : ∀ c, a ≠ .timeout c := by
    rintro c rfl
    simp [race] at ha
  have hcrash : ∀ c, a ≠ .crash c := by
    rintro c rfl
    simp [race] at ha
  cases a with
  | timeout c => exact absurd rfl (htimeout c)
  | crash c => exact absurd rfl (hcrash c)
  | daemon b => exact fun hb => hspawn (congrArg _ hb)
  | _ => trivial

end Filigrio.Client.Autostart
