import Filigrio.Hook.Deliver

/-!
# Filigrio.Hook.Race

Any number of hooks over one spool directory: each sweeps, lists, reads, sends and removes
in its replay, and then delivers its own changeset, writing `<stem>.tmp`, renaming it and
trimming the spool where the socket fails. Each of these is one step of one process; a
process can crash between any two.

The sweep takes every `.tmp` for the leftover of a crash, also one that another hook is
about to rename: that hook then reports its changeset as dropped. `undisturbed` leaves out
the sweeps that meet one; without them nothing is lost silently (`spool_keeps`).
-/

namespace Filigrio.Hook.Race

/-- Why a changeset is dropped. -/
inductive Cause
  /-- The file system refused. -/
  | refused
  /-- There was no `.tmp` to rename. -/
  | missing
  deriving DecidableEq, Repr

/-- Where a hook stands: the step it takes next. -/
inductive Pc
  | sweeping
  | listing
  /-- The listed jobs that are left. -/
  | reading (rest : List String)
  /-- About to write to the socket what it read, and whose changeset that is. -/
  | sending (path : String) (job : SpooledJob) (owner : ℕ) (rest : List String)
  | removing (path : String) (rest : List String)
  /-- The replay is over: compute the changeset. -/
  | diffing
  | delivering (project event : String) (changeset : ChangeSet)
  /-- The socket failed. -/
  | spooling (project event : String) (changeset : ChangeSet)
  /-- The `.tmp` is open. -/
  | filling (env : PushEnv) (job : SpooledJob)
  /-- The `.tmp` is whole. -/
  | committing (env : PushEnv) (job : SpooledJob)
  | trimming (job : SpooledJob)
  | submitted
  | spooled (job : SpooledJob)
  | dropped (cause : Cause)
  /-- There was nothing to submit. -/
  | finished
  deriving DecidableEq, Repr

namespace Pc

/-- The job that was renamed. -/
def spooled? : Pc → Option SpooledJob
  | trimming job | spooled job => some job
  | _ => none

/-- The request that the socket did not take, where that was not reported as a drop. -/
def failed? : Pc → Option Submit
  | spooling project _ changeset => some (submit project changeset)
  | filling _ job | committing _ job | trimming job | spooled job => some job.submit
  | _ => none

/-- Between the failed socket write and the rename. -/
def pushing : Pc → Bool
  | spooling _ _ _ | filling _ _ | committing _ _ => true
  | _ => false

/-- The push whose `.tmp` is in progress. -/
def env? : Pc → Option PushEnv
  | filling env _ | committing env _ => some env
  | _ => none

/-- The file that was read and is not yet removed. -/
def held? : Pc → Option String
  | sending path _ _ _ | removing path _ => some path
  | _ => none

end Pc

structure Process where
  pid : ℕ
  alive : Bool
  pc : Pc
  deriving DecidableEq, Repr

/-- The hooks, the spool, whose changeset each job file holds, whose changesets were written
to the socket, and whose were dropped by the cap, with the number of larger names then. -/
structure World where
  procs : List Process
  spool : SpoolDir
  owner : String → ℕ
  sent : List (ℕ × Submit)
  trimmed : List (ℕ × ℕ)

namespace World

variable (w : World)

/-- Move one hook on. -/
def goto (p : ℕ) (h : Process) (pc : Pc) : World := { w with procs := w.procs.set p { h with pc := pc } }

/-- The process, if it is alive. -/
def live? (p : ℕ) : Option Process := w.procs[p]?.filter Process.alive

/-- The listed jobs whose names are larger. -/
def larger (name : String) : ℕ := (w.spool.jobs.filter fun other => name < other).length

end World

/-- What a hook does next, with what it meets there. -/
inductive Act
  | sweep
  | list
  | read (fault : Bool)
  | send (attempt : Attempt)
  | remove (fault : Bool)
  | diff (found : Option (String × String × ChangeSet))
  | deliver (attempt : Attempt)
  | create (created stamp : ℕ) (fault : Bool)
  | fill (fault : Bool)
  | rename (fault : Bool)
  | trim
  | crash
  deriving DecidableEq

inductive Action
  | spawn (pid : ℕ)
  | act (p : ℕ) (a : Act)
  deriving DecidableEq

/-- One step of a live hook. -/
def act (w : World) (p : ℕ) (h : Process) (a : Act) : Option World :=
  match h.pc, a with
  | _, .crash => some { w with procs := w.procs.set p { h with alive := false } }
  | .sweeping, .sweep => some { w.goto p h .listing with spool := w.spool.sweep }
  | .listing, .list => some (w.goto p h (.reading w.spool.jobs))
  | .reading [], .read _ => some (w.goto p h .diffing)
  | .reading (path :: rest), .read fault =>
    match fault, w.spool.read path with
    | false, .ok job => some (w.goto p h (.sending path job (w.owner path) rest))
    | _, _ => some (w.goto p h (.removing path rest))
  | .sending path job owner rest, .send attempt =>
    match fireAndForget attempt job.submit with
    | .ok _ =>
      some { w.goto p h (.removing path rest) with sent := w.sent ++ [(owner, job.submit)] }
    | .error _ => some (w.goto p h .diffing)
  | .removing path rest, .remove fault =>
    -- a file that cannot be removed is left, and nobody is told
    if fault then some (w.goto p h (.reading rest))
    else some { w.goto p h (.reading rest) with spool := w.spool.remove path }
  | .diffing, .diff none => some (w.goto p h .finished)
  | .diffing, .diff (some (project, event, changeset)) =>
    some (w.goto p h (.delivering project event changeset))
  | .delivering project event changeset, .deliver attempt =>
    match fireAndForget attempt (submit project changeset) with
    | .ok _ =>
      some { w.goto p h .submitted with sent := w.sent ++ [(p, submit project changeset)] }
    | .error _ => some (w.goto p h (.spooling project event changeset))
  | .spooling project event changeset, .create created stamp fault =>
    let env : PushEnv := ⟨created, stamp, h.pid, none⟩
    if fault then some (w.goto p h (.dropped .refused))
    -- the clock is read as a `u128`
    else if stamp < 2 ^ 128 then
      some { w.goto p h (.filling env (SpooledJob.new project event created changeset)) with
        spool := w.spool.write env.tmp .unparsable }
    else none
  | .filling env job, .fill fault =>
    if fault then some (w.goto p h (.dropped .refused))
    -- a file that was unlinked meanwhile is filled all the same, without a name
    else if w.spool.files[env.tmp]? = none then some (w.goto p h (.committing env job))
    else some { w.goto p h (.committing env job) with spool := w.spool.write env.tmp (.job job) }
  | .committing env job, .rename fault =>
    if fault then some (w.goto p h (.dropped .refused))
    else match w.spool.rename env.tmp env.final with
      | none => some (w.goto p h (.dropped .missing))
      | some spool =>
        some { w.goto p h (.trimming job) with
          spool := spool
          owner := Function.update w.owner env.final p }
  | .trimming job, .trim =>
    some { w.goto p h (.spooled job) with
      spool := w.spool.enforceCap
      trimmed := w.trimmed ++ w.spool.excess.map fun name => (w.owner name, w.larger name) }
  | _, _ => none

/-- What each step does. No two live processes have one id, and a crashed one does nothing. -/
def step (w : World) : Action → Option World
  | .spawn pid =>
    if w.procs.all fun h => !h.alive || h.pid ≠ pid then
      some { w with procs := w.procs ++ [⟨pid, true, .sweeping⟩] }
    else none
  | .act p a => (w.live? p).bind fun h => act w p h a

/-- Hooks come and go around a spool that starts out empty. -/
def system : Lts World Action where
  init w := w.procs = [] ∧ w.spool.files = ∅ ∧ w.sent = [] ∧ w.trimmed = []
  step := step

/-! ### The promise -/

/-- The changeset is a whole job in the spool, or was written to the socket, or was dropped
by the cap for at least `MAX_JOBS` jobs with larger names. -/
def Safe (w : World) (p : ℕ) (r : Submit) : Prop :=
  (∃ name job, name ∈ w.spool.jobs ∧ w.owner name = p ∧ w.spool.read name = .ok job ∧
      job.submit = r) ∨
    (p, r) ∈ w.sent ∨ ∃ n, MAX_JOBS ≤ n ∧ (p, n) ∈ w.trimmed

structure Kept (w : World) : Prop where
  /-- A changeset that failed at the socket and was not reported as dropped is safe, unless
  its hook is still at the push. -/
  safe : ∀ (p : ℕ) (h : Process) (r : Submit), w.procs[p]? = some h → h.pc.failed? = some r →
    ¬ (h.alive = true ∧ h.pc.pushing = true) → Safe w p r
  /-- No job file is ever partial. -/
  whole : ∀ name, hasExtension name "json" = true → w.spool.files[name]? ≠ some .unparsable
  /-- No changeset is dropped because the file in progress was gone. -/
  present : ∀ (p : ℕ) (h : Process), w.procs[p]? = some h → h.pc ≠ .dropped .missing

/-- No sweep meets a `.tmp` in progress, no hook crashes between the failed socket write and
the rename, no read of a job that is there fails, and no job is renamed to a name that is
taken, in the spool or by a replay that is yet to remove it. -/
def Act.undisturbed (w : World) (h : Process) : Act → Bool
  | .sweep => w.procs.all fun k => !k.alive || k.pc.env? = none
  | .crash => !h.pc.pushing
  | .read fault => match h.pc with
    | .reading (path :: _) => !fault || w.spool.files[path]? = none
    | _ => true
  | .rename _ => match h.pc.env? with
    | some env => w.spool.files[env.final]? = none &&
        w.procs.all fun k => !k.alive || k.pc.held? ≠ some env.final
    | none => true
  | _ => true

def undisturbed (w : World) : Action → Bool
  | .spawn _ => true
  | .act p a => w.procs[p]?.all fun h => a.undisturbed w h

/-! ### What a step can do -/

/-- The steps of a process `h`, by what they change. -/
inductive Effect (w : World) (p : ℕ) (h : Process) : Act → World → Prop
  | sweep : h.pc = .sweeping →
      Effect w p h .sweep { w.goto p h .listing with spool := w.spool.sweep }
  | list : h.pc = .listing → Effect w p h .list (w.goto p h (.reading w.spool.jobs))
  | read {fault path job rest} : h.pc = .reading (path :: rest) → w.spool.read path = .ok job →
      Effect w p h (.read fault) (w.goto p h (.sending path job (w.owner path) rest))
  | discard {fault path rest} : h.pc = .reading (path :: rest) →
      (fault = true ∨ ∀ job, w.spool.read path ≠ .ok job) →
      Effect w p h (.read fault) (w.goto p h (.removing path rest))
  | send {attempt path job owner rest} : h.pc = .sending path job owner rest →
      Effect w p h (.send attempt)
        { w.goto p h (.removing path rest) with sent := w.sent ++ [(owner, job.submit)] }
  | keep {fault path rest} : h.pc = .removing path rest →
      Effect w p h (.remove fault) (w.goto p h (.reading rest))
  | remove {fault path rest} : h.pc = .removing path rest →
      Effect w p h (.remove fault)
        { w.goto p h (.reading rest) with spool := w.spool.remove path }
  | pass {a pc} : h.pc.spooled? = none → pc = .diffing ∨ pc = .finished ∨ pc = .dropped .refused ∨
      (∃ project event changeset, pc = .delivering project event changeset) ∨
      (∃ project event changeset, pc = .spooling project event changeset) →
      Effect w p h a (w.goto p h pc)
  | submit {attempt project event changeset} : h.pc = .delivering project event changeset →
      Effect w p h (.deliver attempt)
        { w.goto p h .submitted with sent := w.sent ++ [(p, Hook.submit project changeset)] }
  | create {created stamp fault project event changeset} :
      h.pc = .spooling project event changeset → stamp < 2 ^ 128 →
      Effect w p h (.create created stamp fault)
        { w.goto p h (.filling ⟨created, stamp, h.pid, none⟩
            (SpooledJob.new project event created changeset)) with
          spool := w.spool.write (PushEnv.tmp ⟨created, stamp, h.pid, none⟩) .unparsable }
  | fillGone {fault env job} : h.pc = .filling env job → w.spool.files[env.tmp]? = none →
      Effect w p h (.fill fault) (w.goto p h (.committing env job))
  | fill {fault env job} : h.pc = .filling env job →
      Effect w p h (.fill fault)
        { w.goto p h (.committing env job) with spool := w.spool.write env.tmp (.job job) }
  | renameGone {fault env job} : h.pc = .committing env job → w.spool.files[env.tmp]? = none →
      Effect w p h (.rename fault) (w.goto p h (.dropped .missing))
  | rename {fault env job contents} : h.pc = .committing env job →
      w.spool.files[env.tmp]? = some contents →
      Effect w p h (.rename fault)
        { w.goto p h (.trimming job) with
          spool := (w.spool.remove env.tmp).write env.final contents
          owner := Function.update w.owner env.final p }
  | trim {job} : h.pc = .trimming job →
      Effect w p h .trim
        { w.goto p h (.spooled job) with
          spool := w.spool.enforceCap
          trimmed := w.trimmed ++ w.spool.excess.map fun name => (w.owner name, w.larger name) }
  | crash : Effect w p h .crash { w with procs := w.procs.set p { h with alive := false } }

theorem effect_of_act {w w' : World} {p : ℕ} {h : Process} {a : Act}
    (hact : act w p h a = some w') : Effect w p h a w' := by
  unfold act at hact
  split at hact
  case h_1 => cases hact; exact .crash
  case h_2 hpc => cases hact; exact .sweep hpc
  case h_3 hpc => cases hact; exact .list hpc
  case h_4 hpc => cases hact; exact .pass (by rw [hpc]; rfl) (Or.inl rfl)
  case h_5 path rest fault hpc =>
    split at hact
    · rename_i job hread
      cases hact
      exact .read hpc hread
    · rename_i f f' answer hnot
      cases hact
      refine .discard hpc ?_
      cases f with
      | true => exact Or.inl rfl
      | false => exact Or.inr fun job hread => hnot job rfl hread
  case h_6 path job owner rest attempt hpc =>
    split at hact
    · cases hact
      exact .send hpc
    · cases hact
      exact .pass (by rw [hpc]; rfl) (Or.inl rfl)
  case h_7 path rest fault hpc =>
    split at hact
    · cases hact
      exact .keep hpc
    · cases hact
      exact .remove hpc
  case h_8 hpc => cases hact; exact .pass (by rw [hpc]; rfl) (Or.inr (Or.inl rfl))
  case h_9 project event changeset hpc =>
    cases hact
    exact .pass (by rw [hpc]; rfl) (Or.inr (Or.inr (Or.inr (Or.inl ⟨_, _, _, rfl⟩))))
  case h_10 project event changeset attempt hpc =>
    split at hact
    · cases hact
      exact .submit hpc
    · cases hact
      exact .pass (by rw [hpc]; rfl) (Or.inr (Or.inr (Or.inr (Or.inr ⟨_, _, _, rfl⟩))))
  case h_11 project event changeset created stamp fault hpc =>
    dsimp only at hact
    split at hact
    · cases hact
      exact .pass (by rw [hpc]; rfl) (Or.inr (Or.inr (Or.inl rfl)))
    · split at hact
      · rename_i hclock
        cases hact
        exact .create hpc hclock
      · cases hact
  case h_12 env job fault hpc =>
    split at hact
    · cases hact
      exact .pass (by rw [hpc]; rfl) (Or.inr (Or.inr (Or.inl rfl)))
    · split at hact
      · rename_i hgone
        cases hact
        exact .fillGone hpc hgone
      · cases hact
        exact .fill hpc
  case h_13 env job fault hpc =>
    split at hact
    · cases hact
      exact .pass (by rw [hpc]; rfl) (Or.inr (Or.inr (Or.inl rfl)))
    · split at hact
      · rename_i hnone
        cases hact
        exact .renameGone hpc (Option.map_eq_none_iff.mp hnone)
      · rename_i spool hsome
        cases hact
        obtain ⟨contents, hfile, rfl⟩ := SpoolDir.rename_eq_some hsome
        exact .rename hpc hfile
  case h_14 job hpc => cases hact; exact .trim hpc
  case h_15 => cases hact

theorem live?_eq_some {w : World} {p : ℕ} {h : Process} :
    w.live? p = some h ↔ w.procs[p]? = some h ∧ h.alive = true := Option.filter_eq_some_iff

/-- A step starts a hook, or is one effect of a live one. -/
theorem step_cases {w w' : World} {a : Action} (hstep : step w a = some w') :
    (∃ pid, a = .spawn pid ∧ (∀ h ∈ w.procs, h.alive = true → h.pid ≠ pid) ∧
      w' = { w with procs := w.procs ++ [⟨pid, true, .sweeping⟩] }) ∨
    ∃ p h act, a = .act p act ∧ w.procs[p]? = some h ∧ h.alive = true ∧ Effect w p h act w' := by
  cases a with
  | spawn pid =>
      simp only [step] at hstep
      split at hstep
      · rename_i hfresh
        cases hstep
        refine Or.inl ⟨pid, rfl, fun h hmem halive heq => ?_, rfl⟩
        have := List.all_eq_true.mp hfresh h hmem
        simp [halive, heq] at this
      · cases hstep
  | act p a =>
      obtain ⟨h, hlive, hact⟩ := Option.bind_eq_some_iff.mp hstep
      obtain ⟨hp, halive⟩ := live?_eq_some.mp hlive
      exact Or.inr ⟨p, h, a, rfl, hp, halive, effect_of_act hact⟩

/-! ### The invariant -/

/-- The `.tmp` of a live hook is there, under a name of its own id. -/
def OwnTmp (w : World) (h : Process) (env : PushEnv) (job : SpooledJob) (contents : Contents) : Prop :=
  h.alive = true ∧ env.pid = h.pid ∧ InRange env.stamp ∧ job.format = FORMAT ∧
    w.spool.files[env.tmp]? = some contents

def AllJson (names : List String) : Prop := ∀ name ∈ names, hasExtension name "json" = true

/-- What holds of a process at each place. A file that a live replay is about to remove was
sent, if it is still there. -/
def Good (w : World) (p : ℕ) (h : Process) : Prop :=
  match h.pc with
  | .reading rest => AllJson rest
  | .sending path job owner rest => AllJson (path :: rest) ∧ (h.alive = true →
      ∀ contents, w.spool.files[path]? = some contents →
        contents = .job job ∧ w.owner path = owner)
  | .removing path rest => AllJson (path :: rest) ∧ (h.alive = true →
      ∀ job, w.spool.files[path]? = some (.job job) → (w.owner path, job.submit) ∈ w.sent)
  | .spooling _ _ _ => h.alive = true
  | .filling env job => OwnTmp w h env job .unparsable
  | .committing env job => OwnTmp w h env job (.job job)
  | .trimming job | .spooled job => Safe w p job.submit
  | .dropped .missing => False
  | _ => True

structure Inv (w : World) : Prop where
  good : ∀ (p : ℕ) (h : Process), w.procs[p]? = some h → Good w p h
  pids : ∀ (p q : ℕ) (h k : Process), w.procs[p]? = some h → w.procs[q]? = some k → h.alive = true →
    k.alive = true → h.pid = k.pid → p = q
  whole : ∀ name contents, hasExtension name "json" = true →
    w.spool.files[name]? = some contents → ∃ job, contents = .job job ∧ job.format = FORMAT

/-- What a step of one process must leave to each other process `h`. -/
structure Leaves (w w' : World) (p : ℕ) (h : Process) : Prop where
  tmp : h.alive = true → ∀ env, h.pc.env? = some env →
    w'.spool.files[env.tmp]? = w.spool.files[env.tmp]?
  held : h.alive = true → ∀ path, h.pc.held? = some path → hasExtension path "json" = true →
    ∀ contents, w'.spool.files[path]? = some contents →
      w.spool.files[path]? = some contents ∧ w'.owner path = w.owner path
  safe : ∀ r, Safe w p r → Safe w' p r
  sent : ∀ e ∈ w.sent, e ∈ w'.sent

theorem Good.mono {w w' : World} {p : ℕ} {h : Process} (hgood : Good w p h)
    (hleaves : Leaves w w' p h) : Good w' p h := by
  obtain ⟨pid, alive, pc⟩ := h
  obtain ⟨htmp, hheld, hsafe, hsent⟩ := hleaves
  cases pc with
  | sending path job owner rest =>
      obtain ⟨hjson, hfile⟩ := hgood
      refine ⟨hjson, fun halive contents hc => ?_⟩
      have hpath := hjson path List.mem_cons_self
      obtain ⟨hold, howner⟩ := hheld halive path rfl hpath contents hc
      rw [howner]
      exact hfile halive contents hold
  | removing path rest =>
      obtain ⟨hjson, hfile⟩ := hgood
      refine ⟨hjson, fun halive job hc => ?_⟩
      have hpath := hjson path List.mem_cons_self
      obtain ⟨hold, howner⟩ := hheld halive path rfl hpath _ hc
      rw [howner]
      exact hsent _ (hfile halive job hold)
  | filling env job =>
      obtain ⟨halive, hpid, hstamp, hformat, hfile⟩ := hgood
      exact ⟨halive, hpid, hstamp, hformat, (htmp halive env rfl).trans hfile⟩
  | committing env job =>
      obtain ⟨halive, hpid, hstamp, hformat, hfile⟩ := hgood
      exact ⟨halive, hpid, hstamp, hformat, (htmp halive env rfl).trans hfile⟩
  | trimming job => exact hsafe _ hgood
  | spooled job => exact hsafe _ hgood
  | dropped cause => cases cause <;> exact hgood
  | _ => exact hgood

/-- The job files and their owners are as before. -/
def SameJobs (w w' : World) : Prop := ∀ name, hasExtension name "json" = true →
  w'.spool.files[name]? = w.spool.files[name]? ∧ w'.owner name = w.owner name

/-- A job that is still there is safe. -/
theorem safe_of_same {w w' : World} {p : ℕ} {r : Submit} {name : String} {job : SpooledJob}
    (hmem : name ∈ w.spool.jobs) (hread : w.spool.read name = .ok job) (hr : job.submit = r)
    (hsame : w'.spool.files[name]? = w.spool.files[name]?) (howner : w'.owner name = p) :
    Safe w' p r := by
  obtain ⟨hfile, hjson⟩ := SpoolDir.mem_jobs_iff.mp hmem
  rw [← hsame] at hfile
  exact Or.inl ⟨name, job, SpoolDir.mem_jobs_iff.mpr ⟨hfile, hjson⟩, howner,
    (SpoolDir.read_congr hsame).mpr hread, hr⟩

theorem Safe.mono {w w' : World} {p : ℕ} {r : Submit} (h : Safe w p r) (hjobs : SameJobs w w')
    (hsent : ∀ e ∈ w.sent, e ∈ w'.sent) (htrimmed : w'.trimmed = w.trimmed) : Safe w' p r := by
  rcases h with ⟨name, job, hmem, howner, hread, hr⟩ | hwritten | hcap
  · obtain ⟨hsame, howner'⟩ := hjobs name (SpoolDir.mem_jobs.mp hmem).2
    exact safe_of_same hmem hread hr hsame (howner'.trans howner)
  · exact Or.inr (Or.inl (hsent _ hwritten))
  · exact Or.inr (Or.inr (htrimmed ▸ hcap))

/-- A step that touches no job leaves every process but those whose `.tmp` it meets. -/
theorem leaves_of_sameJobs {w w' : World} {p : ℕ} {h : Process} (hjobs : SameJobs w w')
    (hsent : ∀ e ∈ w.sent, e ∈ w'.sent) (htrimmed : w'.trimmed = w.trimmed)
    (htmp : h.alive = true → ∀ env, h.pc.env? = some env →
      w'.spool.files[env.tmp]? = w.spool.files[env.tmp]?) : Leaves w w' p h where
  tmp := htmp
  held _ path _ hjson contents hc := by
    obtain ⟨hsame, howner⟩ := hjobs path hjson
    exact ⟨hsame ▸ hc, howner⟩
  safe _ hsafe := hsafe.mono hjobs hsent htrimmed
  sent := hsent

/-- One process moved: it stands well, it left the others what they need, and every job is
still whole. -/
theorem inv_move {w w' : World} {p : ℕ} {h : Process} (h' : Process) (hinv : Inv w)
    (hp : w.procs[p]? = some h) (hprocs : w'.procs = w.procs.set p h') (hpid : h'.pid = h.pid)
    (halive : h.alive = true) (hgood : Good w' p h')
    (hleaves : ∀ q k, q ≠ p → w.procs[q]? = some k → Leaves w w' q k)
    (hwhole : ∀ name contents, hasExtension name "json" = true →
      w'.spool.files[name]? = some contents → ∃ job, contents = .job job ∧ job.format = FORMAT) :
    Inv w' where
  good q k hq := by
    rw [hprocs] at hq
    rcases List.getElem?_set_cases (List.lt_of_getElem?_eq_some hp) hq with
      ⟨rfl, rfl⟩ | ⟨hne, hq⟩
    · exact hgood
    · exact (hinv.good q k hq).mono (hleaves q k hne hq)
  pids q r k l hq hr hk hl heq := by
    have hlt := List.lt_of_getElem?_eq_some hp
    rw [hprocs] at hq hr
    rcases List.getElem?_set_cases hlt hq with ⟨hqp, rfl⟩ | ⟨_, hq'⟩ <;>
      rcases List.getElem?_set_cases hlt hr with ⟨hrp, rfl⟩ | ⟨_, hr'⟩
    · rw [hqp, hrp]
    · rw [hqp]
      exact hinv.pids p r h l hp hr' halive hl (hpid ▸ heq)
    · rw [hrp]
      exact hinv.pids q p k h hq' hp hk halive (hpid ▸ heq)
    · exact hinv.pids q r k l hq' hr' hk hl heq
  whole := hwhole

theorem sameJobs_refl {w w' : World} (hspool : w'.spool = w.spool) (howner : w'.owner = w.owner) :
    SameJobs w w' := by
  intro name _
  rw [hspool, howner]
  exact ⟨rfl, rfl⟩

/-- A move that leaves the spool alone. -/
theorem inv_quiet {w w' : World} {p : ℕ} {h : Process} (h' : Process) (hinv : Inv w)
    (hp : w.procs[p]? = some h) (hprocs : w'.procs = w.procs.set p h') (hpid : h'.pid = h.pid)
    (halive : h.alive = true) (hgood : Good w' p h') (hspool : w'.spool = w.spool)
    (howner : w'.owner = w.owner) (hsent : ∀ e ∈ w.sent, e ∈ w'.sent)
    (htrimmed : w'.trimmed = w.trimmed) : Inv w' := by
  apply inv_move h' hinv hp hprocs hpid halive hgood
  · intro q k _ _
    apply leaves_of_sameJobs (sameJobs_refl hspool howner) hsent htrimmed
    intro _ env _
    rw [hspool]
  · rw [hspool]
    exact hinv.whole

/-! ### Each step keeps it -/

section Step

variable {w w' : World} {p : ℕ} {h : Process}

theorem inv_spawn {pid : ℕ} (hinv : Inv w)
    (hfresh : ∀ h ∈ w.procs, h.alive = true → h.pid ≠ pid) :
    Inv { w with procs := w.procs ++ [⟨pid, true, .sweeping⟩] } where
  good q k hq := by
    rcases List.getElem?_concat_cases hq with ⟨_, rfl⟩ | hq
    · trivial
    · apply (hinv.good q k hq).mono
      exact leaves_of_sameJobs (sameJobs_refl rfl rfl) (fun _ he => he) rfl fun _ _ _ => rfl
  pids q r k l hq hr hk hl heq := by
    rcases List.getElem?_concat_cases hq with ⟨hqn, rfl⟩ | hq <;>
      rcases List.getElem?_concat_cases hr with ⟨hrn, rfl⟩ | hr
    · rw [hqn, hrn]
    · exact absurd heq.symm (hfresh l (List.mem_of_getElem? hr) hl)
    · exact absurd heq (hfresh k (List.mem_of_getElem? hq) hk)
    · exact hinv.pids _ _ _ _ hq hr hk hl heq
  whole := hinv.whole

/-- A read that fails found no file. -/
theorem files_eq_none_of_discard {path : String} (hinv : Inv w)
    (hjson : hasExtension path "json" = true)
    (hread : ∀ job, w.spool.read path ≠ .ok job) : w.spool.files[path]? = none := by
  rw [Option.eq_none_iff_forall_ne_some]
  intro contents hfile
  obtain ⟨job, rfl, hformat⟩ := hinv.whole path contents hjson hfile
  exact hread job (SpoolDir.read_eq_ok.mpr ⟨hfile, hformat⟩)

theorem sameJobs_write_tmp (w : World) (env : PushEnv) (contents : Contents) (w' : World)
    (hspool : w'.spool = w.spool.write env.tmp contents) (howner : w'.owner = w.owner) :
    SameJobs w w' := by
  intro name hjson
  rw [hspool, howner, SpoolDir.files_write, if_neg (PushEnv.tmp_ne hjson)]
  exact ⟨rfl, rfl⟩

/-- Two live hooks write under different names. -/
theorem tmp_ne_of_live {q : ℕ} {k : Process} {env env' : PushEnv} (hinv : Inv w)
    (hp : w.procs[p]? = some h) (hq : w.procs[q]? = some k) (halive : h.alive = true)
    (hlive : k.alive = true) (hne : q ≠ p) (hpid : env.pid = h.pid) (hpid' : env'.pid = k.pid)
    (hstamp : InRange env.stamp) (hstamp' : InRange env'.stamp) : env.tmp ≠ env'.tmp := by
  intro heq
  have hids := pid_eq_of_name_eq hstamp hstamp' heq
  rw [hpid, hpid'] at hids
  exact hne (hinv.pids _ _ _ _ hp hq halive hlive hids).symm

theorem env_of_good {q : ℕ} {k : Process} {env : PushEnv} (hgood : Good w q k)
    (henv : k.pc.env? = some env) : env.pid = k.pid ∧ InRange env.stamp := by
  obtain ⟨pid, alive, pc⟩ := k
  cases pc with
  | filling env' job =>
      cases henv
      exact ⟨hgood.2.1, hgood.2.2.1⟩
  | committing env' job =>
      cases henv
      exact ⟨hgood.2.1, hgood.2.2.1⟩
  | _ => cases henv

/-- Writing its own `.tmp`, a hook leaves the others what they need. -/
theorem leaves_write_tmp {q : ℕ} {k : Process} {env : PushEnv} {contents : Contents} (hinv : Inv w)
    (hp : w.procs[p]? = some h) (halive : h.alive = true) (hpid : env.pid = h.pid)
    (hstamp : InRange env.stamp) (hspool : w'.spool = w.spool.write env.tmp contents)
    (howner : w'.owner = w.owner) (hsent : w'.sent = w.sent) (htrimmed : w'.trimmed = w.trimmed)
    (hne : q ≠ p) (hq : w.procs[q]? = some k) : Leaves w w' q k := by
  apply leaves_of_sameJobs (sameJobs_write_tmp w env contents w' hspool howner)
    (fun e he => hsent ▸ he) htrimmed
  intro hlive env' henv'
  obtain ⟨hpid', hstamp'⟩ := env_of_good (hinv.good q k hq) henv'
  rw [hspool, SpoolDir.files_write,
    if_neg (tmp_ne_of_live hinv hp hq halive hlive hne hpid hpid' hstamp hstamp')]

theorem whole_of_sameJobs (hinv : Inv w) (hjobs : SameJobs w w') :
    ∀ name contents, hasExtension name "json" = true → w'.spool.files[name]? = some contents →
      ∃ job, contents = .job job ∧ job.format = FORMAT := by
  intro name contents hjson hfile
  exact hinv.whole name contents hjson ((hjobs name hjson).1 ▸ hfile)

/-- Only files went. -/
theorem whole_of_gone (hinv : Inv w) (hgone : ∀ name : String, w'.spool.files[name]? = none ∨
    w'.spool.files[name]? = w.spool.files[name]?) :
    ∀ name contents, hasExtension name "json" = true → w'.spool.files[name]? = some contents →
      ∃ job, contents = .job job ∧ job.format = FORMAT := by
  intro name contents hjson hfile
  rcases hgone name with hnone | hsame
  · rw [hfile] at hnone
    cases hnone
  · exact hinv.whole name contents hjson (hsame ▸ hfile)

theorem inv_sweep (hinv : Inv w) (hp : w.procs[p]? = some h) (halive : h.alive = true)
    (hok : Act.sweep.undisturbed w h = true) :
    Inv { w.goto p h .listing with spool := w.spool.sweep } := by
  have hquiet : ∀ k ∈ w.procs, k.alive = true → k.pc.env? = none := by
    intro k hk hlive
    have := List.all_eq_true.mp hok k hk
    simpa [hlive] using this
  have hjobs : SameJobs w { w.goto p h .listing with spool := w.spool.sweep } :=
    fun name hjson => ⟨SpoolDir.files_sweep hjson, rfl⟩
  apply inv_move { h with pc := .listing } hinv hp rfl rfl halive trivial
  · intro q k _ hq
    apply leaves_of_sameJobs hjobs (fun _ he => he) rfl
    intro hlive env henv
    rw [hquiet k (List.mem_of_getElem? hq) hlive] at henv
    cases henv
  · exact whole_of_sameJobs hinv hjobs

theorem inv_discard {fault : Bool} {path : String} {rest : List String} (hinv : Inv w)
    (hp : w.procs[p]? = some h) (halive : h.alive = true) (hpc : h.pc = .reading (path :: rest))
    (hread : fault = true ∨ ∀ job, w.spool.read path ≠ .ok job)
    (hok : (Act.read fault).undisturbed w h = true) : Inv (w.goto p h (.removing path rest)) := by
  have hjson : AllJson (path :: rest) := by
    have hgood := hinv.good p h hp
    rwa [Good, hpc] at hgood
  have hnone : w.spool.files[path]? = none := by
    rcases hread with rfl | hread
    · simpa [Act.undisturbed, hpc] using hok
    · exact files_eq_none_of_discard hinv (hjson path List.mem_cons_self) hread
  refine inv_quiet { h with pc := .removing path rest } hinv hp rfl rfl halive ?_ rfl rfl (fun _ he => he) rfl
  refine ⟨hjson, fun _ job hfile => ?_⟩
  have hfile' : w.spool.files[path]? = some (.job job) := hfile
  rw [hnone] at hfile'
  cases hfile'

theorem inv_send {path : String} {job : SpooledJob} {owner : ℕ} {rest : List String} (hinv : Inv w)
    (hp : w.procs[p]? = some h) (halive : h.alive = true)
    (hpc : h.pc = .sending path job owner rest) :
    Inv { w.goto p h (.removing path rest) with sent := w.sent ++ [(owner, job.submit)] } := by
  have hgood := hinv.good p h hp
  rw [Good, hpc] at hgood
  obtain ⟨hjson, hfile⟩ := hgood
  refine inv_quiet { h with pc := .removing path rest } hinv hp rfl rfl halive ?_ rfl rfl (fun _ => List.mem_append_left _) rfl
  refine ⟨hjson, fun _ found hfound => ?_⟩
  obtain ⟨hsame, howner⟩ := hfile halive _ hfound
  cases hsame
  show (w.owner path, job.submit) ∈ w.sent ++ [(owner, job.submit)]
  rw [howner]
  exact List.mem_append_right _ (List.mem_singleton_self _)

theorem inv_remove {path : String} {rest : List String} (hinv : Inv w)
    (hp : w.procs[p]? = some h) (halive : h.alive = true) (hpc : h.pc = .removing path rest) :
    Inv { w.goto p h (.reading rest) with spool := w.spool.remove path } := by
  have hgood := hinv.good p h hp
  rw [Good, hpc] at hgood
  obtain ⟨hjson, hfile⟩ := hgood
  have hpath := hjson path List.mem_cons_self
  have hgone : ∀ name : String, (w.spool.remove path).files[name]? = none ∨
      (w.spool.remove path).files[name]? = w.spool.files[name]? := by
    intro name
    rw [SpoolDir.files_remove]
    by_cases hname : path = name
    · exact Or.inl (if_pos hname)
    · exact Or.inr (if_neg hname)
  apply inv_move { h with pc := .reading rest } hinv hp rfl rfl halive fun name hmem => hjson name (List.mem_cons_of_mem path hmem)
  · intro q k _ _
    refine ⟨fun _ env _ => ?_, fun _ held _ _ contents hc => ?_, fun r hsafe => ?_, fun _ he => he⟩
    · show (w.spool.remove path).files[env.tmp]? = _
      rw [SpoolDir.files_remove, if_neg (PushEnv.tmp_ne hpath).symm]
    · rcases hgone held with hnone | hsame
      · exact absurd (hnone.symm.trans hc) (by simp)
      · exact ⟨hsame.symm.trans hc, rfl⟩
    · rcases hsafe with ⟨name, job, hmem, howner, hread, hr⟩ | hwritten
      · by_cases hname : path = name
        -- what is removed was sent
        · subst hname
          have hsent := hfile halive job (SpoolDir.read_eq_ok.mp hread).1
          rw [howner, hr] at hsent
          exact Or.inr (Or.inl hsent)
        · have hsame : (w.spool.remove path).files[name]? = w.spool.files[name]? := by
            rw [SpoolDir.files_remove, if_neg hname]
          exact safe_of_same hmem hread hr hsame howner
      · exact Or.inr hwritten
  · exact whole_of_gone hinv hgone

theorem inv_writeTmp {env : PushEnv} {contents : Contents} {pc : Pc} (hinv : Inv w)
    (hp : w.procs[p]? = some h) (halive : h.alive = true) (hpid : env.pid = h.pid)
    (hstamp : InRange env.stamp)
    (hgood : Good { w.goto p h pc with spool := w.spool.write env.tmp contents } p { h with pc := pc }) :
    Inv { w.goto p h pc with spool := w.spool.write env.tmp contents } := by
  apply inv_move { h with pc := pc } hinv hp rfl rfl halive hgood
  · intro q k hne hq
    exact leaves_write_tmp hinv hp halive hpid hstamp rfl rfl rfl rfl hne hq
  · exact whole_of_sameJobs hinv (sameJobs_write_tmp w env contents _ rfl rfl)

/-- The `u128` clock fits the 39 digits. -/
theorem inRange_of_lt {stamp : ℕ} (h : stamp < 2 ^ 128) : InRange stamp :=
  h.trans (by norm_num)

theorem inv_create {created stamp : ℕ} {project event : String} {changeset : ChangeSet}
    (hinv : Inv w) (hp : w.procs[p]? = some h) (halive : h.alive = true)
    (hclock : stamp < 2 ^ 128) :
    Inv { w.goto p h (.filling ⟨created, stamp, h.pid, none⟩
        (SpooledJob.new project event created changeset)) with
      spool := w.spool.write (PushEnv.tmp ⟨created, stamp, h.pid, none⟩) .unparsable } := by
  have hstamp := inRange_of_lt hclock
  apply inv_writeTmp hinv hp halive rfl hstamp
  refine ⟨halive, rfl, hstamp, rfl, ?_⟩
  show (w.spool.write _ _).files[_]? = _
  rw [SpoolDir.files_write, if_pos rfl]

theorem inv_fill {env : PushEnv} {job : SpooledJob} (hinv : Inv w) (hp : w.procs[p]? = some h)
    (halive : h.alive = true) (hpc : h.pc = .filling env job) :
    Inv { w.goto p h (.committing env job) with spool := w.spool.write env.tmp (.job job) } := by
  have hgood := hinv.good p h hp
  rw [Good, hpc] at hgood
  obtain ⟨_, hpid, hstamp, hformat, _⟩ := hgood
  apply inv_writeTmp hinv hp halive hpid hstamp
  refine ⟨halive, hpid, hstamp, hformat, ?_⟩
  show (w.spool.write _ _).files[_]? = _
  rw [SpoolDir.files_write, if_pos rfl]

theorem inv_rename {fault : Bool} {env : PushEnv} {job : SpooledJob} (hinv : Inv w)
    (hp : w.procs[p]? = some h) (halive : h.alive = true) (hpc : h.pc = .committing env job)
    (hok : (Act.rename fault).undisturbed w h = true) :
    Inv { w.goto p h (.trimming job) with
      spool := (w.spool.remove env.tmp).write env.final (.job job)
      owner := Function.update w.owner env.final p } := by
  have hgood := hinv.good p h hp
  rw [Good, hpc] at hgood
  obtain ⟨_, hpid, hstamp, hformat, _⟩ := hgood
  simp only [Act.undisturbed, hpc, Pc.env?, Bool.and_eq_true, decide_eq_true_eq,
    List.all_eq_true] at hok
  obtain ⟨hfree, hheld⟩ := hok
  have hfinal := env.final_json
  have hfiles : ∀ name : String, ((w.spool.remove env.tmp).write env.final (.job job)).files[name]?
      = if env.final = name then some (.job job) else if env.tmp = name then none
        else w.spool.files[name]? := by
    intro name
    rw [SpoolDir.files_write, SpoolDir.files_remove]
  -- every other job is as before
  have hold : ∀ name, hasExtension name "json" = true → env.final ≠ name →
      ((w.spool.remove env.tmp).write env.final (.job job)).files[name]? = w.spool.files[name]? ∧
        Function.update w.owner env.final p name = w.owner name := by
    intro name hjson hne
    rw [hfiles, if_neg hne, if_neg (PushEnv.tmp_ne hjson), Function.update_of_ne hne.symm]
    exact ⟨rfl, rfl⟩
  apply inv_move { h with pc := .trimming job } hinv hp rfl rfl halive
  · refine Or.inl ⟨env.final, job, ?_, Function.update_self _ _ _, ?_, rfl⟩
    · refine SpoolDir.mem_jobs_iff.mpr ⟨⟨.job job, ?_⟩, hfinal⟩
      rw [hfiles, if_pos rfl]
    · refine SpoolDir.read_eq_ok.mpr ⟨?_, hformat⟩
      rw [hfiles, if_pos rfl]
  · intro q k hne hq
    refine ⟨fun hlive env' henv' => ?_, fun hlive path hpath hjson contents hc => ?_,
      fun r hsafe => ?_, fun _ he => he⟩
    · obtain ⟨hpid', hstamp'⟩ := env_of_good (hinv.good q k hq) henv'
      have htmp := tmp_ne_of_live hinv hp hq halive hlive hne hpid hpid' hstamp hstamp'
      have hnot : env.final ≠ env'.tmp := (PushEnv.tmp_ne hfinal).symm
      rw [hfiles, if_neg hnot, if_neg htmp]
    · have hne' : env.final ≠ path := by
        intro heq
        have := hheld k (List.mem_of_getElem? hq)
        simp [hlive, hpath, heq] at this
      obtain ⟨hsame, howner⟩ := hold path hjson hne'
      exact ⟨hsame.symm.trans hc, howner⟩
    · rcases hsafe with ⟨name, found, hmem, howner, hread, hr⟩ | hother
      · have hne' : env.final ≠ name := by
          rintro rfl
          have hthere := (SpoolDir.read_eq_ok.mp hread).1
          rw [hfree] at hthere
          cases hthere
        obtain ⟨hsame, howner'⟩ := hold name (SpoolDir.mem_jobs.mp hmem).2 hne'
        exact safe_of_same hmem hread hr hsame (howner'.trans howner)
      · exact Or.inr hother
  · intro name contents hjson hc
    by_cases hname : env.final = name
    · rw [hfiles, if_pos hname] at hc
      exact ⟨job, (Option.some.inj hc).symm, hformat⟩
    · exact hinv.whole name contents hjson ((hold name hjson hname).1 ▸ hc)

theorem inv_trim {job : SpooledJob} (hinv : Inv w) (hp : w.procs[p]? = some h)
    (halive : h.alive = true) (hpc : h.pc = .trimming job) :
    Inv { w.goto p h (.spooled job) with
      spool := w.spool.enforceCap
      trimmed := w.trimmed ++ w.spool.excess.map fun name => (w.owner name, w.larger name) } := by
  have hgood := hinv.good p h hp
  rw [Good, hpc] at hgood
  have hfiles : ∀ name : String, w.spool.enforceCap.files[name]?
      = if name ∈ w.spool.excess then none else w.spool.files[name]? :=
    SpoolDir.files_removeAll w.spool w.spool.excess
  have hgone : ∀ name : String, w.spool.enforceCap.files[name]? = none ∨
      w.spool.enforceCap.files[name]? = w.spool.files[name]? := by
    intro name
    rw [hfiles]
    by_cases hmem : name ∈ w.spool.excess
    · exact Or.inl (if_pos hmem)
    · exact Or.inr (if_neg hmem)
  have hsafe : ∀ q r, Safe w q r → Safe { w.goto p h (.spooled job) with
      spool := w.spool.enforceCap
      trimmed := w.trimmed ++ w.spool.excess.map fun name => (w.owner name, w.larger name) } q r := by
    intro q r hsafe
    rcases hsafe with ⟨name, found, hmem, howner, hread, hr⟩ | hsent | ⟨n, hn, hcap⟩
    · by_cases hover : name ∈ w.spool.excess
      · refine Or.inr (Or.inr ⟨w.larger name, SpoolDir.le_length_larger hover, ?_⟩)
        exact List.mem_append_right _ (List.mem_map.mpr ⟨name, hover, by rw [howner]⟩)
      · have hsame : w.spool.enforceCap.files[name]? = w.spool.files[name]? := by
          rw [hfiles, if_neg hover]
        exact safe_of_same hmem hread hr hsame howner
    · exact Or.inr (Or.inl hsent)
    · exact Or.inr (Or.inr ⟨n, hn, List.mem_append_left _ hcap⟩)
  apply inv_move { h with pc := .spooled job } hinv hp rfl rfl halive (hsafe p job.submit hgood)
  · intro q k _ _
    refine ⟨fun _ env _ => ?_, fun _ path _ _ contents hc => ?_, hsafe q, fun _ he => he⟩
    · show w.spool.enforceCap.files[env.tmp]? = _
      rw [hfiles, if_neg]
      intro hmem
      have hjob := List.mem_of_mem_take hmem
      exact PushEnv.tmp_ne (SpoolDir.mem_jobs.mp hjob).2 rfl
    · rcases hgone path with hnone | hsame
      · exact absurd (hnone.symm.trans hc) (by simp)
      · exact ⟨hsame.symm.trans hc, rfl⟩
  · exact whole_of_gone hinv hgone

theorem inv_crash (hinv : Inv w) (hp : w.procs[p]? = some h) (halive : h.alive = true)
    (hok : Act.crash.undisturbed w h = true) :
    Inv { w with procs := w.procs.set p { h with alive := false } } := by
  have hgood := hinv.good p h hp
  have hpush : h.pc.pushing = false := by simpa [Act.undisturbed] using hok
  refine inv_quiet { h with alive := false } hinv hp rfl rfl halive ?_ rfl rfl (fun _ he => he) rfl
  obtain ⟨pid, alive, pc⟩ := h
  cases pc with
  | sending path job owner rest => exact ⟨hgood.1, fun hdead => absurd hdead Bool.false_ne_true⟩
  | removing path rest => exact ⟨hgood.1, fun hdead => absurd hdead Bool.false_ne_true⟩
  | spooling project event changeset => cases hpush
  | filling env job => cases hpush
  | committing env job => cases hpush
  | dropped cause => cases cause <;> exact hgood
  | _ => exact hgood

theorem inv_effect {a : Act} (hinv : Inv w) (hp : w.procs[p]? = some h) (halive : h.alive = true)
    (hok : a.undisturbed w h = true) (heffect : Effect w p h a w') : Inv w' := by
  have hgood := hinv.good p h hp
  cases heffect with
  | sweep hpc => exact inv_sweep hinv hp halive hok
  | list hpc =>
      refine inv_quiet { h with pc := _ } hinv hp rfl rfl halive ?_ rfl rfl (fun _ he => he) rfl
      exact fun name hmem => (SpoolDir.mem_jobs.mp hmem).2
  | read hpc hread =>
      rw [Good, hpc] at hgood
      refine inv_quiet { h with pc := _ } hinv hp rfl rfl halive ?_ rfl rfl (fun _ he => he) rfl
      refine ⟨hgood, fun _ contents hfile => ⟨?_, rfl⟩⟩
      exact Option.some.inj (hfile.symm.trans (SpoolDir.read_eq_ok.mp hread).1)
  | discard hpc hread => exact inv_discard hinv hp halive hpc hread hok
  | send hpc => exact inv_send hinv hp halive hpc
  | keep hpc =>
      rw [Good, hpc] at hgood
      refine inv_quiet { h with pc := _ } hinv hp rfl rfl halive ?_ rfl rfl (fun _ he => he) rfl
      exact fun name hmem => hgood.1 name (List.mem_cons_of_mem _ hmem)
  | remove hpc => exact inv_remove hinv hp halive hpc
  | pass hpc hnext =>
      refine inv_quiet { h with pc := _ } hinv hp rfl rfl halive ?_ rfl rfl (fun _ he => he) rfl
      rcases hnext with rfl | rfl | rfl | ⟨_, _, _, rfl⟩ | ⟨_, _, _, rfl⟩
      · trivial
      · trivial
      · trivial
      · trivial
      · exact halive
  | submit hpc =>
      exact inv_quiet { h with pc := .submitted } hinv hp rfl rfl halive trivial rfl rfl (fun _ => List.mem_append_left _) rfl
  | create hpc hclock => exact inv_create hinv hp halive hclock
  | fillGone hpc hnone =>
      rw [Good, hpc] at hgood
      rw [hgood.2.2.2.2] at hnone
      cases hnone
  | fill hpc => exact inv_fill hinv hp halive hpc
  | renameGone hpc hnone =>
      rw [Good, hpc] at hgood
      rw [hgood.2.2.2.2] at hnone
      cases hnone
  | rename hpc hfile =>
      rw [Good, hpc] at hgood
      rw [hgood.2.2.2.2] at hfile
      cases hfile
      exact inv_rename hinv hp halive hpc hok
  | trim hpc => exact inv_trim hinv hp halive hpc
  | crash => exact inv_crash hinv hp halive hok

theorem inv_step {a : Action} (hinv : Inv w) (hok : undisturbed w a = true)
    (hstep : step w a = some w') : Inv w' := by
  rcases step_cases hstep with ⟨pid, _, hfresh, rfl⟩ | ⟨p, h, act, rfl, hp, halive, heffect⟩
  · exact inv_spawn hinv hfresh
  · apply inv_effect hinv hp halive _ heffect
    simpa [undisturbed, hp] using hok

theorem kept_of_inv (hinv : Inv w) : Kept w where
  safe p h r hp hfailed hended := by
    have hgood := hinv.good p h hp
    obtain ⟨pid, alive, pc⟩ := h
    cases pc with
    | spooling project event changeset => exact absurd ⟨hgood, rfl⟩ hended
    | filling env job => exact absurd ⟨hgood.1, rfl⟩ hended
    | committing env job => exact absurd ⟨hgood.1, rfl⟩ hended
    | trimming job =>
        cases hfailed
        exact hgood
    | spooled job =>
        cases hfailed
        exact hgood
    | _ => cases hfailed
  whole name hjson hfile := by
    obtain ⟨job, heq, _⟩ := hinv.whole name _ hjson hfile
    cases heq
  present p h hp hpc := by
    have hgood := hinv.good p h hp
    rwa [Good, hpc] at hgood

end Step

/-- **In every run whose sweeps meet no file in progress, whose hooks do not crash inside a
push, whose reads of jobs that are there succeed and whose job names are free, nothing is
lost silently.** -/
theorem spool_keeps {w : World}
    (h : system.Reach (fun w a => undisturbed w a = true) w) : Kept w := by
  apply kept_of_inv
  apply h.invariant
  · intro w ⟨hprocs, hfiles, _, _⟩
    refine ⟨fun p h hp => ?_, fun p _ h _ hp => ?_, fun name contents _ hfile => ?_⟩
    · simp [hprocs] at hp
    · simp [hprocs] at hp
    · simp [hfiles] at hfile
  · intro w a w' hinv hok hstep
    exact inv_step hinv hok hstep

def empty : World := ⟨[], ⟨"/spool", ∅⟩, fun _ => 0, [], []⟩

/-- A hook spools its changeset; the next one delivers it, and then its own. -/
def sampleRun : List Action :=
  [.spawn 7, .act 0 .sweep, .act 0 .list, .act 0 (.read false),
    .act 0 (.diff (some ("/repo", "post-commit", ⟨["a.rs"], [], []⟩))),
    .act 0 (.deliver (.connect "refused")), .act 0 (.create 1 1000000001 false),
    .act 0 (.fill false), .act 0 (.rename false), .act 0 .trim,
    .spawn 8, .act 1 .sweep, .act 1 .list, .act 1 (.read false), .act 1 (.send .accepted),
    .act 1 (.remove false), .act 1 (.read false),
    .act 1 (.diff (some ("/repo", "post-commit", ⟨[], ["a.rs"], []⟩))),
    .act 1 (.deliver .accepted)]

def sampleWorld : World := (system.runOk undisturbed empty sampleRun).getD empty

theorem reach_sampleWorld : system.Reach (fun w a => undisturbed w a = true) sampleWorld := by
  have hempty : system.Reach (fun w a => undisturbed w a = true) empty :=
    .init ⟨rfl, rfl, rfl, rfl⟩
  have hsome : (system.runOk undisturbed empty sampleRun).isSome = true := by decide +kernel
  obtain ⟨w, hw⟩ := Option.isSome_iff_exists.mp hsome
  rw [sampleWorld, hw]
  exact hempty.runOk (fun _ _ h => h) hw

theorem spool_keeps_sample : Kept sampleWorld := spool_keeps reach_sampleWorld

/-- The sweep of a second hook falls between the write and the rename of the first. -/
def sweptRun : List Action :=
  [.spawn 7, .act 0 .sweep, .act 0 .list, .act 0 (.read false),
    .act 0 (.diff (some ("/repo", "post-commit", ⟨["a.rs"], [], []⟩))),
    .act 0 (.deliver (.connect "refused")), .act 0 (.create 1 1000000001 false),
    .act 0 (.fill false), .spawn 8, .act 1 .sweep, .act 0 (.rename false)]

/-- The first hook reports its changeset as dropped. -/
theorem spool_drops : ¬ ∀ w, system.Reach Lts.anyStep w → Kept w := by
  intro hall
  have hempty : system.Reach Lts.anyStep empty := .init ⟨rfl, rfl, rfl, rfl⟩
  have hrun : ((system.run empty sweptRun).map fun w => w.procs[0]?)
      = some (some ⟨7, true, .dropped .missing⟩) := by decide +kernel
  obtain ⟨w, hw, hp⟩ := Option.map_eq_some_iff.mp hrun
  have hreach := hempty.run (fun _ _ _ => trivial) hw
  exact (hall w hreach).present 0 _ hp rfl

end Filigrio.Hook.Race
