import Filigrio.Daemon.Queue
import Filigrio.Lib.Lts

/-!
# Filigrio.Daemon.Loop

The run loop and its worker pool: `ApplyScheduler::dispatch` and `join_next`, and
`run_inner` over them. Producer items move from the three-lane queue into `deferred`,
from there into the pool, and a deferred clustering is owed until the project is quiet.
The steps may come in any order, which covers the loop's own.

`scheduling_lossless` is what the queue, the deferred list and the pool keep between
them in every run.
-/

namespace Filigrio.Daemon

/-- How far a job in flight has come. -/
inductive Progress
  | running
  /-- The apply is through: did it record a state, and how many files did it change? -/
  | applied (recorded : Bool) (changed : ℕ)
  /-- The recluster is through. -/
  | reclustered
  deriving DecidableEq, Repr

structure Task where
  job : ApplyJob
  progress : Progress
  deriving DecidableEq, Repr

/-- The bounded, one-per-project dispatcher. The log is for the record: every job it
ever ran. -/
structure ApplyScheduler where
  permits : ℕ
  inflight : Finset String
  tasks : List Task
  log : List ApplyJob

namespace ApplyScheduler

def new (permits : ℕ) : ApplyScheduler := ⟨max permits 1, ∅, [], []⟩

def isRunning (s : ApplyScheduler) (project : String) : Bool := project ∈ s.inflight

/-- Start one job. -/
def spawn (s : ApplyScheduler) (job : ApplyJob) : ApplyScheduler :=
  { s with
    inflight := insert job.project.id s.inflight
    tasks := s.tasks ++ [⟨job, .running⟩]
    log := s.log ++ [job] }

/-- Dispatch as many jobs as the pool bound and the one-per-project rule allow; return
the rest. -/
def dispatch : ApplyScheduler → List ApplyJob → ApplyScheduler × List ApplyJob
  | s, [] => (s, [])
  | s, job :: jobs =>
    if s.inflight.card ≥ s.permits ∨ job.project.id ∈ s.inflight then
      let (s, deferred) := dispatch s jobs
      (s, job :: deferred)
    else dispatch (s.spawn job) jobs

/-- `join_next`: the `i`-th task is through. -/
def join (s : ApplyScheduler) (i : ℕ) (t : Task) : ApplyScheduler :=
  { s with inflight := s.inflight.erase t.job.project.id, tasks := s.tasks.eraseIdx i }

end ApplyScheduler

/-! ### The loop -/

/-- Where the run loop stands: serving, draining the pool, running the owed reclusters,
or past them. -/
inductive LoopPhase
  | serving
  | draining
  | reclustering
  | stopped
  deriving DecidableEq, Repr

/-- The state of the run loop. The last three fields are for the record: the
submissions, the items skipped with the registry that did not know them, the jobs in
the order they were collected. -/
structure Loop where
  registry : ProjectRegistry
  queue : PriorityQueue
  deferred : List ApplyJob
  scheduler : ApplyScheduler
  owes : Finset String
  phase : LoopPhase
  submitted : List QueueItem
  skipped : List (QueueItem × ProjectRegistry)
  collected : List ApplyJob

namespace Loop

def start (registry : ProjectRegistry) (permits : ℕ) : Loop where
  registry := registry
  queue := .empty
  deferred := []
  scheduler := .new permits
  owes := ∅
  phase := .serving
  submitted := []
  skipped := []
  collected := []

/-- The projects that owe a recluster and are quiet: nothing queued, deferred or running
for them. -/
def quiet (w : Loop) : Finset String :=
  w.owes.filter fun id => !w.queue.hasProject id && !w.scheduler.isRunning id &&
    !w.deferred.any fun job => job.project.id = id

/-- The recluster jobs of the listed projects. -/
def reclusterJobs (w : Loop) (order : List String) : List ApplyJob :=
  order.filterMap fun id => makeJob w.registry id .recluster .defer

/-- The steps of the loop, of the commands that change the registry, and of the jobs. -/
inductive Action
  | register (root : Path)
  | remove (id : String)
  | setWatch (id : String) (watch : Bool)
  /-- `route_watcher_events`, one item. -/
  | submit (project : String) (produced : Produced) (lane : Priority)
  /-- `collect_apply_jobs`. -/
  | collect
  /-- Dispatch the backlog. -/
  | dispatch
  /-- Dispatch the owed reclusters of the quiet projects, in the set's order. -/
  | recluster (order : List String)
  /-- The critical section of the `i`-th task. -/
  | work (i : ℕ) (progress : Progress)
  /-- The `i`-th task ends: with its result, or with an error or a panic. -/
  | complete (i : ℕ) (ok : Bool)
  /-- Leave the loop. -/
  | stop
  | drained
  /-- One owed recluster of the shutdown. -/
  | owed (id : String)
  | finish
  deriving DecidableEq, Repr

/-- Which critical section an op has. -/
def admits : Op → Progress → Bool
  | .recluster, .reclustered => true
  -- a gated or detected change that is applied names a file; an exact one is as it is
  | .applyExact changes, .applied recorded changed => recorded && changed = changes.touched.length
  | .apply _, .applied recorded changed | .reconcile _, .applied recorded changed =>
    recorded = decide (0 < changed)
  | _, _ => false

def step (w : Loop) : Action → Option Loop
  | .register root => (w.registry.add (.new root)).map fun r => { w with registry := r }
  | .remove id => (w.registry.remove id).map fun r => { w with registry := r }
  | .setWatch id b => (w.registry.setWatch id b).map fun r => { w with registry := r }
  | .submit project produced lane =>
    if w.phase = .serving then
      let item := ⟨project, opOf produced, lane, w.submitted.length⟩
      some { w with queue := w.queue.submit item, submitted := w.submitted ++ [item] }
    else none
  | .collect =>
    if w.phase = .serving then
      let (items, queue) := w.queue.popAll w.queue.len
      let jobs := items.filterMap (jobOf w.registry)
      let skipped := items.filter fun item => (jobOf w.registry item).isNone
      some { w with
        queue := queue
        deferred := w.deferred ++ jobs
        skipped := w.skipped ++ skipped.map fun item => (item, w.registry)
        collected := w.collected ++ jobs }
    else none
  | .dispatch =>
    if w.phase = .serving then
      let (scheduler, deferred) := w.scheduler.dispatch w.deferred
      some { w with scheduler := scheduler, deferred := deferred }
    else none
  | .recluster order =>
    if w.phase = .serving ∧ order.Nodup ∧ order.toFinset = w.quiet then
      let jobs := w.reclusterJobs order
      let (scheduler, deferred) := w.scheduler.dispatch jobs
      some { w with
        owes := w.owes \ w.quiet
        scheduler := scheduler
        deferred := w.deferred ++ deferred }
    else none
  | .work i progress =>
    match w.scheduler.tasks[i]? with
    | some ⟨job, .running⟩ =>
      if admits job.op progress then
        some { w with scheduler := { w.scheduler with
          tasks := w.scheduler.tasks.set i ⟨job, progress⟩ } }
      else none
    | _ => none
  | .complete i ok =>
    if w.phase = .serving ∨ w.phase = .draining then
      match w.scheduler.tasks[i]? with
      | some t =>
        let w := { w with scheduler := w.scheduler.join i t }
        if ok then
          match t.progress with
          | .running => none
          | .applied _ changed =>
            if t.job.owesRecluster changed then
              some { w with owes := insert t.job.project.id w.owes }
            else some w
          | .reclustered => some w
        else some w
      | none => none
    else none
  | .stop => if w.phase = .serving then some { w with phase := .draining } else none
  | .drained =>
    if w.phase = .draining ∧ w.scheduler.tasks = [] then some { w with phase := .reclustering }
    else none
  | .owed id =>
    if w.phase = .reclustering ∧ id ∈ w.owes then some { w with owes := w.owes.erase id } else none
  | .finish =>
    if w.phase = .reclustering ∧ w.owes = ∅ then some { w with phase := .stopped } else none

end Loop

/-- A daemon's loop, from its start over any registry. -/
def loopSystem : Lts Loop Loop.Action where
  init w := ∃ registry permits, registry.WellKeyed ∧ w = .start registry permits
  step := Loop.step

end Filigrio.Daemon
