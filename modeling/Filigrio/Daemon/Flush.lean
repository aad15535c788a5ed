import Filigrio.Daemon.Cache
import Filigrio.Daemon.Queue
import Filigrio.Lib.Lts

/-!
# Filigrio.Daemon.Flush

The write-behind flusher under all its callers: applies of both lanes, queries, the
flush and export commands and the cadence. Every access to the cache, the dirty map,
the output-directory map and a checkpoint file is a step of its own, and the steps of
different threads interleave freely; a thread at work under a project's lock keeps the
others that need it out.
-/

namespace Filigrio.Daemon

/-- A state of a project. For the record: the output directory of the root it belongs
to, and its number among all states recorded. -/
structure Version where
  state : GraphState
  owner : Path
  seq : ℕ
  deriving DecidableEq

namespace Flush

/-- What a thread runs. -/
inductive Task
  /-- An apply job or a recluster (`Defer`); on the client lane (`Flush`) with the final
  flush of its command. -/
  | apply (lane : Persistence)
  /-- A query, through the warm state source or not. -/
  | query (warm : Bool)
  /-- `flush_project`, for a command or the shutdown, or else for the cadence. -/
  | flush (command : Bool)
  | export
  deriving DecidableEq, Repr

/-- Somebody is told how the task ends. -/
def Task.command : Task → Bool
  | .apply .flush | .flush true | .export => true
  | _ => false

/-- What follows the write-back of what was paged out: the answer of `state_of`, or the
end of `record_apply`. -/
inductive After
  | served (answer : Option Version)
  | recorded

/-- The next access of a thread, and what it holds for it. -/
inductive Pc
  | acquire
  -- the warm state source's own lookup
  | probe
  | hasCheckpoint
  -- `state_of`
  | remember
  | lookup
  | load
  /-- A checkpoint read; for the record, the latest state recorded at that time. -/
  | install (v : Version) (seen : ℕ)
  -- `flush_evicted`
  | evict (es : List (Evicted Version)) (k : After)
  | findDir (id : String) (v : Version) (es : List (Evicted Version)) (k : After)
  | writeBack (id : String) (dir : Path) (v : Version) (es : List (Evicted Version)) (k : After)
  -- the pipeline, over its prior
  | mutate (prior : Version)
  -- `record_apply`
  | rememberFresh (fresh : GraphState)
  | write (fresh : GraphState)
  | reload (v : Version)
  | unmark (es : List (Evicted Version))
  | put (fresh : GraphState)
  | mark (v : Version) (es : List (Evicted Version))
  -- `flush_project`, `flush_locked`
  | check
  | acquireFlush
  | checkLocked
  | dirOf
  | peek (dir : Path)
  | forget
  | flushWrite (dir : Path) (v : Version)
  | markClean
  | unmarkFlushed
  -- the export
  | snapshot
  | served (v : Version)
  | done (ok : Bool)

namespace Pc

/-- The thread has ended. -/
def ended : Pc → Bool
  | served _ | done _ => true
  | _ => false

/-- The task has succeeded. -/
def succeeded : Pc → Bool
  | done ok => ok
  | _ => false

/-- The state a thread has got from `state_of`, to serve it or to apply onto it. -/
def answer : Pc → Option Version
  | mutate v | served v => some v
  | _ => none

end Pc

/-- A thread, for the project of an id and an output directory; for the record, the
latest state that was recorded when its flush was decided. -/
structure Thread where
  id : String
  dir : Path
  task : Task
  pc : Pc
  seen : ℕ

namespace Thread

def goto (t : Thread) (pc : Pc) : Thread := { t with pc := pc }

/-- Does the thread hold its project's lock? Queries run without. -/
def locks (t : Thread) : Bool :=
  match t.pc with
  | .acquire | .probe | .hasCheckpoint | .check | .acquireFlush | .served _ | .done _ => false
  | .remember | .lookup | .load | .install _ _ | .evict _ _ | .findDir _ _ _ _
  | .writeBack _ _ _ _ _ =>
    match t.task with
    | .query _ => false
    | _ => true
  | _ => true

/-- Where a task begins. -/
def start (id : String) (dir : Path) (task : Task) : Thread where
  id := id
  dir := dir
  task := task
  pc := match task with
    | .apply _ | .export => .acquire
    | .query true => .probe
    | .query false => .remember
    | .flush _ => .check
  seen := 0

/-- What a thread does after `flush_evicted`. -/
def resume (t : Thread) : After → Pc
  | .served (some v) =>
    match t.task with
    | .query _ => .served v
    | _ => .mutate v
  | .served none => .done false
  | .recorded =>
    match t.task with
    | .apply .flush => .check
    | .apply .defer => .done true
    -- nothing else records
    | _ => .done false

/-- What a thread does after `flush_locked`. -/
def flushed (t : Thread) : Pc :=
  match t.task with
  | .export => .snapshot
  | _ => .done true

end Thread

/-- The flusher, the registry and the file system. For the record: the latest state
recorded for each root (at first its checkpoint), the number of the latest one whose
recording is through, and the number of states recorded so far. -/
structure World where
  cache : ProjectStateCache Version
  dirty : Finset String
  outDirs : BTreeMap String Path
  registry : ProjectRegistry
  disk : Path → Option Version
  graphJson : Path → Option Version
  threads : List Thread
  last : Path → Version
  recorded : Path → ℕ
  clock : ℕ

/-- How a step turns out. -/
inductive Choice
  | ok
  /-- The read, the write or the pipeline fails. -/
  | fail
  /-- The pipeline applied nothing. -/
  | unchanged
  /-- The pipeline applied a delta. -/
  | fresh (s : GraphState)
  deriving DecidableEq

inductive Action
  | register (root : Path)
  | remove (id : String)
  /-- A task begins for a registered project. -/
  | start (id : String) (task : Task)
  /-- The cadence finds a dirty project due. -/
  | due (id : String)
  /-- The next access of the `i`-th thread. -/
  | run (i : ℕ) (c : Choice)
  deriving DecidableEq

namespace World

variable (w : World)

/-- `load_state`: a missing checkpoint is an empty state. -/
def checkpoint (dir : Path) : Version := (w.disk dir).getD ⟨.empty, dir, 0⟩

/-- Nobody holds the lock of the project. -/
def free (id : String) : Bool := w.threads.all fun u => !(u.locks && u.id = id)

def setDir (id : String) (dir : Path) : World := { w with outDirs := w.outDirs.insert id dir }

def setCache (c : ProjectStateCache Version) : World := { w with cache := c }

def mark (id : String) : World := { w with dirty := insert id w.dirty }

def unmark (id : String) : World := { w with dirty := w.dirty.erase id }

/-- `write_state`. -/
def save (dir : Path) (v : Version) : World :=
  { w with disk := Function.update w.disk dir (some v) }

/-- The next state to be recorded for a root. -/
def version (dir : Path) (s : GraphState) : Version := ⟨s, dir, w.clock + 1⟩

/-- The state is the latest of its root. -/
def publish (v : Version) : World :=
  { w with last := Function.update w.last v.owner v, clock := v.seq }

/-- `graph.json` is derived from the checkpoint. -/
def derive (dir : Path) : World :=
  { w with graphJson := Function.update w.graphJson dir (some (w.checkpoint dir)) }

/-- The recording of the state is through. -/
def settle (v : Version) : World :=
  { w with recorded := Function.update w.recorded v.owner v.seq }

/-- `Flusher::state_of`. -/
def stateOf (t : Thread) (c : Choice) : Option (World × Thread) :=
  match t.pc, c with
  | .remember, .ok => some (w.setDir t.id t.dir, t.goto .lookup)
  | .lookup, .ok =>
    match w.cache.getArc t.id with
    | (some v, c) => some (w.setCache c, t.goto (t.resume (.served (some v))))
    | (none, _) => some (w, t.goto .load)
  | .load, .ok => some (w, t.goto (.install (w.checkpoint t.dir) (w.last t.dir).seq))
  | .load, .fail => some (w, t.goto (.done false))
  | .install v _, .ok =>
    let (c, es) := w.cache.loadInto t.id v
    let (answer, c) := c.getArc t.id
    some (w.setCache c, t.goto (.evict es (.served answer)))
  | _, _ => none

/-- `Flusher::flush_evicted`. -/
def flushEvicted (t : Thread) (c : Choice) : Option (World × Thread) :=
  match t.pc, c with
  | .evict [] k, .ok => some (w, t.goto (t.resume k))
  | .evict (e :: es) k, .ok =>
    some (w.unmark e.id, t.goto (match e.state with
      | some v => .findDir e.id v es k
      -- clean: already on disk
      | none => .evict es k))
  | .findDir id v es k, .ok =>
    some (w, t.goto (match w.outDirs[id]? with
      | some dir => .writeBack id dir v es k
      | none => .done false))
  | .writeBack _ dir v es k, .ok => some (w.save dir v, t.goto (.evict es k))
  | .writeBack _ _ _ _ _, .fail => some (w, t.goto (.done false))
  | _, _ => none

/-- `Flusher::record_apply`. -/
def recordApply (t : Thread) (c : Choice) : Option (World × Thread) :=
  match t.pc, c with
  | .rememberFresh s, .ok =>
    some (w.setDir t.id t.dir, t.goto (match t.task with
      | .apply .flush => .write s
      | _ => .put s))
  | .write s, .ok =>
    let v := w.version t.dir s
    some (((w.save t.dir v).publish v).settle v, t.goto (.reload v))
  | .write _, .fail => some (w, t.goto (.done false))
  | .reload v, .ok =>
    let (c, es) := w.cache.loadInto t.id v
    some (w.setCache c, t.goto (.unmark es))
  | .unmark es, .ok => some (w.unmark t.id, t.goto (.evict es .recorded))
  | .put s, .ok =>
    let v := w.version t.dir s
    let (c, es) := w.cache.put t.id v
    some ((w.setCache c).publish v, t.goto (.mark v es))
  | .mark v es, .ok =>
    some ((w.mark t.id).settle v, t.goto (.evict es .recorded))
  | _, _ => none

/-- `Flusher::flush_project` and `Flusher::flush_locked`. -/
def flushProject (t : Thread) (c : Choice) : Option (World × Thread) :=
  match t.pc, c with
  | .check, .ok =>
    if t.id ∈ w.dirty then some (w, t.goto .acquireFlush)
    else some (w, { t with pc := .done true, seen := w.recorded t.dir })
  | .acquireFlush, .ok => if w.free t.id then some (w, t.goto .checkLocked) else none
  | .checkLocked, .ok =>
    if t.id ∈ w.dirty then some (w, t.goto .dirOf)
    else some (w, { t with pc := t.flushed, seen := w.recorded t.dir })
  | .dirOf, .ok =>
    some (w, t.goto (match w.outDirs[t.id]? with
      | some dir => .peek dir
      | none => .done false))
  | .peek dir, .ok =>
    some (w, t.goto (match w.cache.peekArc t.id with
      | some v => .flushWrite dir v
      | none => .forget))
  | .forget, .ok => some (w.unmark t.id, t.goto (.done false))
  | .flushWrite dir v, .ok =>
    some (w.save dir v, { t with pc := .markClean, seen := w.recorded t.dir })
  | .flushWrite _ _, .fail => some (w, t.goto (.done false))
  | .markClean, .ok => some (w.setCache (w.cache.markClean t.id), t.goto .unmarkFlushed)
  | .unmarkFlushed, .ok => some (w.unmark t.id, t.goto t.flushed)
  | _, _ => none

/-- What the callers do themselves: take the lock, look a state up, run the pipeline,
write `graph.json`. -/
def host (t : Thread) (c : Choice) : Option (World × Thread) :=
  match t.pc, c with
  | .acquire, .ok =>
    if w.free t.id then
      some (w, t.goto (match t.task with
        | .apply _ => .remember
        | _ => .checkLocked))
    else none
  | .probe, .ok =>
    match w.cache.getArc t.id with
    | (some v, c) => some (w.setCache c, t.goto (.served v))
    | (none, _) => some (w, t.goto .hasCheckpoint)
  | .hasCheckpoint, .ok =>
    some (w, t.goto (if (w.disk t.dir).isSome then .remember else .done false))
  | .mutate _, .fail => some (w, t.goto (.done false))
  | .mutate _, .unchanged => some (w, t.goto (t.resume .recorded))
  | .mutate _, .fresh s => some (w, t.goto (.rememberFresh s))
  | .snapshot, .ok => some (w.derive t.dir, t.goto (.done true))
  | .snapshot, .fail => some (w, t.goto (.done false))
  | _, _ => none

/-- The next access of a thread. -/
def exec (t : Thread) (c : Choice) : Option (World × Thread) :=
  match t.pc with
  | .acquire | .probe | .hasCheckpoint | .mutate _ | .snapshot => w.host t c
  | .remember | .lookup | .load | .install _ _ => w.stateOf t c
  | .evict _ _ | .findDir _ _ _ _ | .writeBack _ _ _ _ _ => w.flushEvicted t c
  | .rememberFresh _ | .write _ | .reload _ | .unmark _ | .put _ | .mark _ _ => w.recordApply t c
  | .check | .acquireFlush | .checkLocked | .dirOf | .peek _ | .forget | .flushWrite _ _
  | .markClean | .unmarkFlushed => w.flushProject t c
  | .served _ | .done _ => none

def spawn (t : Thread) : World := { w with threads := w.threads ++ [t] }

def setThread (i : ℕ) (t : Thread) : World := { w with threads := w.threads.set i t }

def step : Action → Option World
  | .register root => (w.registry.add (.new root)).map fun r => { w with registry := r }
  | .remove id => (w.registry.remove id).map fun r => { w with registry := r }
  | .start id task => w.registry[id]?.map fun p => w.spawn (.start id p.outputDir task)
  | .due id =>
    if id ∈ w.dirty then some (w.spawn (.start id (w.outDirs[id]?.getD []) (.flush false)))
    else none
  | .run i c => do
    let t ← w.threads[i]?
    let (w', t') ← w.exec t c
    pure (w'.setThread i t')

end World

/-- A project as it is made from its root. -/
def Derived (p : Project) : Prop :=
  p.id = Project.projectId p.root ∧ p.outputDir = (Project.new p.root).outputDir

/-- A flusher that starts over the checkpoints of a file system. -/
def World.start (capacity : ℕ) (registry : ProjectRegistry) (disk : Path → Option Version) :
    World where
  cache := .new capacity
  dirty := ∅
  outDirs := ∅
  registry := registry
  disk := disk
  graphJson _ := none
  threads := []
  last dir := (disk dir).getD ⟨.empty, dir, 0⟩
  recorded _ := 0
  clock := 0

/-- A flusher over any registry, any checkpoints and any capacity. -/
def system : Lts World Action where
  init w := ∃ capacity registry disk,
    (∀ (id : String) (p : Project), registry[id]? = some p → Derived p ∧ p.id = id) ∧
    (∀ dir v, disk dir = some v → v.owner = dir ∧ v.seq = 0) ∧ w = .start capacity registry disk
  step := World.step

end Flush

end Filigrio.Daemon
