import Filigrio.Daemon.Project
import Filigrio.Core.State

/-!
# Filigrio.Daemon.Queue

What an apply job does (`Op`), the three-lane producer queue, and the jobs that are
made from its items.
-/

namespace Filigrio.Daemon

/-- What an apply job does when it runs. -/
inductive Op
  /-- Apply a raw producer signal, gated. -/
  | apply (changes : ChangeSet)
  /-- Apply a pre-computed changeset as it is. -/
  | applyExact (changes : ChangeSet)
  /-- Reconcile against disk and apply the drift. -/
  | reconcile (deep : Bool)
  /-- Run the clustering that deferred applies skipped. -/
  | recluster
  deriving DecidableEq, Repr

/-- What a producer yields. -/
inductive Produced
  | signal (changes : ChangeSet)
  | authoritative (changes : ChangeSet)
  | reconcile (deep : Bool)
  deriving DecidableEq, Repr

/-- The single total map from what is produced to what is done. -/
def opOf : Produced → Op
  | .signal changes => .apply changes
  | .authoritative changes => .applyExact changes
  | .reconcile deep => .reconcile deep

/-- No producer asks for a recluster. -/
theorem opOf_ne_recluster (produced : Produced) : opOf produced ≠ .recluster := by
  cases produced <;> simp [opOf]

inductive Priority
  | manual
  | git
  | fs
  deriving DecidableEq, Repr

/-- An item of the producer queue. The ticket is for the record: it numbers the
submissions. -/
structure QueueItem where
  project : String
  op : Op
  lane : Priority
  ticket : ℕ
  deriving DecidableEq, Repr

/-- Three lanes, first in first out. -/
structure PriorityQueue where
  manual : List QueueItem
  git : List QueueItem
  fs : List QueueItem
  deriving DecidableEq, Repr

namespace PriorityQueue

variable (q : PriorityQueue)

def empty : PriorityQueue := ⟨[], [], []⟩

def lane : Priority → List QueueItem
  | .manual => q.manual
  | .git => q.git
  | .fs => q.fs

/-- Submit an item into its lane. -/
def submit (item : QueueItem) : PriorityQueue :=
  match item.lane with
  | .manual => { q with manual := q.manual ++ [item] }
  | .git => { q with git := q.git ++ [item] }
  | .fs => { q with fs := q.fs ++ [item] }

/-- Does any lane hold an item for the project? -/
def hasProject (project : String) : Bool :=
  (q.manual ++ q.git ++ q.fs).any fun item => item.project = project

/-- Pop the highest-priority item. -/
def pop : Option (QueueItem × PriorityQueue) :=
  match q.manual, q.git, q.fs with
  | item :: rest, _, _ => some (item, { q with manual := rest })
  | [], item :: rest, _ => some (item, { q with git := rest })
  | [], [], item :: rest => some (item, { q with fs := rest })
  | [], [], [] => none

def len : ℕ := q.manual.length + q.git.length + q.fs.length

/-- All items, in the order they are popped. -/
def items : List QueueItem := q.manual ++ q.git ++ q.fs

/-- Pop until the queue is empty, or `fuel` runs out. -/
def popAll : ℕ → PriorityQueue → List QueueItem × PriorityQueue
  | 0, q => ([], q)
  | fuel + 1, q =>
    match q.pop with
    | some (item, q) => (item :: (popAll fuel q).1, (popAll fuel q).2)
    | none => ([], q)

variable {q}

theorem pop_some {item : QueueItem} {q' : PriorityQueue} (h : q.pop = some (item, q')) :
    q.items = item :: q'.items ∧ q.len = q'.len + 1 := by
  rcases q with ⟨_ | ⟨a, manual⟩, _ | ⟨b, git⟩, _ | ⟨c, fs⟩⟩ <;> cases h <;>
    simp [items, len] <;> omega

theorem pop_none (h : q.pop = none) : q = empty := by
  rcases q with ⟨_ | ⟨a, manual⟩, _ | ⟨b, git⟩, _ | ⟨c, fs⟩⟩ <;> first | rfl | cases h

/-- With fuel for every item all are popped, and nothing is left. -/
theorem popAll_eq {fuel : ℕ} (h : q.len ≤ fuel) : popAll fuel q = (q.items, empty) := by
  induction fuel generalizing q with
  | zero =>
      rcases q with ⟨_ | ⟨a, manual⟩, _ | ⟨b, git⟩, _ | ⟨c, fs⟩⟩ <;> simp [len] at h
      rfl
  | succ fuel ih =>
      unfold popAll
      cases hpop : q.pop with
      | none =>
          rw [pop_none hpop]
          rfl
      | some r =>
          obtain ⟨item, q'⟩ := r
          obtain ⟨hitems, hlen⟩ := pop_some hpop
          have hq' : popAll fuel q' = (q'.items, empty) := ih (by omega)
          simp only [hq', hitems]

/-- A submission goes to the end of its lane. -/
theorem lane_submit (item : QueueItem) (l : Priority) :
    (q.submit item).lane l = if item.lane = l then q.lane l ++ [item] else q.lane l := by
  unfold submit
  cases item.lane <;> cases l <;> simp [lane]

theorem items_submit (item : QueueItem) : (q.submit item).items.Perm (item :: q.items) := by
  unfold submit
  cases item.lane with
  | manual =>
      show (q.manual ++ [item] ++ q.git ++ q.fs).Perm _
      rw [List.append_assoc, List.append_assoc]
      refine List.perm_middle.trans ?_
      simp [items]
  | git =>
      show (q.manual ++ (q.git ++ [item]) ++ q.fs).Perm _
      rw [List.append_assoc, List.append_assoc, ← List.append_assoc]
      refine List.perm_middle.trans ?_
      simp [items]
  | fs =>
      show (q.manual ++ q.git ++ (q.fs ++ [item])).Perm _
      rw [← List.append_assoc]
      exact List.perm_append_singleton item _

theorem lane_empty (l : Priority) : empty.lane l = [] := by cases l <;> rfl

end PriorityQueue

/-- Which cadence a result is persisted on. -/
inductive Persistence
  | flush
  | defer
  deriving DecidableEq, Repr

/-- A self-contained unit of apply work. The item it was made from is for the record;
a recluster has none. -/
structure ApplyJob where
  project : Project
  op : Op
  persistence : Persistence
  item : Option QueueItem
  deriving DecidableEq, Repr

/-- A watcher-lane apply that changed files leaves the project owing a recluster. -/
def ApplyJob.owesRecluster (job : ApplyJob) (changed : ℕ) : Bool :=
  changed > 0 && job.persistence = .defer && job.op ≠ .recluster

/-- `make_job`: nothing when the project is not registered. -/
def makeJob (r : ProjectRegistry) (project : String) (op : Op) (persistence : Persistence) :
    Option ApplyJob := do
  let id ← r.resolveProjectId project
  let p ← r[id]?
  pure ⟨p, op, persistence, none⟩

/-- The job of a queue item. -/
def jobOf (r : ProjectRegistry) (item : QueueItem) : Option ApplyJob :=
  (makeJob r item.project item.op .defer).map fun job => { job with item := some item }

theorem jobOf_item {r : ProjectRegistry} {item : QueueItem} {job : ApplyJob}
    (h : jobOf r item = some job) : job.item = some item := by
  obtain ⟨j, -, rfl⟩ := Option.map_eq_some_iff.mp h
  rfl

end Filigrio.Daemon
