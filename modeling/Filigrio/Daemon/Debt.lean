import Filigrio.Daemon.Schedule
import Filigrio.Resolve.Apply

/-!
# Filigrio.Daemon.Debt

The clustering that producer-lane applies defer, over the run loop. A project owes a
recluster from a deferred apply that recorded its state until a recluster that
succeeds, or an apply that clusters inline. The loop tracks the debt as a set entry
that is removed when the recluster is scheduled and inserted when an apply ends well;
`KeepsDebt` leaves out the steps at which the entry and the debt part ways.
-/

namespace Filigrio.Daemon.Debt

variable {C : Type}

/-- The clustering of a project's last recorded state: inline, owed since a deferred
apply, or caught up on by a recluster. -/
inductive Status
  | inline
  | owing
  | reclustered
  deriving DecidableEq, Repr

/-- The loop, and for each project its last recorded state and how that is clustered. -/
structure World where
  loop : Loop
  states : String → GraphState
  status : String → Status

/-- The steps of the loop; a job's critical section and an owed recluster come with what
they do to the project's state. -/
inductive Action
  | loop (a : Loop.Action)
  /-- The critical section of an apply job: `fresh` is what it records, if anything. -/
  | apply (i : ℕ) (changed : ℕ) (fresh : Option GraphState)
  /-- The critical section of a recluster job. -/
  | recluster (i : ℕ)
  /-- A client's apply, which clusters inline. -/
  | inline (id : String) (fresh : GraphState)
  /-- An owed recluster of the shutdown. -/
  | repay (id : String) (ok : Bool)

namespace World

variable (w : World)

def record (id : String) (fresh : GraphState) (status : Status) : World :=
  { w with
    states := Function.update w.states id fresh
    status := Function.update w.status id status }

/-- A recluster of the project has succeeded. -/
def caughtUp (id : String) : World :=
  if w.status id = .owing then { w with status := Function.update w.status id .reclustered } else w

end World

/-- `recluster`: the clustering of the resident state, swapped in. -/
def reclusterState (st : Stages C) (s : GraphState) : Except Error GraphState := do
  let partition ← Engine.recluster st s
  pure { s with partition := partition }

def step (st : Stages C) (w : World) : Action → Option World
  | .loop (.work _ _) | .loop (.owed _) => none
  | .loop a => do
    let loop ← w.loop.step a
    -- a recluster that ends well has caught up
    match a with
    | .complete i true =>
      match w.loop.scheduler.tasks[i]? with
      | some ⟨job, .reclustered⟩ => pure ({ w with loop := loop }.caughtUp job.project.id)
      | _ => pure { w with loop := loop }
    | _ => pure { w with loop := loop }
  | .apply i changed fresh => do
    let t ← w.loop.scheduler.tasks[i]?
    let loop ← w.loop.step (.work i (.applied fresh.isSome changed))
    match fresh with
    | some s => pure ({ w with loop := loop }.record t.job.project.id s .owing)
    | none => pure { w with loop := loop }
  | .recluster i => do
    let t ← w.loop.scheduler.tasks[i]?
    let loop ← w.loop.step (.work i .reclustered)
    match reclusterState st (w.states t.job.project.id) with
    | .ok s => pure { w with
        loop := loop
        states := Function.update w.states t.job.project.id s }
    | .error _ => none
  | .inline id fresh => some (w.record id fresh .inline)
  | .repay id ok => do
    let loop ← w.loop.step (.owed id)
    match makeJob w.loop.registry id .recluster .defer with
    | none => pure { w with loop := loop }
    | some job =>
      if ok then
        match reclusterState st (w.states job.project.id) with
        | .ok s => pure ({ w with
            loop := loop
            states := Function.update w.states job.project.id s }.caughtUp job.project.id)
        | .error _ => none
      else pure { w with loop := loop }

/-- A daemon whose loop starts with all states clustered. -/
def system (st : Stages C) : Lts World Action where
  init w := loopSystem.init w.loop ∧ ∀ id, w.status id = .inline
  step := step st

/-! ### The promise -/

/-- The project owes a recluster, or one of its jobs is on its way. -/
def Held (w : World) (id : String) : Prop :=
  id ∈ w.loop.owes ∨ (∃ t ∈ w.loop.scheduler.tasks, t.job.project.id = id) ∨
    w.loop.phase = .serving ∧
      ((∃ job ∈ w.loop.deferred, job.project.id = id) ∨ w.loop.queue.hasProject id = true)

/-- The partition is one that clustering the symbol graph produces. -/
def Clustered (st : Stages C) (s : GraphState) : Prop :=
  ∃ seed, st.clusterWith (s.graph.nodes.filter fun n => !n.isProject) s.graph.edges seed
    = .ok s.partition

/-- While a project owes: its recluster does not fail, a job that has recorded its state
ends well and has changed a file, the project is registered when its recluster is made,
and no recluster of it is left deferred when the loop ends. -/
def KeepsDebt (w : World) : Action → Prop
  | .loop (.complete i ok) => ∀ t, w.loop.scheduler.tasks[i]? = some t →
      w.status t.job.project.id = .owing →
      (t.job.op = .recluster → ok = true) ∧
      ∀ changed, t.progress = .applied true changed → ok = true ∧ 0 < changed
  | .loop (.recluster order) => ∀ id ∈ order, w.status id = .owing → id ∈ w.loop.registry
  | .loop .stop => ∀ job ∈ w.loop.deferred, w.status job.project.id = .owing →
      job.op ≠ .recluster
  | .repay id ok => w.status id = .owing → id ∈ w.loop.registry ∧ ok = true
  | _ => True

/-! ### The invariant -/

/-- The task or job carries the debt of its project. -/
def Task.carries (t : Task) (id : String) : Prop :=
  t.job.project.id = id ∧ (t.job.op = .recluster ∨ ∃ changed, t.progress = .applied true changed)

/-- Where the debt of the project is. -/
def Tracked (w : World) (id : String) : Prop :=
  id ∈ w.loop.owes ∨ (∃ t ∈ w.loop.scheduler.tasks, Task.carries t id) ∨
    w.loop.phase = .serving ∧ ∃ job ∈ w.loop.deferred, job.project.id = id ∧ job.op = .recluster

/-- A task's progress is that of its op, and all work of the loop is write-behind. -/
structure Task.Proper (t : Task) : Prop where
  lane : t.job.persistence = .defer
  applied : ∀ recorded changed, t.progress = .applied recorded changed → t.job.op ≠ .recluster
  reclustered : t.progress = .reclustered → t.job.op = .recluster

structure Inv (st : Stages C) (w : World) : Prop where
  loop : LoopInv w.loop
  keyed : w.loop.registry.WellKeyed
  lane : ∀ job ∈ w.loop.deferred, job.persistence = .defer
  proper : ∀ t ∈ w.loop.scheduler.tasks, Task.Proper t
  idle : w.loop.phase = .reclustering ∨ w.loop.phase = .stopped → w.loop.scheduler.tasks = []
  spent : w.loop.phase = .stopped → w.loop.owes = ∅
  tracked : ∀ id, w.status id = .owing → Tracked w id
  clustered : ∀ id, w.status id = .reclustered → Clustered st (w.states id)
  /-- The state of a project whose recluster is through is clustered, or inline since. -/
  fresh : ∀ t ∈ w.loop.scheduler.tasks, t.progress = .reclustered →
    w.status t.job.project.id = .owing → Clustered st (w.states t.job.project.id)

section Steps

variable {st : Stages C} {w w' : World} {loop : Loop} {id : String}

/-- A debt is tracked as long as what tracks it goes over into something that does. -/
theorem Tracked.imp (h : Tracked w id) (howes : id ∈ w.loop.owes → Tracked w' id)
    (htasks : ∀ t ∈ w.loop.scheduler.tasks, Task.carries t id → Tracked w' id)
    (hdeferred : w.loop.phase = .serving → ∀ job ∈ w.loop.deferred, job.project.id = id →
      job.op = .recluster → Tracked w' id) : Tracked w' id := by
  rcases h with h | ⟨t, ht, hid⟩ | ⟨hphase, job, hjob, hid, hop⟩
  · exact howes h
  · exact htasks t ht hid
  · exact hdeferred hphase job hjob hid hop

theorem makeJob_spec {r : ProjectRegistry} {project : String} {op : Op} {lane : Persistence}
    {job : ApplyJob} (h : makeJob r project op lane = some job) :
    job.op = op ∧ job.persistence = lane := by
  simp only [makeJob, Option.bind_eq_bind, Option.bind_eq_some_iff, Option.pure_def,
    Option.some.injEq] at h
  obtain ⟨_, -, _, -, rfl⟩ := h
  exact ⟨rfl, rfl⟩

/-- A registered project's job is its own. -/
theorem exists_makeJob {r : ProjectRegistry} (hr : r.WellKeyed) (hid : id ∈ r) (op : Op)
    (lane : Persistence) : ∃ job, makeJob r id op lane = some job ∧ job.project.id = id := by
  obtain ⟨p, hp⟩ := Option.isSome_iff_exists.mp (Std.ExtTreeMap.mem_iff_isSome_getElem?.mp hid)
  refine ⟨⟨p, op, lane, none⟩, ?_, hr id p hp⟩
  simp [makeJob, ProjectRegistry.resolveProjectId_of_mem hid, hp]

theorem lane_of_jobOf {r : ProjectRegistry} {item : QueueItem} {job : ApplyJob}
    (h : jobOf r item = some job) : job.persistence = .defer := by
  obtain ⟨j, hj, rfl⟩ := Option.map_eq_some_iff.mp h
  exact (makeJob_spec hj).2

theorem proper_running {job : ApplyJob} (h : job.persistence = .defer) :
    Task.Proper ⟨job, .running⟩ :=
  ⟨h, fun _ _ h => (by cases h), fun h => (by cases h)⟩

/-- Steps that change neither the jobs nor the debts keep the invariant. -/
theorem inv_frame (h : Inv st w) (hloop : LoopInv loop) (hkeyed : loop.registry.WellKeyed)
    (hdeferred : ∀ job ∈ loop.deferred, job ∈ w.loop.deferred ∨ job.persistence = .defer)
    (hkept : ∀ job ∈ w.loop.deferred, job ∈ loop.deferred) (howes : loop.owes = w.loop.owes)
    (htasks : loop.scheduler.tasks = w.loop.scheduler.tasks)
    (hphase : loop.phase = w.loop.phase) : Inv st { w with loop := loop } where
  loop := hloop
  keyed := hkeyed
  lane job hjob := (hdeferred job hjob).elim (h.lane job) id
  proper := by
    show ∀ t ∈ loop.scheduler.tasks, _
    rw [htasks]
    exact h.proper
  idle := by
    show loop.phase = _ ∨ loop.phase = _ → loop.scheduler.tasks = []
    rw [hphase, htasks]
    exact h.idle
  spent := by
    show loop.phase = _ → loop.owes = ∅
    rw [hphase, howes]
    exact h.spent
  tracked id hid := by
    refine (h.tracked id hid).imp (fun ho => Or.inl (howes ▸ ho)) (fun t ht hc => ?_)
      fun hs job hjob hid hop => ?_
    · exact Or.inr (Or.inl ⟨t, (show t ∈ loop.scheduler.tasks from htasks ▸ ht), hc⟩)
    · exact Or.inr (Or.inr ⟨hphase.trans hs, job, hkept job hjob, hid, hop⟩)
  clustered := h.clustered
  fresh := by
    show ∀ t ∈ loop.scheduler.tasks, _
    rw [htasks]
    exact h.fresh

/-- Jobs that are dispatched or put off keep the invariant; a debt may move from the set
into one of them. -/
theorem inv_jobs (h : Inv st w) {owes : Finset String} {deferred jobs : List ApplyJob}
    (hphase : w.loop.phase = .serving)
    (hloop : LoopInv { w.loop with
      owes := owes
      scheduler := (w.loop.scheduler.dispatch jobs).1
      deferred := deferred ++ (w.loop.scheduler.dispatch jobs).2 })
    (hjobs : ∀ job ∈ jobs, job.persistence = .defer)
    (hdeferred : ∀ job ∈ deferred, job.persistence = .defer)
    (hmoved : ∀ id, w.status id = .owing → Tracked w id → id ∈ owes ∨
      (∃ t ∈ w.loop.scheduler.tasks, Task.carries t id) ∨
      ∃ job ∈ deferred ++ jobs, job.project.id = id ∧ job.op = .recluster) :
    Inv st { w with loop := { w.loop with
      owes := owes
      scheduler := (w.loop.scheduler.dispatch jobs).1
      deferred := deferred ++ (w.loop.scheduler.dispatch jobs).2 } } := by
  obtain ⟨started, -, htasks, hperm, -, -⟩ :=
    ApplyScheduler.exists_started w.loop.scheduler jobs
  have hstarted : ∀ job ∈ started, job.persistence = .defer := fun job hjob =>
    hjobs job (hperm.subset (List.mem_append_left _ hjob))
  have hcases : ∀ t ∈ (w.loop.scheduler.dispatch jobs).1.tasks, t ∈ w.loop.scheduler.tasks ∨
      ∃ job ∈ started, t = ⟨job, .running⟩ := by
    intro t ht
    rw [htasks] at ht
    rcases List.mem_append.mp ht with ht | ht
    · exact Or.inl ht
    · obtain ⟨job, hjob, rfl⟩ := List.mem_map.mp ht
      exact Or.inr ⟨job, hjob, rfl⟩
  refine
    { loop := hloop
      keyed := h.keyed
      lane := fun job hjob => ?_
      proper := fun t ht => ?_
      idle := fun hp => ?_
      spent := fun hp => ?_
      tracked := fun id hid => ?_
      clustered := h.clustered
      fresh := fun t ht hprogress hid => ?_ }
  · rcases List.mem_append.mp hjob with hjob | hjob
    · exact hdeferred job hjob
    · exact hjobs job (hperm.subset (List.mem_append_right _ hjob))
  · rcases hcases t ht with ht | ⟨job, hjob, rfl⟩
    · exact h.proper t ht
    · exact proper_running (hstarted job hjob)
  · rw [show w.loop.phase = _ from hphase] at hp
    rcases hp with hp | hp <;> cases hp
  · cases hphase.symm.trans hp
  · rcases hmoved id hid (h.tracked id hid) with ho | ⟨t, ht, hc⟩ | ⟨job, hjob, hjid, hop⟩
    · exact Or.inl ho
    · refine Or.inr (Or.inl ⟨t, ?_, hc⟩)
      show t ∈ (w.loop.scheduler.dispatch jobs).1.tasks
      rw [htasks]
      exact List.mem_append_left _ ht
    · rcases List.mem_append.mp hjob with hjob | hjob
      · exact Or.inr (Or.inr ⟨hphase, job, List.mem_append_left _ hjob, hjid, hop⟩)
      · -- a new recluster is started, or put off
        rcases List.mem_append.mp (hperm.symm.subset hjob) with hjob | hjob
        · refine Or.inr (Or.inl ⟨⟨job, .running⟩, ?_, hjid, Or.inl hop⟩)
          show _ ∈ (w.loop.scheduler.dispatch jobs).1.tasks
          rw [htasks]
          exact List.mem_append_right _ (List.mem_map_of_mem hjob)
        · exact Or.inr (Or.inr ⟨hphase, job, List.mem_append_right _ hjob, hjid, hop⟩)
  · rcases hcases t ht with ht | ⟨job, hjob, rfl⟩
    · exact h.fresh t ht hprogress hid
    · cases hprogress

theorem inv_dispatch (h : Inv st w) (hphase : w.loop.phase = .serving) :
    Inv st { w with loop := { w.loop with
      scheduler := (w.loop.scheduler.dispatch w.loop.deferred).1
      deferred := (w.loop.scheduler.dispatch w.loop.deferred).2 } } := by
  refine @inv_jobs _ st w h w.loop.owes [] w.loop.deferred hphase (loopInv_dispatch h.loop) h.lane
    (by simp) fun id hid htracked => ?_
  rcases htracked with ho | ht | ⟨-, hjob⟩
  · exact Or.inl ho
  · exact Or.inr (Or.inl ht)
  · exact Or.inr (Or.inr hjob)

theorem inv_recluster {order : List String} (h : Inv st w) (hphase : w.loop.phase = .serving)
    (horder : order.toFinset = w.loop.quiet) (hok : KeepsDebt w (.loop (.recluster order))) :
    Inv st { w with loop := { w.loop with
      owes := w.loop.owes \ w.loop.quiet
      scheduler := (w.loop.scheduler.dispatch (w.loop.reclusterJobs order)).1
      deferred := w.loop.deferred ++
        (w.loop.scheduler.dispatch (w.loop.reclusterJobs order)).2 } } := by
  refine inv_jobs h hphase (loopInv_recluster h.loop order) (fun job hjob => ?_)
    h.lane fun id hid htracked => ?_
  · obtain ⟨id, -, hjob⟩ := List.mem_filterMap.mp hjob
    exact (makeJob_spec hjob).2
  · rcases htracked with ho | ht | ⟨-, job, hjob, hj⟩
    · by_cases hquiet : id ∈ w.loop.quiet
      · -- its recluster is made now
        have hmem : id ∈ order := List.mem_toFinset.mp (horder ▸ hquiet)
        obtain ⟨job, hjob, hjid⟩ := exists_makeJob h.keyed (hok id hmem hid) .recluster .defer
        exact Or.inr (Or.inr ⟨job, List.mem_append_right _
          (List.mem_filterMap.mpr ⟨id, hmem, hjob⟩), hjid, (makeJob_spec hjob).1⟩)
      · exact Or.inl (Finset.mem_sdiff.mpr ⟨ho, hquiet⟩)
    · exact Or.inr (Or.inl ht)
    · exact Or.inr (Or.inr ⟨job, List.mem_append_left _ hjob, hj⟩)

theorem inv_collect (h : Inv st w) (hstep : w.loop.step .collect = some loop) :
    Inv st { w with loop := loop } := by
  have hloop := loopInv_step h.loop hstep
  obtain ⟨hphase, hstep⟩ := Option.ite_none_right_eq_some.mp hstep
  rw [PriorityQueue.popAll_eq le_rfl] at hstep
  cases hstep
  refine inv_frame h hloop h.keyed (fun job hjob => ?_) (fun job hjob => ?_) rfl rfl rfl
  · refine (List.mem_append.mp hjob).imp id fun hjob => ?_
    obtain ⟨item, -, hjob⟩ := List.mem_filterMap.mp hjob
    exact lane_of_jobOf hjob
  · exact List.mem_append_left _ hjob

/-! ### Tasks that end -/

/-- The tasks that are left when one ends, and the one that ended. -/
theorem tasks_join {s : ApplyScheduler} {i : ℕ} {t u : Task} (hi : s.tasks[i]? = some t) :
    u ∈ s.tasks ↔ u = t ∨ u ∈ (s.join i t).tasks := by
  obtain ⟨hlt, rfl⟩ := List.getElem?_eq_some_iff.mp hi
  rw [← (List.getElem_cons_eraseIdx_perm hlt).mem_iff, List.mem_cons]
  rfl

/-- No other task of the project is left. -/
theorem alone {s : ApplyScheduler} (h : s.Pool) {i : ℕ} {t u : Task} (hi : s.tasks[i]? = some t)
    (hu : u ∈ (s.join i t).tasks) : u.job.project.id ≠ t.job.project.id := by
  intro heq
  obtain ⟨hlt, rfl⟩ := List.getElem?_eq_some_iff.mp hi
  have hperm := (List.getElem_cons_eraseIdx_perm hlt).map fun t : Task => t.job.project.id
  have hnodup := hperm.nodup_iff.mpr h.nodup
  rw [List.map_cons, List.nodup_cons] at hnodup
  exact hnodup.1 (heq ▸ List.mem_map_of_mem hu)

/-- A task has ended: its project is clustered inline, caught up, or owes by now. -/
theorem inv_join {i : ℕ} {t : Task} {owes : Finset String} (status : String → Status) (h : Inv st w)
    (hphase : w.loop.phase = .serving ∨ w.loop.phase = .draining)
    (hi : w.loop.scheduler.tasks[i]? = some t) (howes : w.loop.owes ⊆ owes)
    (hloop : LoopInv { w.loop with scheduler := w.loop.scheduler.join i t, owes := owes })
    (hstatus : ∀ id, status id = .owing → w.status id = .owing)
    (hsettled : status t.job.project.id = .owing → Task.carries t t.job.project.id →
      t.job.project.id ∈ owes)
    (hclustered : ∀ id, status id = .reclustered → Clustered st (w.states id)) :
    Inv st { w with
      loop := { w.loop with scheduler := w.loop.scheduler.join i t, owes := owes }
      status := status } where
  loop := hloop
  keyed := h.keyed
  lane := h.lane
  proper u hu := h.proper u ((tasks_join hi).mpr (Or.inr hu))
  idle hp := by
    rcases hphase with hphase | hphase <;> rw [show w.loop.phase = _ from hphase] at hp <;>
      rcases hp with hp | hp <;> cases hp
  spent hp := by
    rcases hphase with hphase | hphase <;> cases hphase.symm.trans hp
  tracked id hid := by
    refine (h.tracked id (hstatus id hid)).imp (fun ho => Or.inl (howes ho)) (fun u hu hc => ?_)
      fun hs job hjob hjid hop => Or.inr (Or.inr ⟨hs, job, hjob, hjid, hop⟩)
    rcases (tasks_join hi).mp hu with rfl | hu
    · obtain ⟨rfl, hc⟩ := hc
      exact Or.inl (hsettled hid ⟨rfl, hc⟩)
    · exact Or.inr (Or.inl ⟨u, hu, hc⟩)
  clustered := hclustered
  fresh u hu hprogress hid :=
    h.fresh u ((tasks_join hi).mpr (Or.inr hu)) hprogress (hstatus _ hid)

theorem inv_complete {i : ℕ} {ok : Bool} (h : Inv st w) (hok : KeepsDebt w (.loop (.complete i ok)))
    (hstep : step st w (.loop (.complete i ok)) = some w') : Inv st w' := by
  obtain ⟨loop, hl, hstep⟩ := Option.bind_eq_some_iff.mp hstep
  have hloop := loopInv_step h.loop hl
  obtain ⟨hphase, hl⟩ := Option.ite_none_right_eq_some.mp hl
  cases hi : w.loop.scheduler.tasks[i]? with
  | none => simp only [hi] at hl; cases hl
  | some t =>
      simp only [hi] at hl
      have hproper := h.proper t (List.mem_of_getElem? hi)
      cases ok with
      | false =>
          -- a task that fails carries no debt
          cases hl
          cases hstep
          refine inv_join _ h hphase hi (Finset.Subset.refl _) hloop (fun _ h => h) (fun hid hc => ?_)
            h.clustered
          obtain ⟨hrecluster, happlied⟩ := hok t hi hid
          rcases hc.2 with hop | ⟨changed, hprogress⟩
          · cases hrecluster hop
          · cases (happlied changed hprogress).1
      | true =>
          rw [if_pos rfl] at hl
          obtain ⟨job, progress⟩ := t
          cases progress with
          | running => cases hl
          | applied recorded changed =>
              simp only [hi] at hstep
              have hop := hproper.applied recorded changed rfl
              have howes : job.owesRecluster changed = decide (0 < changed) := by
                simp [ApplyJob.owesRecluster, show job.persistence = _ from hproper.lane,
                  show job.op ≠ _ from hop]
              have hin : w.status job.project.id = .owing →
                  Task.carries ⟨job, .applied recorded changed⟩ job.project.id →
                  0 < changed := by
                rintro hid ⟨-, hc | ⟨c, hc⟩⟩
                · exact absurd hc hop
                · cases hc
                  exact ((hok _ hi hid).2 changed rfl).2
              dsimp only at hl
              split at hl
              · cases hl
                cases hstep
                exact inv_join _ h hphase hi (Finset.subset_insert _ _) hloop (fun _ h => h)
                  (fun _ _ => Finset.mem_insert_self _ _) h.clustered
              · rename_i hnot
                cases hl
                cases hstep
                refine inv_join _ h hphase hi (Finset.Subset.refl _) hloop (fun _ h => h)
                  (fun hid hc => ?_) h.clustered
                rw [howes] at hnot
                exact absurd (decide_eq_true (hin hid hc)) hnot
          | reclustered =>
              cases hl
              simp only [hi] at hstep
              cases hstep
              unfold World.caughtUp
              split
              · -- the debt is repaid: the state is clustered as the recluster left it
                rename_i hid
                refine inv_join (Function.update w.status job.project.id .reclustered) h
                  hphase hi (Finset.Subset.refl _) hloop (fun id hid' => ?_) (fun hid' _ => ?_)
                  fun id hid' => ?_
                · by_cases heq : id = job.project.id
                  · subst heq
                    simp at hid'
                  · simpa [heq] using hid'
                · simp at hid'
                · by_cases heq : id = job.project.id
                  · subst heq
                    exact h.fresh _ (List.mem_of_getElem? hi) rfl hid
                  · exact h.clustered id (by simpa [heq] using hid')
              · rename_i hnot
                exact inv_join _ h hphase hi (Finset.Subset.refl _) hloop (fun _ h => h)
                  (fun hid _ => absurd hid hnot) h.clustered

theorem inv_stop (h : Inv st w) (hok : KeepsDebt w (.loop .stop)) :
    Inv st { w with loop := { w.loop with phase := .draining } } where
  loop := { h.loop with }
  keyed := h.keyed
  lane := h.lane
  proper := h.proper
  idle hp := by rcases hp with hp | hp <;> cases hp
  spent hp := by cases hp
  tracked id hid := by
    refine (h.tracked id hid).imp Or.inl (fun t ht hc => Or.inr (Or.inl ⟨t, ht, hc⟩)) ?_
    -- what is left deferred is dropped, and carries no debt
    rintro - job hjob rfl hop
    exact absurd hop (hok job hjob hid)
  clustered := h.clustered
  fresh := h.fresh

theorem inv_drained (h : Inv st w) (hphase : w.loop.phase = .draining)
    (htasks : w.loop.scheduler.tasks = []) :
    Inv st { w with loop := { w.loop with phase := .reclustering } } where
  loop := { h.loop with }
  keyed := h.keyed
  lane := h.lane
  proper := h.proper
  idle _ := htasks
  spent hp := by cases hp
  tracked id hid := by
    refine (h.tracked id hid).imp Or.inl (fun t ht hc => Or.inr (Or.inl ⟨t, ht, hc⟩)) ?_
    intro hs
    cases hphase.symm.trans hs
  clustered := h.clustered
  fresh := h.fresh

theorem inv_finish (h : Inv st w) (hphase : w.loop.phase = .reclustering)
    (howes : w.loop.owes = ∅) :
    Inv st { w with loop := { w.loop with phase := .stopped } } where
  loop := { h.loop with }
  keyed := h.keyed
  lane := h.lane
  proper := h.proper
  idle _ := h.idle (Or.inl hphase)
  spent _ := howes
  tracked id hid := by
    refine (h.tracked id hid).imp Or.inl (fun t ht hc => Or.inr (Or.inl ⟨t, ht, hc⟩)) ?_
    intro hs
    cases hphase.symm.trans hs
  clustered := h.clustered
  fresh := h.fresh

theorem inv_loop {a : Loop.Action} (h : Inv st w) (hok : KeepsDebt w (.loop a))
    (hstep : step st w (.loop a) = some w') : Inv st w' := by
  cases a with
  | work i progress => cases hstep
  | owed id => cases hstep
  | complete i ok => exact inv_complete h hok hstep
  | register root =>
      obtain ⟨loop, hl, hstep⟩ := Option.bind_eq_some_iff.mp hstep
      cases hstep
      have hloop := loopInv_step h.loop hl
      obtain ⟨r, hr, rfl⟩ := Option.map_eq_some_iff.mp hl
      exact inv_frame h hloop (h.keyed.add hr) (fun _ => Or.inl) (fun _ => id) rfl rfl rfl
  | remove id =>
      obtain ⟨loop, hl, hstep⟩ := Option.bind_eq_some_iff.mp hstep
      cases hstep
      have hloop := loopInv_step h.loop hl
      obtain ⟨r, hr, rfl⟩ := Option.map_eq_some_iff.mp hl
      exact inv_frame h hloop (h.keyed.remove hr) (fun _ => Or.inl) (fun _ h => h) rfl rfl rfl
  | setWatch id b =>
      obtain ⟨loop, hl, hstep⟩ := Option.bind_eq_some_iff.mp hstep
      cases hstep
      have hloop := loopInv_step h.loop hl
      obtain ⟨r, hr, rfl⟩ := Option.map_eq_some_iff.mp hl
      exact inv_frame h hloop (h.keyed.setWatch hr) (fun _ => Or.inl) (fun _ h => h) rfl rfl rfl
  | submit project produced lane =>
      obtain ⟨loop, hl, hstep⟩ := Option.bind_eq_some_iff.mp hstep
      cases hstep
      have hloop := loopInv_step h.loop hl
      obtain ⟨-, hl⟩ := Option.ite_none_right_eq_some.mp hl
      cases hl
      exact inv_frame h hloop h.keyed (fun _ => Or.inl) (fun _ h => h) rfl rfl rfl
  | collect =>
      obtain ⟨loop, hl, hstep⟩ := Option.bind_eq_some_iff.mp hstep
      cases hstep
      exact inv_collect h hl
  | dispatch =>
      obtain ⟨loop, hl, hstep⟩ := Option.bind_eq_some_iff.mp hstep
      cases hstep
      obtain ⟨hphase, hl⟩ := Option.ite_none_right_eq_some.mp hl
      cases hl
      exact inv_dispatch h hphase
  | recluster order =>
      obtain ⟨loop, hl, hstep⟩ := Option.bind_eq_some_iff.mp hstep
      cases hstep
      obtain ⟨⟨hphase, -, horder⟩, hl⟩ := Option.ite_none_right_eq_some.mp hl
      cases hl
      exact inv_recluster h hphase horder hok
  | stop =>
      obtain ⟨loop, hl, hstep⟩ := Option.bind_eq_some_iff.mp hstep
      cases hstep
      obtain ⟨-, hl⟩ := Option.ite_none_right_eq_some.mp hl
      cases hl
      exact inv_stop h hok
  | drained =>
      obtain ⟨loop, hl, hstep⟩ := Option.bind_eq_some_iff.mp hstep
      cases hstep
      obtain ⟨⟨hphase, htasks⟩, hl⟩ := Option.ite_none_right_eq_some.mp hl
      cases hl
      exact inv_drained h hphase htasks
  | finish =>
      obtain ⟨loop, hl, hstep⟩ := Option.bind_eq_some_iff.mp hstep
      cases hstep
      obtain ⟨⟨hphase, howes⟩, hl⟩ := Option.ite_none_right_eq_some.mp hl
      cases hl
      exact inv_finish h hphase howes

/-! ### Critical sections -/

/-- The critical section of a task: its progress is noted, and its project's state and
status may change with it. -/
theorem inv_work {i : ℕ} {job : ApplyJob} {progress : Progress} {states : String → GraphState}
    {status : String → Status} (h : Inv st w)
    (hi : w.loop.scheduler.tasks[i]? = some ⟨job, .running⟩)
    (hadmits : Loop.admits job.op progress = true)
    (hother : ∀ id, id ≠ job.project.id → states id = w.states id ∧ status id = w.status id)
    (howing : status job.project.id = .owing → w.status job.project.id = .owing ∨
      ∃ changed, progress = .applied true changed)
    (hclustered : status job.project.id = .reclustered → Clustered st (states job.project.id))
    (hfresh : progress = .reclustered → Clustered st (states job.project.id)) :
    Inv st { w with
      loop := { w.loop with scheduler := { w.loop.scheduler with
        tasks := w.loop.scheduler.tasks.set i ⟨job, progress⟩ } }
      states := states
      status := status } := by
  have hlt := List.lt_of_getElem?_eq_some hi
  have hcases : ∀ t ∈ w.loop.scheduler.tasks.set i ⟨job, progress⟩, t = ⟨job, progress⟩ ∨
      (t ∈ w.loop.scheduler.tasks ∧ t.job.project.id ≠ job.project.id) := by
    intro t ht
    obtain ⟨j, hj⟩ := List.getElem?_of_mem ht
    rcases List.getElem?_set_cases hlt hj with ⟨-, rfl⟩ | ⟨hji, hj⟩
    · exact Or.inl rfl
    · refine Or.inr ⟨List.mem_of_getElem? hj, fun heq => hji ?_⟩
      -- one task a project
      have hids : ∀ (k : ℕ) (u : Task), w.loop.scheduler.tasks[k]? = some u →
          (w.loop.scheduler.tasks.map fun t => t.job.project.id)[k]? = some u.job.project.id :=
        fun k u hk => by rw [List.getElem?_map, hk]; rfl
      exact (List.getElem?_inj (by simpa using List.lt_of_getElem?_eq_some hj)
        h.loop.pool.nodup).mp ((hids j t hj).trans (heq ▸ (hids i _ hi).symm))
  have hproper := h.proper _ (List.mem_of_getElem? hi)
  refine
    { loop := { h.loop with pool := h.loop.pool.work hi rfl }
      keyed := h.keyed
      lane := h.lane
      proper := fun t ht => ?_
      idle := fun hp => ?_
      spent := h.spent
      tracked := fun id hid => ?_
      clustered := fun id hid => ?_
      fresh := fun t ht hprogress hid => ?_ }
  · rcases hcases t ht with rfl | ⟨ht, -⟩
    · refine ⟨hproper.lane, fun recorded changed hp => ?_, fun hp => ?_⟩
      · subst hp
        intro hop
        rw [show job.op = _ from hop] at hadmits
        cases hadmits
      · subst hp
        show job.op = _
        cases hop : job.op <;> rw [hop] at hadmits <;> simp [Loop.admits] at hadmits ⊢
    · exact h.proper t ht
  · rw [h.idle hp] at hi
    cases hi
  · by_cases heq : id = job.project.id
    · subst heq
      have hself : (⟨job, progress⟩ : Task) ∈ w.loop.scheduler.tasks.set i ⟨job, progress⟩ :=
        List.mem_set hlt _
      rcases howing hid with hid | ⟨changed, rfl⟩
      · refine (h.tracked _ hid).imp Or.inl (fun t ht hc => ?_)
          fun hs j hj hjid hop => Or.inr (Or.inr ⟨hs, j, hj, hjid, hop⟩)
        -- the task itself carries the debt, as a recluster
        obtain ⟨k, hk⟩ := List.getElem?_of_mem ht
        by_cases hki : k = i
        · subst hki
          cases hi.symm.trans hk
          rcases hc.2 with hop | ⟨changed, hp⟩
          · exact Or.inr (Or.inl ⟨_, hself, rfl, Or.inl hop⟩)
          · cases hp
        · refine Or.inr (Or.inl ⟨t, ?_, hc⟩)
          exact List.mem_of_getElem? (by rw [List.getElem?_set_ne (Ne.symm hki)]; exact hk)
      · exact Or.inr (Or.inl ⟨_, hself, rfl, Or.inr ⟨changed, rfl⟩⟩)
    · refine (h.tracked id ((hother id heq).2 ▸ hid)).imp Or.inl (fun t ht hc => ?_)
        fun hs j hj hjid hop => Or.inr (Or.inr ⟨hs, j, hj, hjid, hop⟩)
      refine Or.inr (Or.inl ⟨t, ?_, hc⟩)
      obtain ⟨k, hk⟩ := List.getElem?_of_mem ht
      have hki : i ≠ k := by
        rintro rfl
        cases hi.symm.trans hk
        exact heq hc.1.symm
      exact List.mem_of_getElem? (by rw [List.getElem?_set_ne hki]; exact hk)
  · by_cases heq : id = job.project.id
    · subst heq
      exact hclustered hid
    · show Clustered st (states id)
      rw [(hother id heq).1]
      exact h.clustered id ((hother id heq).2 ▸ hid)
  · rcases hcases t ht with rfl | ⟨ht, hne⟩
    · exact hfresh hprogress
    · show Clustered st (states t.job.project.id)
      rw [(hother _ hne).1]
      exact h.fresh t ht hprogress ((hother _ hne).2 ▸ hid)

/-- What a recluster leaves is clustered. -/
theorem clustered_of_recluster {s s' : GraphState} (h : reclusterState st s = .ok s') :
    Clustered st s' := by
  obtain ⟨partition, hp, h⟩ := bind_eq_ok.mp h
  cases h
  exact ⟨s.partition, hp⟩

theorem work_cases {i : ℕ} {progress : Progress}
    (h : w.loop.step (.work i progress) = some loop) : ∃ job,
      w.loop.scheduler.tasks[i]? = some ⟨job, .running⟩ ∧ Loop.admits job.op progress = true ∧
      loop = { w.loop with scheduler := { w.loop.scheduler with
        tasks := w.loop.scheduler.tasks.set i ⟨job, progress⟩ } } := by
  simp only [Loop.step] at h
  split at h
  · rename_i job hi
    obtain ⟨hadmits, h⟩ := Option.ite_none_right_eq_some.mp h
    cases h
    exact ⟨job, hi, hadmits, rfl⟩
  · cases h

theorem inv_apply {i changed : ℕ} {fresh : Option GraphState} (h : Inv st w)
    (hstep : step st w (.apply i changed fresh) = some w') : Inv st w' := by
  obtain ⟨t, ht, hstep⟩ := Option.bind_eq_some_iff.mp hstep
  obtain ⟨loop, hl, hstep⟩ := Option.bind_eq_some_iff.mp hstep
  obtain ⟨job, hi, hadmits, rfl⟩ := work_cases hl
  cases ht.symm.trans hi
  cases fresh with
  | some s =>
      cases hstep
      refine inv_work h hi hadmits (fun id hne => ?_) (fun _ => Or.inr ⟨changed, rfl⟩) (fun hs => ?_)
        (fun hp => by cases hp)
      · simp [hne]
      · simp at hs
  | none =>
      cases hstep
      exact inv_work h hi hadmits (fun _ _ => ⟨rfl, rfl⟩) Or.inl (h.clustered _)
        (fun hp => by cases hp)

theorem inv_reclusterWork {i : ℕ} (h : Inv st w) (hstep : step st w (.recluster i) = some w') :
    Inv st w' := by
  obtain ⟨t, ht, hstep⟩ := Option.bind_eq_some_iff.mp hstep
  obtain ⟨loop, hl, hstep⟩ := Option.bind_eq_some_iff.mp hstep
  obtain ⟨job, hi, hadmits, rfl⟩ := work_cases hl
  cases ht.symm.trans hi
  cases hs : reclusterState st (w.states job.project.id) with
  | error e => simp only [hs] at hstep; cases hstep
  | ok s =>
      simp only [hs] at hstep
      cases hstep
      have hclustered : Clustered st (Function.update w.states job.project.id s job.project.id) := by
        rw [Function.update_self]
        exact clustered_of_recluster hs
      exact inv_work h hi hadmits (fun id hne => by simp [hne]) Or.inl (fun _ => hclustered)
        fun _ => hclustered

theorem inv_inline (h : Inv st w) (fresh : GraphState) : Inv st (w.record id fresh .inline) := by
  have hstatus : ∀ id', (w.record id fresh .inline).status id' ≠ .inline → id' ≠ id ∧
      (w.record id fresh .inline).status id' = w.status id' ∧
      (w.record id fresh .inline).states id' = w.states id' := by
    intro id' hne
    by_cases heq : id' = id
    · subst heq
      simp [World.record] at hne
    · exact ⟨heq, by simp [World.record, heq], by simp [World.record, heq]⟩
  refine
    { h with
      tracked := fun id' hid => ?_
      clustered := fun id' hid => ?_
      fresh := fun t ht hprogress hid => ?_ }
  · obtain ⟨-, hsame, -⟩ := hstatus id' (by rw [hid]; simp)
    exact (h.tracked id' (hsame ▸ hid)).imp Or.inl (fun t ht hc => Or.inr (Or.inl ⟨t, ht, hc⟩))
      fun hs job hjob hjid hop => Or.inr (Or.inr ⟨hs, job, hjob, hjid, hop⟩)
  · obtain ⟨-, hsame, hstate⟩ := hstatus id' (by rw [hid]; simp)
    rw [hstate]
    exact h.clustered id' (hsame ▸ hid)
  · obtain ⟨-, hsame, hstate⟩ := hstatus _ (by rw [hid]; simp)
    rw [hstate]
    exact h.fresh t ht hprogress (hsame ▸ hid)

/-- An owed recluster of the shutdown, with no task in flight. -/
theorem inv_repay {ok : Bool} (h : Inv st w) (hok : KeepsDebt w (.repay id ok))
    (hstep : step st w (.repay id ok) = some w') : Inv st w' := by
  obtain ⟨loop, hl, hstep⟩ := Option.bind_eq_some_iff.mp hstep
  obtain ⟨⟨hphase, howes⟩, hl⟩ := Option.ite_none_right_eq_some.mp hl
  cases hl
  have htasks := h.idle (Or.inl hphase)
  have hserving : w.loop.phase ≠ .serving := by rw [hphase]; simp
  have hstopped : w.loop.phase ≠ .stopped := by rw [hphase]; simp
  have hclean : ∀ (states : String → GraphState) (status : String → Status),
      (∀ id', status id' = .owing → id' ≠ id ∧ w.status id' = .owing) →
      (∀ id', status id' = .reclustered → Clustered st (states id')) →
      Inv st { loop := { w.loop with owes := w.loop.owes.erase id }, states := states,
               status := status } := by
    intro states status howing hclustered
    refine
      { loop := { h.loop with }
        keyed := h.keyed
        lane := h.lane
        proper := h.proper
        idle := fun _ => htasks
        spent := fun hp => absurd hp hstopped
        tracked := fun id' hid => ?_
        clustered := hclustered
        fresh := fun t ht => ?_ }
    · obtain ⟨hne, hid⟩ := howing id' hid
      refine (h.tracked id' hid).imp (fun ho => Or.inl (Finset.mem_erase.mpr ⟨hne, ho⟩))
        (fun t ht hc => Or.inr (Or.inl ⟨t, ht, hc⟩)) fun hs => absurd hs hserving
    · rw [show w.loop.scheduler.tasks = _ from htasks] at ht
      cases ht
  -- as long as the project does not owe, the entry does not matter
  have hdrop : w.status id ≠ .owing →
      Inv st { w with loop := { w.loop with owes := w.loop.owes.erase id } } := fun hne =>
    hclean w.states w.status (fun id' hid => ⟨fun heq => hne (heq ▸ hid), hid⟩) h.clustered
  cases hmake : makeJob w.loop.registry id .recluster .defer with
  | none =>
      simp only [hmake] at hstep
      cases hstep
      refine hdrop fun hid => ?_
      obtain ⟨job, hjob, -⟩ := exists_makeJob h.keyed (hok hid).1 .recluster .defer
      cases hmake.symm.trans hjob
  | some job =>
      simp only [hmake] at hstep
      cases ok with
      | false =>
          cases hstep
          exact hdrop fun hid => by cases (hok hid).2
      | true =>
          rw [if_pos rfl] at hstep
          cases hs : reclusterState st (w.states job.project.id) with
          | error e => simp only [hs] at hstep; cases hstep
          | ok s =>
              simp only [hs] at hstep
              cases hstep
              have hself := clustered_of_recluster hs
              -- the recluster is that of the project itself when it owes
              have hown : w.status id = .owing → job.project.id = id := by
                intro hid
                obtain ⟨j, hj, hjid⟩ := exists_makeJob h.keyed (hok hid).1 .recluster .defer
                cases hmake.symm.trans hj
                exact hjid
              unfold World.caughtUp
              split
              · rename_i hjob
                refine hclean _ _ (fun id' hid => ?_) fun id' hid => ?_
                · by_cases heq : id' = job.project.id
                  · subst heq
                    simp at hid
                  · have hid : w.status id' = .owing := by simpa [heq] using hid
                    exact ⟨fun hne => heq (hne ▸ (hown (hne ▸ hid)).symm), hid⟩
                · by_cases heq : id' = job.project.id
                  · subst heq
                    simpa using hself
                  · simpa [heq] using h.clustered id' (by simpa [heq] using hid)
              · rename_i hjob
                refine hclean _ _ (fun id' hid => ⟨fun heq => ?_, hid⟩) fun id' hid => ?_
                · subst heq
                  exact hjob ((hown hid).symm ▸ hid)
                · by_cases heq : id' = job.project.id
                  · subst heq
                    simpa using hself
                  · simpa [heq] using h.clustered id' hid

end Steps

theorem inv_of_reach {st : Stages C} {w : World} (h : (system st).Reach KeepsDebt w) : Inv st w := by
  refine h.invariant ?_ ?_
  · rintro w ⟨⟨registry, permits, hkeyed, hloop⟩, hstatus⟩
    have htasks : w.loop.scheduler.tasks = [] := by rw [hloop]; rfl
    refine
      { loop := hloop ▸ loopInv_start registry permits
        keyed := by rw [hloop]; exact hkeyed
        lane := by rw [hloop]; simp [Loop.start]
        proper := by rw [htasks]; simp
        idle := fun _ => htasks
        spent := fun hp => by rw [hloop] at hp; cases hp
        tracked := fun id hid => by rw [hstatus id] at hid; cases hid
        clustered := fun id hid => by rw [hstatus id] at hid; cases hid
        fresh := by rw [htasks]; simp }
  · intro w a w' hinv hok hstep
    cases a with
    | loop a => exact inv_loop hinv hok hstep
    | apply i changed fresh => exact inv_apply hinv hstep
    | recluster i => exact inv_reclusterWork hinv hstep
    | inline id fresh => cases hstep; exact inv_inline hinv fresh
    | repay id ok => exact inv_repay hinv hok hstep

/-- **A clustering debt is repaid.** In every run that keeps its debts, a project that
owes a recluster has it noted or a job on its way; and when the loop has stopped, every
project that deferred a clustering since it was last clustered inline has a partition
that clustering its graph produces. -/
theorem debt_repaid {st : Stages C} {w : World} (h : (system st).Reach KeepsDebt w) :
    (∀ id, w.status id = .owing → Held w id) ∧
      (w.loop.phase = .stopped → ∀ id, w.status id ≠ .inline → Clustered st (w.states id)) := by
  have hinv := inv_of_reach h
  refine ⟨fun id hid => ?_, fun hphase id hne => ?_⟩
  · rcases hinv.tracked id hid with ho | ⟨t, ht, hc⟩ | ⟨hs, job, hjob, hjid, -⟩
    · exact Or.inl ho
    · exact Or.inr (Or.inl ⟨t, ht, hc.1⟩)
    · exact Or.inr (Or.inr ⟨hs, Or.inl ⟨job, hjob, hjid⟩⟩)
  · cases hid : w.status id with
    | inline => exact absurd hid hne
    | reclustered => exact hinv.clustered id hid
    | owing =>
        -- nothing is in flight, nothing is owed
        have htasks := hinv.idle (Or.inr hphase)
        have howes := hinv.spent hphase
        rcases hinv.tracked id hid with ho | ⟨t, ht, -⟩ | ⟨hs, -⟩
        · rw [howes] at ho
          simp at ho
        · rw [htasks] at ht
          cases ht
        · cases hphase.symm.trans hs

/-! ### A run that repays, and two that do not -/

/-- Clustering that puts every node into one community. -/
def stages : Stages String where
  parse _ _ := ⟨none, none, []⟩
  clusterWith nodes _ _ := .ok ⟨BTreeMap.insertAll ∅ (nodes.map fun n => (n.id, 0)), ∅⟩

/-- The graph of one file, with nothing clustered. -/
def unclustered : GraphState :=
  { GraphState.empty with
    graph := ⟨[⟨⟨"file:a.ts"⟩, "a.ts", "file", some "a.ts", none, ∅⟩], []⟩ }

/-- A daemon that starts with a pool of the given size. -/
def start (permits : ℕ) : World where
  loop := .start ∅ permits
  states _ := .empty
  status _ := .inline

theorem reach_start (st : Stages C) (ok : World → Action → Prop) (permits : ℕ) :
    (system st).Reach ok (start permits) :=
  .init ⟨⟨∅, permits, fun id p hp => by simp at hp, rfl⟩, fun _ => rfl⟩

/-- The first job of a registered project, up to where it owes a recluster. -/
def applied : List Action :=
  [.loop (.register ["srv", "app"]), .loop (.submit "app" (.signal ⟨["a.ts"], [], []⟩) .fs),
    .loop .collect, .loop .dispatch, .apply 0 1 (some unclustered), .loop (.complete 0 true)]

/-- A check that is enough for `KeepsDebt`. -/
def keepsDebt (w : World) : Action → Bool
  | .loop (.complete i ok) => ok && w.loop.scheduler.tasks[i]?.all fun t =>
      t.progress = .reclustered || t.progress = .applied true 1
  | .loop (.recluster order) => order.all fun id => id ∈ w.loop.registry
  | .loop .stop => w.loop.deferred = []
  | .repay id ok => decide (id ∈ w.loop.registry) && ok
  | _ => true

theorem keepsDebt_of_check (w : World) (a : Action) (h : keepsDebt w a = true) : KeepsDebt w a := by
  cases a with
  | loop a =>
      cases a with
      | complete i ok =>
          intro t ht hid
          simp only [keepsDebt, ht, Option.all_some, Bool.and_eq_true, Bool.or_eq_true,
            decide_eq_true_eq] at h
          refine ⟨fun _ => h.1, fun changed hp => ⟨h.1, ?_⟩⟩
          rw [hp] at h
          rcases h.2 with h | h <;> cases h
          exact one_pos
      | recluster order =>
          intro id hid _
          exact of_decide_eq_true (List.all_eq_true.mp h id hid)
      | stop =>
          intro job hjob
          rw [show w.loop.deferred = [] from of_decide_eq_true h] at hjob
          cases hjob
      | _ => trivial
  | repay id ok =>
      intro _
      simpa [keepsDebt] using h
  | _ => trivial

/-- `debt_repaid` where the loop reclusters a project that became quiet. -/
theorem debt_repaid_sample : ∃ w : World, w.loop.phase = .stopped ∧
    w.status "app" = .reclustered ∧ Clustered stages (w.states "app") := by
  have hrun : ((system stages).runOk keepsDebt (start 1) (applied ++
      [.loop (.recluster ["app"]), .recluster 0, .loop (.complete 0 true), .loop .stop,
        .loop .drained, .loop .finish])).map (fun w => (w.loop.phase, w.status "app"))
      = some (.stopped, .reclustered) := by
    decide +kernel
  obtain ⟨w, hw, hends⟩ := Option.map_eq_some_iff.mp hrun
  obtain ⟨hphase, hstatus⟩ := Prod.mk.inj hends
  have hreach := (reach_start stages KeepsDebt 1).runOk keepsDebt_of_check hw
  exact ⟨w, hphase, hstatus, (debt_repaid hreach).2 hphase "app" (by rw [hstatus]; simp)⟩

/-- No recluster of the step fails. -/
def ReclusterSucceeds (w : World) : Action → Prop
  | .loop (.complete i ok) => ∀ t, w.loop.scheduler.tasks[i]? = some t →
      t.job.op = .recluster → ok = true
  | .repay _ ok => ok = true
  | _ => True

/-- A debt may be forgotten: the recluster of a project fails after its entry is gone,
and nothing holds the project; and with all reclusters succeeding, one that waits for a
place in the pool is dropped when the loop ends. -/
theorem debt_lost :
    ¬ (∀ w, (system stages).Reach Lts.anyStep w → ∀ id, w.status id = .owing → Held w id) ∧
    ¬ ∀ w, (system stages).Reach ReclusterSucceeds w → w.loop.phase = .stopped →
      ∀ id, w.status id ≠ .inline → Clustered stages (w.states id) := by
  constructor
  · intro hclaim
    have hrun : ((system stages).run (start 1) (applied ++ [.loop (.recluster ["app"]),
        .loop (.complete 0 false)])).map (fun w => (w.status "app", decide ("app" ∈ w.loop.owes),
          w.loop.scheduler.tasks, w.loop.deferred, w.loop.queue.hasProject "app"))
        = some (.owing, false, [], [], false) := by
      decide +kernel
    obtain ⟨w, hw, hends⟩ := Option.map_eq_some_iff.mp hrun
    simp only [Prod.mk.injEq, decide_eq_false_iff_not] at hends
    obtain ⟨hstatus, howes, htasks, hdeferred, hqueue⟩ := hends
    have hreach := (reach_start stages Lts.anyStep 1).run (fun _ _ _ => trivial) hw
    rcases hclaim w hreach "app" hstatus with ho | ⟨t, ht, -⟩ | ⟨-, ⟨job, hjob, -⟩ | hq⟩
    · exact howes ho
    · rw [htasks] at ht
      cases ht
    · rw [hdeferred] at hjob
      cases hjob
    · rw [hqueue] at hq
      cases hq
  · intro hclaim
    have hrun : ((system stages).runOk
        (fun _ a => match a with
          | .loop (.complete _ ok) | .repay _ ok => ok
          | _ => true)
        (start 1) (applied ++ [.loop (.register ["srv", "lib"]),
          .loop (.submit "lib" (.reconcile false) .fs), .loop .collect, .loop .dispatch,
          -- the pool is full: the recluster waits
          .loop (.recluster ["app"]), .loop .stop, .apply 0 0 none, .loop (.complete 0 true),
          .loop .drained, .loop .finish])).map
          (fun w => (w.loop.phase, w.status "app", decide (w.states "app" = unclustered)))
        = some (.stopped, .owing, true) := by
      decide +kernel
    obtain ⟨w, hw, hends⟩ := Option.map_eq_some_iff.mp hrun
    simp only [Prod.mk.injEq, decide_eq_true_eq] at hends
    obtain ⟨hphase, hstatus, hstate⟩ := hends
    have hreach := (reach_start stages ReclusterSucceeds 1).runOk (fun w a ha => ?_) hw
    · obtain ⟨seed, hseed⟩ := hclaim w hreach hphase "app" (by rw [hstatus]; simp)
      rw [hstate] at hseed
      have hne : (⟨BTreeMap.insertAll ∅ [(⟨"file:a.ts"⟩, 0)], ∅⟩ : Partition) ≠ ⟨∅, ∅⟩ := by
        decide +kernel
      exact hne (Except.ok.inj hseed)
    · cases a with
      | loop a =>
          cases a with
          | complete i ok => exact fun _ _ _ => ha
          | _ => trivial
      | repay id ok => exact ha
      | _ => trivial

end Filigrio.Daemon.Debt
