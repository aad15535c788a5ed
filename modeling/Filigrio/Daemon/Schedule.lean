import Filigrio.Daemon.Loop

/-!
# Filigrio.Daemon.Schedule

What the queue, the deferred list and the pool keep between them (`Lossless`): at most
one job a project and `permits` in all are in flight, every submission is in exactly
one place, and neither a lane nor a project is reordered.
-/

namespace Filigrio.Daemon

/-! ### Dispatching -/

namespace ApplyScheduler

/-- The jobs in flight are within the pool bound, one a project, and marked. -/
structure Pool (s : ApplyScheduler) : Prop where
  nodup : (s.tasks.map fun t => t.job.project.id).Nodup
  marked : ∀ id, id ∈ s.inflight ↔ id ∈ s.tasks.map fun t => t.job.project.id
  bounded : s.tasks.length ≤ s.permits

/-- A job of the project would be deferred. -/
def Blocked (s : ApplyScheduler) (id : String) : Prop :=
  s.inflight.card ≥ s.permits ∨ id ∈ s.inflight

variable {s : ApplyScheduler} {jobs : List ApplyJob} {job : ApplyJob} {id : String}

theorem Pool.card (h : s.Pool) : s.inflight.card = s.tasks.length := by
  have hset : s.inflight = (s.tasks.map fun t => t.job.project.id).toFinset := by
    ext id
    rw [List.mem_toFinset]
    exact h.marked id
  rw [hset, List.toFinset_card_of_nodup h.nodup, List.length_map]

theorem dispatch_blocked (h : s.Blocked job.project.id) :
    s.dispatch (job :: jobs) = ((s.dispatch jobs).1, job :: (s.dispatch jobs).2) := by
  rw [dispatch, if_pos (show _ ∨ _ from h)]

theorem dispatch_free (h : ¬ s.Blocked job.project.id) :
    s.dispatch (job :: jobs) = (s.spawn job).dispatch jobs := by
  rw [dispatch, if_neg (show ¬ (_ ∨ _) from h)]

theorem Pool.spawn (h : s.Pool) (hfree : ¬ s.Blocked job.project.id) : (s.spawn job).Pool := by
  obtain ⟨hroom, hidle⟩ := not_or.mp hfree
  refine ⟨?_, fun id => ?_, ?_⟩
  · rw [ApplyScheduler.spawn, List.map_append, List.nodup_append]
    refine ⟨h.nodup, by simp, fun a ha b hb hab => hidle ?_⟩
    rw [h.marked]
    rw [List.map_singleton, List.mem_singleton] at hb
    exact hb ▸ hab ▸ ha
  · simp only [ApplyScheduler.spawn, Finset.mem_insert, List.map_append, List.mem_append, h.marked,
      List.map_singleton, List.mem_singleton]
    exact or_comm
  · show (s.tasks ++ [_]).length ≤ s.permits
    have := h.card
    simp only [List.length_append, List.length_singleton]
    omega

theorem Pool.dispatch (h : s.Pool) : (s.dispatch jobs).1.Pool := by
  induction jobs generalizing s with
  | nil => exact h
  | cons job jobs ih =>
      by_cases hb : s.Blocked job.project.id
      · rw [dispatch_blocked hb]
        exact ih h
      · rw [dispatch_free hb]
        exact ih (h.spawn hb)

/-- Starting a job only blocks more. -/
theorem Blocked.spawn (h : s.Blocked id) : (s.spawn job).Blocked id := by
  refine h.imp (fun hfull => le_trans hfull (Finset.card_le_card (Finset.subset_insert _ _)))
    (Finset.mem_insert_of_mem)

/-- The jobs that are started, in turn. -/
theorem exists_started (s : ApplyScheduler) (jobs : List ApplyJob) :
    ∃ started, (s.dispatch jobs).1.log = s.log ++ started ∧
    (s.dispatch jobs).1.tasks = s.tasks ++ started.map (⟨·, .running⟩) ∧
    (started ++ (s.dispatch jobs).2).Perm jobs ∧
    (∀ id, s.Blocked id → ∀ job ∈ started, job.project.id ≠ id) ∧
    ∀ id, (started ++ (s.dispatch jobs).2).filter (·.project.id = id)
      = jobs.filter (·.project.id = id) := by
  induction jobs generalizing s with
  | nil => exact ⟨[], by simp [dispatch]⟩
  | cons job jobs ih =>
      by_cases hb : s.Blocked job.project.id
      · obtain ⟨started, hlog, htasks, hperm, hblocked, hfilter⟩ := ih (s := s)
        refine ⟨started, ?_⟩
        rw [dispatch_blocked hb]
        refine ⟨hlog, htasks, List.perm_middle.trans (hperm.cons _), hblocked, fun id => ?_⟩
        by_cases hid : job.project.id = id
        · -- nothing of the blocked project has been started
          have hnone : started.filter (·.project.id = id) = [] :=
            List.filter_eq_nil_iff.mpr fun j hj => by
              simpa using hblocked id (hid ▸ hb) j hj
          have hrest := hfilter id
          rw [List.filter_append, hnone, List.nil_append] at hrest
          rw [List.filter_append, hnone, List.nil_append, List.filter_cons_of_pos (by simpa using hid),
            List.filter_cons_of_pos (by simpa using hid), hrest]
        · have hrest := hfilter id
          rw [List.filter_append] at hrest ⊢
          rw [List.filter_cons_of_neg (by simpa using hid),
            List.filter_cons_of_neg (by simpa using hid), hrest]
      · obtain ⟨started, hlog, htasks, hperm, hblocked, hfilter⟩ := ih (s := s.spawn job)
        refine ⟨job :: started, ?_⟩
        rw [dispatch_free hb]
        refine ⟨?_, ?_, hperm.cons _, fun id hid j hj => ?_, fun id => ?_⟩
        · rw [hlog]
          show s.log ++ [job] ++ started = _
          rw [List.append_assoc, List.singleton_append]
        · rw [htasks]
          show s.tasks ++ [_] ++ _ = _
          rw [List.append_assoc, List.singleton_append, List.map_cons]
        · rcases List.mem_cons.mp hj with rfl | hj
          · rintro rfl
            exact hb hid
          · exact hblocked id hid.spawn j hj
        · rw [List.cons_append, List.filter_cons, List.filter_cons, hfilter id]

end ApplyScheduler

/-! ### The promise -/

/-- The job is of the project, and was made from a queue item. -/
def ApplyJob.of (id : String) (job : ApplyJob) : Bool := job.item.isSome && job.project.id = id

theorem ApplyJob.filter_of (id : String) (jobs : List ApplyJob) :
    jobs.filter (ApplyJob.of id)
      = (jobs.filter (·.project.id = id)).filter fun job => job.item.isSome := by
  rw [List.filter_filter]
  rfl

/-- What the loop keeps. -/
structure Lossless (w : Loop) : Prop where
  /-- At most one job a project is in flight. -/
  onePerProject : (w.scheduler.tasks.map fun t => t.job.project.id).Nodup
  /-- At most `permits` jobs are in flight. -/
  bounded : w.scheduler.tasks.length ≤ w.scheduler.permits
  /-- The tickets number the submissions. -/
  tickets : w.submitted.map QueueItem.ticket = List.range w.submitted.length
  /-- Every submission was dispatched, is deferred or queued, or was skipped: once. -/
  once : ((w.scheduler.log ++ w.deferred).filterMap ApplyJob.item ++ w.queue.items ++
    w.skipped.map Prod.fst).Perm w.submitted
  /-- Only items of projects that were not registered are skipped. -/
  registered : ∀ s ∈ w.skipped, jobOf s.2 s.1 = none
  /-- Items of one project and lane are dispatched in submission order. -/
  laneOrder : w.scheduler.log.Pairwise fun j k => j.project.id = k.project.id →
    ∀ a ∈ j.item, ∀ b ∈ k.item, a.lane = b.lane → a.ticket < b.ticket
  /-- The jobs of a project are dispatched in the order they were collected, and the
  deferred ones come next. -/
  noOvertaking : ∀ id, (w.scheduler.log ++ w.deferred).filter (ApplyJob.of id)
    = w.collected.filter (ApplyJob.of id)

/-! ### The invariant -/

/-- The order of the tickets in what was collected, with what is queued after it. -/
def LaneOrdered (w : Loop) : Prop :=
  ∀ lane, (((w.collected.filterMap ApplyJob.item).filter (·.lane = lane) ++ w.queue.lane lane).map
    QueueItem.ticket).Pairwise (· < ·)

structure LoopInv (w : Loop) : Prop where
  pool : w.scheduler.Pool
  tickets : w.submitted.map QueueItem.ticket = List.range w.submitted.length
  once : ((w.scheduler.log ++ w.deferred).filterMap ApplyJob.item ++ w.queue.items ++
    w.skipped.map Prod.fst).Perm w.submitted
  registered : ∀ s ∈ w.skipped, jobOf s.2 s.1 = none
  lanes : ∀ lane, ∀ item ∈ w.queue.lane lane, item.lane = lane
  ordered : LaneOrdered w
  known : ∀ item ∈ w.collected.filterMap ApplyJob.item, item ∈ w.submitted
  noOvertaking : ∀ id, (w.scheduler.log ++ w.deferred).filter (ApplyJob.of id)
    = w.collected.filter (ApplyJob.of id)

section Steps

variable {w w' : Loop}

/-- Two jobs of a project that were dispatched one after the other were collected so. -/
theorem LoopInv.pair (h : LoopInv w) {j k : ApplyJob} (hsub : [j, k].Sublist w.scheduler.log)
    (hid : j.project.id = k.project.id) (hj : j.item.isSome) (hk : k.item.isSome) :
    [j, k].Sublist w.collected := by
  have hfilter := (hsub.trans (List.sublist_append_left _ w.deferred)).filter
    (ApplyJob.of k.project.id)
  rw [h.noOvertaking, List.filter_cons_of_pos (by simp [ApplyJob.of, hj, hid]),
    List.filter_cons_of_pos (by simp [ApplyJob.of, hk]), List.filter_nil] at hfilter
  exact hfilter.trans List.filter_sublist

theorem LoopInv.lossless (h : LoopInv w) : Lossless w where
  onePerProject := h.pool.nodup
  bounded := h.pool.bounded
  tickets := h.tickets
  once := h.once
  registered := h.registered
  noOvertaking := h.noOvertaking
  laneOrder := by
    refine List.pairwise_iff_forall_sublist.mpr fun {j k} hsub hid a ha b hb hlane => ?_
    have hcollected := h.pair hsub hid (Option.isSome_of_mem ha) (Option.isSome_of_mem hb)
    -- their items stand in this order in the lane
    have hitems : [a, b].Sublist (w.collected.filterMap ApplyJob.item) := by
      have := hcollected.filterMap ApplyJob.item
      rwa [List.filterMap_cons_some ha, List.filterMap_cons_some hb, List.filterMap_nil] at this
    have hfilter := hitems.filter (·.lane = b.lane)
    rw [List.filter_cons_of_pos (by simpa using hlane), List.filter_cons_of_pos (by simp),
      List.filter_nil] at hfilter
    have hordered := (h.ordered b.lane).sublist
      ((hfilter.trans (List.sublist_append_left _ (w.queue.lane b.lane))).map QueueItem.ticket)
    simpa using hordered

theorem loopInv_start (registry : ProjectRegistry) (permits : ℕ) :
    LoopInv (.start registry permits) where
  pool := ⟨by simp [Loop.start, ApplyScheduler.new], by simp [Loop.start, ApplyScheduler.new],
    by simp [Loop.start, ApplyScheduler.new]⟩
  tickets := rfl
  once := by simp [Loop.start, ApplyScheduler.new, PriorityQueue.empty, PriorityQueue.items]
  registered := by simp [Loop.start]
  lanes lane item h := by simp [Loop.start, PriorityQueue.lane_empty] at h
  ordered lane := by simp [Loop.start, PriorityQueue.lane_empty]
  known := by simp [Loop.start]
  noOvertaking id := by simp [Loop.start, ApplyScheduler.new]

theorem ticket_lt (h : LoopInv w) {item : QueueItem} (hitem : item ∈ w.submitted) :
    item.ticket < w.submitted.length := by
  have hmem := List.mem_map_of_mem (f := QueueItem.ticket) hitem
  rw [h.tickets] at hmem
  exact List.mem_range.mp hmem

theorem mem_items_of_lane {q : PriorityQueue} {lane : Priority} {item : QueueItem}
    (h : item ∈ q.lane lane) : item ∈ q.items := by
  cases lane <;> simp_all [PriorityQueue.lane, PriorityQueue.items]

theorem loopInv_submit (h : LoopInv w) (project : String) (produced : Produced) (lane : Priority) :
    LoopInv { w with
      queue := w.queue.submit ⟨project, opOf produced, lane, w.submitted.length⟩
      submitted := w.submitted ++ [⟨project, opOf produced, lane, w.submitted.length⟩] } := by
  have hqueued : ∀ l, ∀ item ∈ w.queue.lane l, item ∈ w.submitted := fun l item hitem =>
    h.once.subset (by simp [mem_items_of_lane hitem])
  refine { h with tickets := ?_, once := ?_, lanes := ?_, ordered := ?_, known := ?_ }
  · simp [h.tickets, List.range_succ]
  · refine List.Perm.trans ?_ (List.perm_append_singleton _ _).symm
    refine (((PriorityQueue.items_submit _).append_left _).append_right _).trans ?_
    refine (List.perm_middle.append_right _).trans ?_
    exact (h.once.cons _)
  · intro l item hitem
    rw [PriorityQueue.lane_submit] at hitem
    split at hitem
    · rename_i hl
      rcases List.mem_append.mp hitem with hitem | hitem
      · exact h.lanes l item hitem
      · exact List.mem_singleton.mp hitem ▸ hl
    · exact h.lanes l item hitem
  · intro l
    show (((w.collected.filterMap ApplyJob.item).filter _ ++ _).map _).Pairwise _
    rw [PriorityQueue.lane_submit]
    split
    · -- the new ticket is larger than every ticket so far
      rw [← List.append_assoc, List.map_append, List.pairwise_append]
      refine ⟨h.ordered l, by simp, fun a ha b hb => ?_⟩
      rw [List.map_singleton, List.mem_singleton] at hb
      subst hb
      obtain ⟨item, hitem, rfl⟩ := List.mem_map.mp ha
      rcases List.mem_append.mp hitem with hitem | hitem
      · exact ticket_lt h (h.known item (List.mem_of_mem_filter hitem))
      · exact ticket_lt h (hqueued l item hitem)
    · exact h.ordered l
  · intro item hitem
    exact List.mem_append_left _ (h.known item hitem)

theorem filterMap_jobOf_item (r : ProjectRegistry) (items : List QueueItem) :
    (items.filterMap (jobOf r)).filterMap ApplyJob.item
      = items.filter fun item => (jobOf r item).isSome := by
  induction items with
  | nil => rfl
  | cons item items ih =>
      cases hjob : jobOf r item with
      | none => simp [hjob, ih]
      | some job => simp [hjob, jobOf_item hjob, ih]

/-- The items of one lane stand in the queue in its order. -/
theorem filter_items {q : PriorityQueue} (h : ∀ lane, ∀ item ∈ q.lane lane, item.lane = lane)
    (lane : Priority) : q.items.filter (·.lane = lane) = q.lane lane := by
  have hown : ∀ l, (q.lane l).filter (·.lane = lane) = if l = lane then q.lane l else [] := by
    intro l
    split
    · rename_i hl
      subst hl
      exact List.filter_eq_self.mpr fun item hitem => by simpa using h l item hitem
    · rename_i hl
      exact List.filter_eq_nil_iff.mpr fun item hitem => by
        rw [h l item hitem]
        simpa using hl
  have hm := hown .manual
  have hg := hown .git
  have hf := hown .fs
  simp only [PriorityQueue.lane] at hm hg hf
  rw [PriorityQueue.items, List.filter_append, List.filter_append, hm, hg, hf]
  cases lane <;> simp [PriorityQueue.lane]

theorem loopInv_collect (h : LoopInv w) : LoopInv { w with
    queue := .empty
    deferred := w.deferred ++ w.queue.items.filterMap (jobOf w.registry)
    skipped := w.skipped ++ (w.queue.items.filter fun item => (jobOf w.registry item).isNone).map
      fun item => (item, w.registry)
    collected := w.collected ++ w.queue.items.filterMap (jobOf w.registry) } := by
  refine
    { h with
      once := ?_
      registered := ?_
      lanes := ?_
      ordered := ?_
      known := ?_
      noOvertaking := ?_ }
  · -- the queued items are split into the jobs made and the items skipped
    have hsplit : ((w.queue.items.filter fun item => (jobOf w.registry item).isSome) ++
        w.queue.items.filter fun item => (jobOf w.registry item).isNone).Perm w.queue.items := by
      have := List.filter_append_perm (fun item => (jobOf w.registry item).isSome) w.queue.items
      simpa only [Option.not_isSome] using this
    show ((w.scheduler.log ++ (w.deferred ++ _)).filterMap _ ++ [] ++ (w.skipped ++ _).map _).Perm _
    rw [List.append_nil, ← List.append_assoc, List.filterMap_append, filterMap_jobOf_item,
      List.map_append, List.map_map, List.append_assoc]
    have hfst : List.map (Prod.fst ∘ fun item => (item, w.registry))
        (w.queue.items.filter fun item => (jobOf w.registry item).isNone)
          = w.queue.items.filter fun item => (jobOf w.registry item).isNone := by
      simp [Function.comp_def]
    rw [hfst]
    refine List.Perm.trans (List.Perm.append_left _ ?_) (List.append_assoc .. ▸ h.once)
    refine (List.Perm.append_left _ List.perm_append_comm).trans ?_
    rw [← List.append_assoc]
    exact hsplit.append_right _
  · intro s hs
    rcases List.mem_append.mp hs with hs | hs
    · exact h.registered s hs
    · obtain ⟨item, hitem, rfl⟩ := List.mem_map.mp hs
      exact Option.isNone_iff_eq_none.mp (List.mem_filter.mp hitem).2
  · intro lane item hitem
    simp [PriorityQueue.lane_empty] at hitem
  · intro lane
    show (((w.collected ++ _).filterMap ApplyJob.item).filter _ ++ _).map _ |>.Pairwise _
    rw [List.filterMap_append, filterMap_jobOf_item, List.filter_append, PriorityQueue.lane_empty,
      List.append_nil, List.filter_comm, filter_items h.lanes]
    exact (h.ordered lane).sublist
      ((List.Sublist.append_left List.filter_sublist _).map _)
  · intro item hitem
    rw [List.filterMap_append, filterMap_jobOf_item] at hitem
    rcases List.mem_append.mp hitem with hitem | hitem
    · exact h.known item hitem
    · exact h.once.subset (by simp [List.mem_of_mem_filter hitem])
  · intro id
    show (w.scheduler.log ++ (w.deferred ++ _)).filter _ = _
    rw [← List.append_assoc, List.filter_append (w.scheduler.log ++ w.deferred), h.noOvertaking,
      ← List.filter_append]

theorem loopInv_dispatch (h : LoopInv w) : LoopInv { w with
    scheduler := (w.scheduler.dispatch w.deferred).1
    deferred := (w.scheduler.dispatch w.deferred).2 } := by
  obtain ⟨started, hlog, -, hperm, -, hfilter⟩ :=
    ApplyScheduler.exists_started w.scheduler w.deferred
  refine { h with pool := h.pool.dispatch, once := ?_, noOvertaking := ?_ }
  · show (((w.scheduler.dispatch w.deferred).1.log ++ _).filterMap _ ++ _ ++ _).Perm _
    rw [hlog, List.append_assoc w.scheduler.log]
    exact ((((hperm.append_left _).filterMap _).append_right _).append_right _).trans h.once
  · intro id
    show ((w.scheduler.dispatch w.deferred).1.log ++ _).filter _ = _
    rw [hlog, List.append_assoc, List.filter_append, ApplyJob.filter_of id (started ++ _),
      hfilter id, ← ApplyJob.filter_of, ← List.filter_append]
    exact h.noOvertaking id

/-- The recluster jobs are made from no item. -/
theorem item_of_reclusterJobs {order : List String} {job : ApplyJob}
    (h : job ∈ w.reclusterJobs order) : job.item = none := by
  obtain ⟨id, hid, hjob⟩ := List.mem_filterMap.mp h
  simp only [makeJob, Option.bind_eq_bind, Option.bind_eq_some_iff, Option.pure_def,
    Option.some.injEq] at hjob
  obtain ⟨_, -, _, -, rfl⟩ := hjob
  rfl

theorem loopInv_recluster (h : LoopInv w) (order : List String) : LoopInv { w with
    owes := w.owes \ w.quiet
    scheduler := (w.scheduler.dispatch (w.reclusterJobs order)).1
    deferred := w.deferred ++ (w.scheduler.dispatch (w.reclusterJobs order)).2 } := by
  obtain ⟨started, hlog, -, hperm, -, -⟩ :=
    ApplyScheduler.exists_started w.scheduler (w.reclusterJobs order)
  -- none of the new jobs stands for an item
  have hnone : ∀ job ∈ started ++ (w.scheduler.dispatch (w.reclusterJobs order)).2,
      job.item = none := fun job hjob => item_of_reclusterJobs (hperm.subset hjob)
  have hstarted : ∀ job ∈ started, job.item = none := fun job hjob =>
    hnone job (List.mem_append_left _ hjob)
  have hrest : ∀ job ∈ (w.scheduler.dispatch (w.reclusterJobs order)).2, job.item = none :=
    fun job hjob => hnone job (List.mem_append_right _ hjob)
  refine { h with pool := h.pool.dispatch, once := ?_, noOvertaking := ?_ }
  · show (((w.scheduler.dispatch (w.reclusterJobs order)).1.log ++ (w.deferred ++ _)).filterMap _ ++
      _ ++ _).Perm _
    have hitems : ((w.scheduler.dispatch (w.reclusterJobs order)).1.log ++ (w.deferred ++
        (w.scheduler.dispatch (w.reclusterJobs order)).2)).filterMap ApplyJob.item
          = (w.scheduler.log ++ w.deferred).filterMap ApplyJob.item := by
      rw [hlog]
      simp only [List.filterMap_append, List.filterMap_eq_nil_iff.mpr hstarted,
        List.filterMap_eq_nil_iff.mpr hrest, List.append_nil]
    rw [hitems]
    exact h.once
  · intro id
    show ((w.scheduler.dispatch (w.reclusterJobs order)).1.log ++ (w.deferred ++ _)).filter _ = _
    have hfilter : ∀ jobs : List ApplyJob, (∀ job ∈ jobs, job.item = none) →
        jobs.filter (ApplyJob.of id) = [] := fun jobs hjobs =>
      List.filter_eq_nil_iff.mpr fun job hjob => by simp [ApplyJob.of, hjobs job hjob]
    rw [hlog, List.filter_append, List.filter_append, List.filter_append, hfilter started hstarted,
      hfilter _ hrest, List.append_nil, List.append_nil, ← List.filter_append]
    exact h.noOvertaking id

/-- What a task does leaves the pool as it is. -/
theorem ApplyScheduler.Pool.work {s : ApplyScheduler} (h : s.Pool) {i : ℕ} {t t' : Task}
    (hi : s.tasks[i]? = some t) (hid : t'.job.project.id = t.job.project.id) :
    ({ s with tasks := s.tasks.set i t' } : ApplyScheduler).Pool := by
  have hmap : (s.tasks.set i t').map (fun t => t.job.project.id)
      = s.tasks.map fun t => t.job.project.id := by
    have hget : (s.tasks.map fun t => t.job.project.id)[i]? = some t.job.project.id := by
      rw [List.getElem?_map, hi]
      rfl
    obtain ⟨hlt, hself⟩ := List.getElem?_eq_some_iff.mp hget
    rw [List.map_set, hid, ← hself]
    exact List.set_getElem_self hlt
  refine ⟨?_, fun id => ?_, ?_⟩
  · show ((s.tasks.set i t').map _).Nodup
    rw [hmap]
    exact h.nodup
  · show id ∈ s.inflight ↔ id ∈ (s.tasks.set i t').map _
    rw [hmap]
    exact h.marked id
  · show (s.tasks.set i t').length ≤ s.permits
    rw [List.length_set]
    exact h.bounded

/-- A task that ends clears its project's mark. -/
theorem ApplyScheduler.Pool.join {s : ApplyScheduler} (h : s.Pool) {i : ℕ} {t : Task}
    (hi : s.tasks[i]? = some t) : (s.join i t).Pool := by
  obtain ⟨hlt, rfl⟩ := List.getElem?_eq_some_iff.mp hi
  have hperm := (List.getElem_cons_eraseIdx_perm hlt).map fun t : Task => t.job.project.id
  rw [List.map_cons] at hperm
  obtain ⟨hnot, hnodup⟩ := List.nodup_cons.mp (hperm.nodup_iff.mpr h.nodup)
  refine ⟨hnodup, fun id => ?_, ?_⟩
  · show id ∈ s.inflight.erase _ ↔ _
    rw [Finset.mem_erase, h.marked, ← hperm.mem_iff, List.mem_cons]
    constructor
    · rintro ⟨hne, h | h⟩
      · exact absurd h hne
      · exact h
    · intro hid
      exact ⟨fun heq => hnot (heq ▸ hid), Or.inr hid⟩
  · show (s.tasks.eraseIdx i).length ≤ s.permits
    exact (List.length_eraseIdx_le ..).trans h.bounded

theorem loopInv_step {a : Loop.Action} (h : LoopInv w) (hstep : w.step a = some w') :
    LoopInv w' := by
  cases a with
  | register root =>
      obtain ⟨r, -, rfl⟩ := Option.map_eq_some_iff.mp hstep
      exact { h with }
  | remove id =>
      obtain ⟨r, -, rfl⟩ := Option.map_eq_some_iff.mp hstep
      exact { h with }
  | setWatch id b =>
      obtain ⟨r, -, rfl⟩ := Option.map_eq_some_iff.mp hstep
      exact { h with }
  | submit project produced lane =>
      obtain ⟨-, hstep⟩ := Option.ite_none_right_eq_some.mp hstep
      cases hstep
      exact loopInv_submit h project produced lane
  | collect =>
      obtain ⟨-, hstep⟩ := Option.ite_none_right_eq_some.mp hstep
      rw [PriorityQueue.popAll_eq le_rfl] at hstep
      cases hstep
      exact loopInv_collect h
  | dispatch =>
      obtain ⟨-, hstep⟩ := Option.ite_none_right_eq_some.mp hstep
      cases hstep
      exact loopInv_dispatch h
  | recluster order =>
      obtain ⟨-, hstep⟩ := Option.ite_none_right_eq_some.mp hstep
      cases hstep
      exact loopInv_recluster h order
  | work i progress =>
      simp only [Loop.step] at hstep
      split at hstep
      · rename_i job hi
        obtain ⟨-, hstep⟩ := Option.ite_none_right_eq_some.mp hstep
        cases hstep
        exact { h with pool := h.pool.work hi rfl }
      · cases hstep
  | complete i ok =>
      obtain ⟨-, hstep⟩ := Option.ite_none_right_eq_some.mp hstep
      split at hstep
      · rename_i t hi
        have hjoined : LoopInv { w with scheduler := w.scheduler.join i t } :=
          { h with pool := h.pool.join hi }
        dsimp only at hstep
        split at hstep
        · split at hstep
          · cases hstep
          · split at hstep
            · cases hstep
              exact { hjoined with }
            · cases hstep
              exact hjoined
          · cases hstep
            exact hjoined
        · cases hstep
          exact hjoined
      · cases hstep
  | stop =>
      obtain ⟨-, hstep⟩ := Option.ite_none_right_eq_some.mp hstep
      cases hstep
      exact { h with }
  | drained =>
      obtain ⟨-, hstep⟩ := Option.ite_none_right_eq_some.mp hstep
      cases hstep
      exact { h with }
  | owed id =>
      obtain ⟨-, hstep⟩ := Option.ite_none_right_eq_some.mp hstep
      cases hstep
      exact { h with }
  | finish =>
      obtain ⟨-, hstep⟩ := Option.ite_none_right_eq_some.mp hstep
      cases hstep
      exact { h with }

end Steps

/-- **Scheduling loses nothing.** In every run of the loop, with any submissions, ticks,
dispatches, completions and registry changes in any order, `Lossless` holds. -/
theorem scheduling_lossless {w : Loop} (h : loopSystem.Reach Lts.anyStep w) : Lossless w := by
  refine LoopInv.lossless (h.invariant ?_ ?_)
  · rintro w ⟨registry, permits, -, rfl⟩
    exact loopInv_start registry permits
  · intro w a w' hinv _ hstep
    exact loopInv_step hinv hstep

/-- `scheduling_lossless` where two projects share a pool of two: the second job of one
waits for its first. -/
theorem scheduling_lossless_sample : ∃ w : Loop,
    w.scheduler.log.map (fun job => job.project.id) = ["app", "lib"] ∧
    w.deferred.map (fun job => job.project.id) = ["app"] ∧ Lossless w := by
  have hrun : (loopSystem.run (.start ∅ 2) [.register ["srv", "app"], .register ["srv", "lib"],
      .submit "app" (.signal ⟨["a.ts"], [], []⟩) .fs, .submit "app" (.reconcile false) .fs,
      .submit "lib" (.reconcile false) .fs, .submit "gone" (.reconcile false) .fs, .collect,
      .dispatch]).map (fun w => (w.scheduler.log.map fun job => job.project.id,
        w.deferred.map fun job => job.project.id)) = some (["app", "lib"], ["app"]) := by
    decide +kernel
  obtain ⟨w, hw, hends⟩ := Option.map_eq_some_iff.mp hrun
  obtain ⟨hlog, hdeferred⟩ := Prod.mk.inj hends
  exact ⟨w, hlog, hdeferred, scheduling_lossless (.run
    (.init ⟨∅, 2, fun id p hp => by simp at hp, rfl⟩) (fun _ _ _ => trivial) hw)⟩

end Filigrio.Daemon
