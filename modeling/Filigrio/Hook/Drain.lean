import Filigrio.Hook.Deliver

/-!
# Filigrio.Hook.Drain

Does a replay drain the spool? A changeset over the wire limit is spooled like any other,
and no connection will ever take it: the pass stops there, and whatever is behind it stays.
A pass drains the spool, in push order, exactly when every job fits the wire and the names
grew with the pushes (`replay_drains_iff`).
-/

namespace Filigrio.Hook

variable {spool spool' : SpoolDir} {name path : String} {job : SpooledJob} {paths : List String}
  {pass : Pass} {attempts : String → Attempt}

/-! ### One pass -/

/-- The readable jobs of a listing. -/
def SpoolDir.readable (spool : SpoolDir) (paths : List String) : List (String × SpooledJob) :=
  paths.filterMap fun path => (spool.read path).toOption.map fun job => (path, job)

theorem SpoolDir.mem_readable :
    (path, job) ∈ spool.readable paths ↔ path ∈ paths ∧ spool.read path = .ok job := by
  simp only [readable, List.mem_filterMap, Option.map_eq_some_iff, Prod.mk.injEq]
  constructor
  · rintro ⟨p, hp, j, hj, rfl, rfl⟩
    refine ⟨hp, ?_⟩
    cases hread : spool.read p with
    | error e => simp [hread, Except.toOption] at hj
    | ok found => simpa [hread, Except.toOption] using hj
  · intro ⟨hp, hread⟩
    exact ⟨path, hp, job, by simp [hread, Except.toOption], rfl, rfl⟩

theorem SpoolDir.names_readable_sublist (spool : SpoolDir) (paths : List String) :
    ((spool.readable paths).map Prod.fst).Sublist paths := by
  induction paths with
  | nil => exact List.Sublist.slnil
  | cons path rest ih =>
      cases hread : spool.read path with
      | error e =>
          simpa [SpoolDir.readable, hread, Except.toOption] using ih.cons path
      | ok job =>
          simpa [SpoolDir.readable, hread, Except.toOption] using ih.cons_cons path

theorem SpoolDir.read_remove (hne : path ≠ name) :
    (spool.remove path).read name = .ok job ↔ spool.read name = .ok job := by
  apply read_congr
  rw [files_remove, if_neg hne]

theorem SpoolDir.readable_remove (hnot : path ∉ paths) :
    (spool.remove path).readable paths = spool.readable paths := by
  apply List.filterMap_congr
  intro name hmem
  have hne : path ≠ name := fun h => hnot (h ▸ hmem)
  have hfiles : (spool.remove path).files[name]? = spool.files[name]? := by
    rw [files_remove, if_neg hne]
  simp only [read, hfiles]
  rfl

/-- No pass removes a job that does not fit. -/
theorem replayJobs_keeps (hfits : ¬ job.Fits) (paths : List String)
    (hread : pass.spool.read name = .ok job) :
    (replayJobs attempts paths pass).spool.read name = .ok job := by
  induction paths generalizing pass with
  | nil => exact hread
  | cons path rest ih =>
      unfold replayJobs
      split
      · rename_i reason herror
        have hne : path ≠ name := by
          rintro rfl
          rw [hread] at herror
          cases herror
        exact ih ((SpoolDir.read_remove hne).mpr hread)
      · rename_i found hfound
        split
        · rename_i hsent
          have hne : path ≠ name := by
            rintro rfl
            cases hread.symm.trans hfound
            obtain ⟨reason, hreason⟩ := fireAndForget_error (attempts path) hfits
            cases hreason.symm.trans hsent
          exact ih ((SpoolDir.read_remove hne).mpr hread)
        · exact hread

/-- What a pass that nothing stops does: the readable jobs are sent, the others discarded. -/
def Pass.drained (pass : Pass) (paths : List String) : Pass where
  spool := pass.spool.removeAll paths
  out := {
    delivered := pass.out.delivered + (pass.spool.readable paths).length
    discarded := pass.out.discarded + (paths.length - (pass.spool.readable paths).length)
    remaining := pass.out.remaining }
  sent := pass.sent ++ (pass.spool.readable paths).map fun e => (e.1, e.2.submit)

theorem SpoolDir.length_readable_le (spool : SpoolDir) (paths : List String) :
    (spool.readable paths).length ≤ paths.length := List.length_filterMap_le _ _

theorem replayJobs_drains (hnodup : paths.Nodup)
    (hfit : ∀ path ∈ paths, ∀ job, pass.spool.read path = .ok job → job.Fits) :
    replayJobs (fun _ => .accepted) paths pass = pass.drained paths := by
  induction paths generalizing pass with
  | nil => simp [replayJobs, Pass.drained, SpoolDir.readable, SpoolDir.removeAll]
  | cons path rest ih =>
      obtain ⟨hnot, hrest⟩ := List.nodup_cons.mp hnodup
      have hfit' : ∀ q ∈ rest, ∀ job, (pass.spool.remove path).read q = .ok job → job.Fits := by
        intro q hq job hread
        have hne : path ≠ q := fun h => hnot (h ▸ hq)
        exact hfit q (List.mem_cons_of_mem path hq) job ((SpoolDir.read_remove hne).mp hread)
      have hle := pass.spool.length_readable_le rest
      unfold replayJobs
      split
      · rename_i reason herror
        rw [ih hrest hfit']
        have hcons : pass.spool.readable (path :: rest) = pass.spool.readable rest := by
          simp [SpoolDir.readable, herror, Except.toOption]
        simp only [Pass.drained, SpoolDir.readable_remove hnot, hcons, List.length_cons,
          Pass.mk.injEq, Replay.mk.injEq]
        exact ⟨rfl, ⟨trivial, by omega, trivial⟩, trivial⟩
      · rename_i job hread
        have hcons : pass.spool.readable (path :: rest) = (path, job) :: pass.spool.readable rest := by
          simp [SpoolDir.readable, hread, Except.toOption]
        rcases fireAndForget_accepted job with ⟨hok, _⟩ | ⟨_, hover⟩
        · rw [hok]
          show replayJobs _ rest _ = _
          rw [ih hrest hfit']
          simp only [Pass.drained, SpoolDir.readable_remove hnot, hcons, List.length_cons,
            List.map_cons, List.append_assoc, Pass.mk.injEq, Replay.mk.injEq]
          exact ⟨rfl, ⟨by omega, by omega, trivial⟩, rfl⟩
        · exact absurd (hfit path List.mem_cons_self job hread) hover

/-! ### Runs of the hooks -/

/-- The spool, and the jobs that runs of `deliver` put there and that are still there, in
the order of the pushes. -/
structure Hooks where
  spool : SpoolDir
  pushed : List (String × SpooledJob)

inductive HookStep
  /-- A changeset goes down the ladder. -/
  | deliver (attempt : Attempt) (env : PushEnv) (project event : String) (changeset : ChangeSet)
  /-- A replay, with whatever the socket does at each job. -/
  | replay (attempts : String → Attempt)
  /-- A file that `read` refuses, or one that is not a job at all, appears. -/
  | plant (name : String) (contents : Contents)

/-- `read` refuses a file of these contents. -/
def Contents.Refused : Contents → Prop
  | .unparsable => True
  | .job job => job.format ≠ FORMAT

instance : (contents : Contents) → Decidable contents.Refused
  | .unparsable => inferInstanceAs (Decidable True)
  | .job job => inferInstanceAs (Decidable (job.format ≠ FORMAT))

/-- The record of the pushes, without those whose file is gone. -/
def kept (spool : SpoolDir) (pushed : List (String × SpooledJob)) : List (String × SpooledJob) :=
  pushed.filter fun e => e.1 ∈ spool.jobs

/-- A push replaces a job of its name. -/
def record (pushed : List (String × SpooledJob)) (name : String) (job : SpooledJob) :
    List (String × SpooledJob) :=
  (pushed.filter fun e => e.1 ≠ name) ++ [(name, job)]

/-- Only a delivery that came to rest in the spool was a push. -/
def recordOf (pushed : List (String × SpooledJob)) (name : String) (job : SpooledJob) :
    Delivery → List (String × SpooledJob)
  | .spooled _ => record pushed name job
  | _ => pushed

def Hooks.step (s : Hooks) : HookStep → Option Hooks
  | .deliver attempt env project event changeset =>
      let after := Hook.deliver attempt env s.spool project event changeset
      let job := SpooledJob.new project event env.created changeset
      some ⟨after.2, kept after.2 (recordOf s.pushed env.final job after.1)⟩
  | .replay attempts =>
      let pass := Hook.replay attempts s.spool
      some ⟨pass.spool, kept pass.spool s.pushed⟩
  | .plant name contents =>
      if s.spool.files[name]? = none ∧ (hasExtension name "json" = true → contents.Refused) then
        some { s with spool := s.spool.write name contents }
      else none

/-- Hooks over one spool, which starts empty. -/
def hooks : Lts Hooks HookStep where
  init s := s.spool.files = ∅ ∧ s.pushed = []
  step := Hooks.step

/-- The record names each readable job of the spool once, and nothing else. -/
structure Tracks (spool : SpoolDir) (pushed : List (String × SpooledJob)) : Prop where
  nodup : (pushed.map Prod.fst).Nodup
  mem_iff : ∀ name job, (name, job) ∈ pushed ↔
    hasExtension name "json" = true ∧ spool.read name = .ok job

variable {pushed : List (String × SpooledJob)}

/-- Each job file is as before, or gone. -/
def Shrinks (spool spool' : SpoolDir) : Prop :=
  ∀ name, hasExtension name "json" = true →
    spool'.files[name]? = none ∨ spool'.files[name]? = spool.files[name]?

theorem tracks_kept (h : Tracks spool pushed) (hshrink : Shrinks spool spool') :
    Tracks spool' (kept spool' pushed) where
  nodup := h.nodup.sublist (List.filter_sublist.map Prod.fst)
  mem_iff name job := by
    simp only [kept, List.mem_filter, decide_eq_true_eq, h.mem_iff, SpoolDir.mem_jobs_iff]
    constructor
    · intro ⟨⟨hjson, hread⟩, ⟨contents, hfile⟩, _⟩
      refine ⟨hjson, ?_⟩
      rcases hshrink name hjson with hgone | hsame
      · rw [hfile] at hgone
        cases hgone
      · exact (SpoolDir.read_congr hsame).mpr hread
    · intro ⟨hjson, hread⟩
      obtain ⟨hfile, _⟩ := SpoolDir.read_eq_ok.mp hread
      refine ⟨⟨hjson, ?_⟩, ⟨_, hfile⟩, hjson⟩
      rcases hshrink name hjson with hgone | hsame
      · rw [hfile] at hgone
        cases hgone
      · exact (SpoolDir.read_congr hsame).mp hread

theorem tracks_record (h : Tracks spool pushed) (hjson : hasExtension name "json" = true)
    (hformat : job.format = FORMAT) :
    Tracks (spool.write name (.job job)) (record pushed name job) where
  nodup := by
    rw [record, List.map_append, List.nodup_append]
    refine ⟨h.nodup.sublist (List.filter_sublist.map Prod.fst), List.nodup_singleton _, ?_⟩
    intro a ha b hb
    obtain ⟨e, he, rfl⟩ := List.mem_map.mp ha
    cases List.mem_singleton.mp hb
    simpa using (List.mem_filter.mp he).2
  mem_iff other found := by
    simp only [record, List.mem_append, List.mem_filter, decide_eq_true_eq, h.mem_iff,
      List.mem_singleton, Prod.mk.injEq, SpoolDir.read_eq_ok, SpoolDir.files_write]
    by_cases hname : name = other
    · subst hname
      simp only [ne_eq, not_true_eq_false, and_false, false_or, true_and, if_true, hjson,
        Option.some.injEq, Contents.job.injEq]
      exact ⟨fun heq => ⟨heq.symm, heq ▸ hformat⟩, fun heq => heq.1.symm⟩
    · simp [hname, Ne.symm hname]

theorem tracks_plant {contents : Contents} (h : Tracks spool pushed)
    (habsent : spool.files[name]? = none)
    (hrefused : hasExtension name "json" = true → contents.Refused) :
    Tracks (spool.write name contents) pushed where
  nodup := h.nodup
  mem_iff other job := by
    rw [h.mem_iff]
    refine and_congr_right fun hjson => ?_
    rw [SpoolDir.read_eq_ok, SpoolDir.read_eq_ok, SpoolDir.files_write]
    by_cases hname : name = other
    · subst hname
      simp only [habsent, if_true, Option.some.injEq, reduceCtorEq, false_and, false_iff, not_and]
      intro hjob
      have := hrefused hjson
      rw [hjob] at this
      exact this
    · rw [if_neg hname]

/-! ### Each step keeps the record -/

theorem shrinks_refl (spool : SpoolDir) : Shrinks spool spool := fun _ _ => Or.inr rfl

theorem shrinks_write_tmp (spool : SpoolDir) (env : PushEnv) (contents : Contents) :
    Shrinks spool (spool.write env.tmp contents) := by
  intro name hjson
  rw [SpoolDir.files_write, if_neg (PushEnv.tmp_ne hjson)]
  exact Or.inr rfl

theorem shrinks_removeAll (spool : SpoolDir) (names : List String) :
    Shrinks spool (spool.removeAll names) := by
  intro name _
  rw [SpoolDir.files_removeAll]
  by_cases hmem : name ∈ names
  · exact Or.inl (if_pos hmem)
  · exact Or.inr (if_neg hmem)

theorem shrinks_enforceCap (spool : SpoolDir) : Shrinks spool spool.enforceCap :=
  shrinks_removeAll spool spool.excess

theorem Shrinks.trans {spool₁ spool₂ spool₃ : SpoolDir} (h : Shrinks spool₁ spool₂)
    (h' : Shrinks spool₂ spool₃) : Shrinks spool₁ spool₃ := by
  intro name hjson
  rcases h' name hjson with hgone | hsame
  · exact Or.inl hgone
  · rw [hsame]
    exact h name hjson

/-- A pass only removes files. -/
theorem shrinks_replayJobs (paths : List String) (pass : Pass) :
    Shrinks pass.spool (replayJobs attempts paths pass).spool := by
  induction paths generalizing pass with
  | nil => exact shrinks_refl _
  | cons path rest ih =>
      have hremove : Shrinks pass.spool (pass.spool.remove path) := shrinks_removeAll _ [path]
      unfold replayJobs
      split
      · exact hremove.trans (ih _)
      · split
        · exact hremove.trans (ih _)
        · exact shrinks_refl _

theorem shrinks_replay (spool : SpoolDir) : Shrinks spool (replay attempts spool).spool :=
  (shrinks_removeAll _ _).trans (shrinks_replayJobs _ _)

/-- A push that fails touches no job, and one that does not writes its job and may drop
others. -/
theorem push_cases (spool : SpoolDir) (env : PushEnv) (job : SpooledJob) :
    (∃ chain, (spool.push env job).1 = .error chain ∧ Shrinks spool (spool.push env job).2) ∨
      (spool.push env job).1 = .ok (spool.path env.final) ∧
        Shrinks (spool.write env.final (.job job)) (spool.push env job).2 := by
  unfold SpoolDir.push
  split
  · exact Or.inl ⟨_, rfl, shrinks_refl _⟩
  · refine Or.inl ⟨_, rfl, ?_⟩
    dsimp only
    split
    · exact shrinks_write_tmp spool env .unparsable
    · exact shrinks_refl _
  · exact Or.inl ⟨_, rfl, shrinks_write_tmp spool env (.job job)⟩
  · rw [SpoolDir.rename_write]
    refine Or.inr ⟨rfl, ?_⟩
    dsimp only
    refine Shrinks.trans ?_ (shrinks_enforceCap _)
    intro name hjson
    simp only [SpoolDir.files_write, SpoolDir.files_remove, if_neg (PushEnv.tmp_ne hjson)]
    exact Or.inr trivial

/-- The ladder leaves the jobs alone, or writes the changeset's and may drop others. -/
theorem deliver_cases (attempt : Attempt) (env : PushEnv) (spool : SpoolDir)
    (project event : String) (changeset : ChangeSet) :
    let after := deliver attempt env spool project event changeset
    let job := SpooledJob.new project event env.created changeset
    (Shrinks spool after.2 ∧ ∀ pushed, recordOf pushed env.final job after.1 = pushed) ∨
      (Shrinks (spool.write env.final (.job job)) after.2 ∧
        ∀ pushed, recordOf pushed env.final job after.1 = record pushed env.final job) := by
  unfold deliver
  generalize fireAndForget attempt (submit project changeset) = answer
  generalize SpooledJob.new project event env.created changeset = job
  cases answer with
  | ok sent => exact Or.inl ⟨shrinks_refl _, fun _ => rfl⟩
  | error reason =>
      have hpush := push_cases spool env job
      generalize spool.push env job = result at hpush
      obtain ⟨result, spool'⟩ := result
      rcases hpush with ⟨chain, herr, hshrink⟩ | ⟨hok, hshrink⟩
      · simp only at herr
        subst herr
        exact Or.inl ⟨hshrink, fun _ => rfl⟩
      · simp only at hok
        subst hok
        exact Or.inr ⟨hshrink, fun _ => rfl⟩

theorem step_deliver (s : Hooks) (attempt : Attempt) (env : PushEnv) (project event : String)
    (changeset : ChangeSet) :
    hooks.step s (.deliver attempt env project event changeset) = some
      ⟨(deliver attempt env s.spool project event changeset).2,
        kept (deliver attempt env s.spool project event changeset).2
          (recordOf s.pushed env.final (SpooledJob.new project event env.created changeset)
            (deliver attempt env s.spool project event changeset).1)⟩ := rfl

theorem step_replay (s : Hooks) (attempts : String → Attempt) :
    hooks.step s (.replay attempts) = some
      ⟨(replay attempts s.spool).spool, kept (replay attempts s.spool).spool s.pushed⟩ := rfl

theorem tracks_step {s s' : Hooks} {a : HookStep} (h : Tracks s.spool s.pushed)
    (hstep : hooks.step s a = some s') : Tracks s'.spool s'.pushed := by
  cases a with
  | deliver attempt env project event changeset =>
      have hformat := SpooledJob.format_new project event env.created changeset
      have hcases := deliver_cases attempt env s.spool project event changeset
      rw [step_deliver, Option.some.injEq] at hstep
      subst hstep
      dsimp only at hcases ⊢
      generalize deliver attempt env s.spool project event changeset = after at hcases ⊢
      rcases hcases with ⟨hshrink, hrecord⟩ | ⟨hshrink, hrecord⟩
      · rw [hrecord]
        exact tracks_kept h hshrink
      · rw [hrecord]
        exact tracks_kept (tracks_record h env.final_json hformat) hshrink
  | replay attempts =>
      have hshrink : Shrinks s.spool (replay attempts s.spool).spool := shrinks_replay s.spool
      rw [step_replay, Option.some.injEq] at hstep
      subst hstep
      exact tracks_kept h hshrink
  | plant name contents =>
      simp only [hooks, Hooks.step] at hstep
      split at hstep
      · rename_i hguard
        cases hstep
        exact tracks_plant h hguard.1 hguard.2
      · cases hstep

theorem tracks_of_reach {s : Hooks} (h : hooks.Reach Lts.anyStep s) : Tracks s.spool s.pushed := by
  apply h.invariant (I := fun s => Tracks s.spool s.pushed)
  · intro s ⟨hempty, hnone⟩
    rw [hnone]
    refine ⟨List.nodup_nil, fun name job => ?_⟩
    simp [SpoolDir.read_eq_ok, hempty]
  · intro s a s' hs _ hstep
    exact tracks_step hs hstep

/-! ### When a pass drains the spool -/

def Hooks.fitting (s : Hooks) : List (String × SpooledJob) := s.pushed.filter fun e => e.2.Fits

/-- A pass whose every connection and write is accepted leaves no job behind: what fits the
wire is delivered once, in push order, and the rest is discarded. -/
structure Drained (s : Hooks) : Prop where
  none_left : (replay (fun _ => .accepted) s.spool).spool.jobs = []
  sent : (replay (fun _ => .accepted) s.spool).sent = s.fitting.map fun e => (e.1, e.2.submit)
  out : (replay (fun _ => .accepted) s.spool).out
    = ⟨s.fitting.length, s.spool.jobs.length - s.fitting.length, 0⟩

/-- Every job fits the wire. -/
def AllFit (s : Hooks) : Prop := ∀ e ∈ s.pushed, e.2.Fits

/-- The names grew with the pushes. -/
def InPushOrder (s : Hooks) : Prop := (s.pushed.map Prod.fst).Pairwise (· < ·)

section Pass

variable {s : Hooks}

theorem mem_readable_sweep (h : Tracks s.spool s.pushed) (e : String × SpooledJob) :
    e ∈ s.spool.sweep.readable s.spool.jobs ↔ e ∈ s.pushed := by
  obtain ⟨name, job⟩ := e
  rw [SpoolDir.mem_readable, h.mem_iff]
  constructor
  · intro ⟨hmem, hread⟩
    have hjson := (SpoolDir.mem_jobs.mp hmem).2
    exact ⟨hjson, (SpoolDir.read_congr (SpoolDir.files_sweep hjson)).mp hread⟩
  · intro ⟨hjson, hread⟩
    have hfile := (SpoolDir.read_eq_ok.mp hread).1
    exact ⟨SpoolDir.mem_jobs_iff.mpr ⟨⟨_, hfile⟩, hjson⟩,
      (SpoolDir.read_congr (SpoolDir.files_sweep hjson)).mpr hread⟩

/-- A pass takes the readable jobs by name. -/
theorem readable_sorted (spool : SpoolDir) (spool' : SpoolDir) :
    (spool'.readable spool.jobs).Pairwise fun e e' => e.1 < e'.1 := by
  have hsub := spool'.names_readable_sublist spool.jobs
  exact List.pairwise_map.mp (spool.jobs_sorted.sublist hsub)

/-- Where the names grew with the pushes, the listing gives the jobs in push order. -/
theorem readable_eq_pushed_iff (h : Tracks s.spool s.pushed) :
    s.spool.sweep.readable s.spool.jobs = s.pushed ↔ InPushOrder s := by
  have hsorted := readable_sorted s.spool s.spool.sweep
  constructor
  · intro heq
    rw [heq] at hsorted
    exact List.pairwise_map.mpr hsorted
  · intro horder
    have hperm : (s.spool.sweep.readable s.spool.jobs).Perm s.pushed := by
      rw [List.perm_ext_iff_of_nodup]
      · exact mem_readable_sweep h
      · exact hsorted.imp fun hlt heq => absurd (congrArg Prod.fst heq) (ne_of_lt hlt)
      · exact h.nodup.of_map
    apply hperm.eq_of_pairwise _ hsorted (List.pairwise_map.mp horder)
    intro a b _ _ hab hba
    exact absurd hab (lt_asymm hba)

theorem replay_of_allFit (h : Tracks s.spool s.pushed) (hfit : AllFit s) :
    replay (fun _ => .accepted) s.spool
      = Pass.drained ⟨s.spool.sweep, ⟨0, 0, 0⟩, []⟩ s.spool.jobs := by
  unfold replay
  rw [SpoolDir.jobs_sweep]
  apply replayJobs_drains (SpoolDir.jobs_nodup s.spool)
  intro path hpath job hread
  have hmem := (mem_readable_sweep h (path, job)).mp (SpoolDir.mem_readable.mpr ⟨hpath, hread⟩)
  exact hfit (path, job) hmem

theorem fitting_of_allFit (hfit : AllFit s) : s.fitting = s.pushed :=
  List.filter_eq_self.mpr fun e he => decide_eq_true (hfit e he)

theorem jobs_removeAll (spool : SpoolDir) : (spool.sweep.removeAll spool.jobs).jobs = [] := by
  rw [List.eq_nil_iff_forall_not_mem]
  intro name hmem
  obtain ⟨⟨contents, hfile⟩, hjson⟩ := SpoolDir.mem_jobs_iff.mp hmem
  rw [SpoolDir.files_removeAll] at hfile
  split at hfile
  · cases hfile
  · rename_i hnot
    rw [SpoolDir.files_sweep hjson] at hfile
    exact hnot (SpoolDir.mem_jobs_iff.mpr ⟨⟨contents, hfile⟩, hjson⟩)

/-- A job over the limit outlasts every pass. -/
theorem allFit_of_none_left (h : Tracks s.spool s.pushed)
    (hnone : (replay attempts s.spool).spool.jobs = []) : AllFit s := by
  intro ⟨name, job⟩ hmem
  by_contra hover
  obtain ⟨hjson, hread⟩ := (h.mem_iff name job).mp hmem
  have hkept : (replay attempts s.spool).spool.read name = .ok job :=
    replayJobs_keeps hover _ ((SpoolDir.read_congr (SpoolDir.files_sweep hjson)).mpr hread)
  have hlisted : name ∈ (replay attempts s.spool).spool.jobs :=
    SpoolDir.mem_jobs_iff.mpr ⟨⟨_, (SpoolDir.read_eq_ok.mp hkept).1⟩, hjson⟩
  rw [hnone] at hlisted
  cases hlisted

theorem drained_iff (h : Tracks s.spool s.pushed) : Drained s ↔ AllFit s ∧ InPushOrder s := by
  constructor
  · intro hdrained
    have hfit := allFit_of_none_left h hdrained.none_left
    have hsent := hdrained.sent
    rw [replay_of_allFit h hfit, fitting_of_allFit hfit] at hsent
    have hnames := congrArg (List.map Prod.fst) hsent
    simp only [Pass.drained, List.nil_append, List.map_map, Function.comp_def] at hnames
    refine ⟨hfit, ?_⟩
    unfold InPushOrder
    rw [← hnames]
    exact List.pairwise_map.mpr (readable_sorted s.spool s.spool.sweep)
  · intro ⟨hfit, horder⟩
    have heq := (readable_eq_pushed_iff h).mpr horder
    have hreplay := replay_of_allFit h hfit
    refine ⟨?_, ?_, ?_⟩
    · rw [hreplay]
      exact jobs_removeAll s.spool
    · rw [hreplay, fitting_of_allFit hfit]
      simp only [Pass.drained, heq, List.nil_append]
    · rw [hreplay, fitting_of_allFit hfit]
      simp only [Pass.drained, heq, Nat.zero_add]

end Pass

/-- **One replay against a daemon that takes everything drains the spool, in push order,
exactly when every job in it fits the wire limit and the names grew with the pushes.** -/
theorem replay_drains_iff {s : Hooks} (h : hooks.Reach Lts.anyStep s) :
    Drained s ↔ AllFit s ∧ InPushOrder s :=
  drained_iff (tracks_of_reach h)

/-- Two changesets while the daemon is down, and a corrupt file. -/
def sampleRun : List HookStep :=
  [.deliver (.connect "refused") ⟨1, 1000000001, 7, none⟩ "/repo" "post-commit" ⟨["a.rs"], [], []⟩,
    .deliver (.connect "refused") ⟨1, 1000000002, 7, none⟩ "/repo" "post-commit" ⟨[], ["b.rs"], []⟩,
    .plant "000-0.json" .unparsable]

def emptyHooks : Hooks := ⟨⟨"/spool", ∅⟩, []⟩

def sampleHooks : Hooks := (hooks.run emptyHooks sampleRun).getD emptyHooks

theorem reach_sampleHooks : hooks.Reach Lts.anyStep sampleHooks := by
  have hempty : hooks.Reach Lts.anyStep emptyHooks := .init ⟨rfl, rfl⟩
  have hsome : (hooks.run emptyHooks sampleRun).isSome = true := by decide +kernel
  obtain ⟨s, hs⟩ := Option.isSome_iff_exists.mp hsome
  rw [sampleHooks, hs]
  exact hempty.run (fun _ _ _ => trivial) hs

theorem replay_drains_sample : Drained sampleHooks :=
  (replay_drains_iff reach_sampleHooks).mpr
    ⟨by unfold AllFit; decide +kernel, by unfold InPushOrder; decide +kernel⟩

/-! ### A changeset over the wire limit -/

theorem length_le_utf8Len (s : List Char) : s.length ≤ utf8Len s := by
  induction s with
  | nil => exact Nat.zero_le _
  | cons c s ih =>
      have hc := c.utf8Size_pos
      simp only [utf8Len, List.map_cons, List.sum_cons, List.length_cons] at ih ⊢
      omega

theorem length_escape_pos (c : Char) : 0 < (escape c).length := by
  unfold escape
  split <;> try decide
  split <;> simp

theorem length_le_jsonString (s : String) : s.toList.length ≤ (jsonString s).length := by
  have hflat : ∀ l : List Char, l.length ≤ (l.flatMap escape).length := by
    intro l
    induction l with
    | nil => exact Nat.zero_le _
    | cons c l ih =>
        have hc := length_escape_pos c
        simp only [List.flatMap_cons, List.length_append, List.length_cons]
        omega
  have := hflat s.toList
  simp only [jsonString, List.length_append]
  omega

theorem sum_length_le_intercalate {α : Type*} (sep : List α) (parts : List (List α)) :
    (parts.map List.length).sum ≤ (sep.intercalate parts).length := by
  induction parts with
  | nil => exact Nat.zero_le _
  | cons part rest ih =>
      cases rest with
      | nil => simp [List.intercalate]
      | cons next rest =>
          simp only [List.intercalate, List.intersperse_cons_cons, List.flatten_cons,
            List.length_append, List.map_cons, List.sum_cons] at ih ⊢
          omega

theorem jsonPaths_within (paths : List String) :
    [','].intercalate (paths.map jsonString) <:+: jsonList paths := by
  unfold jsonList
  exact ⟨_, _, rfl⟩

theorem jsonList_within (r : Submit) : jsonList r.changeset.added <:+: r.json := by
  unfold Submit.json
  iterate 7 refine List.IsInfix.trans ?_ (List.prefix_append _ _).isInfix
  exact (List.suffix_append _ _).isInfix

/-- A frame is at least as long as the added paths together. -/
theorem sum_added_le_frameLen (r : Submit) :
    (r.changeset.added.map fun path => path.toList.length).sum ≤ frameLen r := by
  have hsum : (r.changeset.added.map fun path => path.toList.length).sum
      ≤ ((r.changeset.added.map jsonString).map List.length).sum := by
    rw [List.map_map]
    exact List.sum_le_sum fun path _ => length_le_jsonString path
  have hlist := sum_length_le_intercalate [','] (r.changeset.added.map jsonString)
  have hbytes := length_le_utf8Len r.json
  have hadded : (jsonList r.changeset.added).length ≤ r.json.length :=
    (jsonList_within r).length_le
  have hpaths := (jsonPaths_within r.changeset.added).length_le
  unfold frameLen
  omega

/-- The sources that some generator wrote. -/
def generated (count : ℕ) : List String :=
  (List.range count).map fun n => "src/generated/f" ++ n.repr ++ ".rs"

theorem length_generated (count : ℕ) : (generated count).length = count := by
  simp [generated]

theorem le_sum_generated (count : ℕ) :
    count * 18 ≤ ((generated count).map fun path => path.toList.length).sum := by
  have hpath : ∀ path ∈ generated count, 18 ≤ path.toList.length := by
    intro path hpath
    obtain ⟨n, _, rfl⟩ := List.mem_map.mp hpath
    have hhead : "src/generated/f".toList.length = 15 := rfl
    have htail : ".rs".toList.length = 3 := rfl
    rw [String.toList_append, String.toList_append, List.length_append, List.length_append,
      hhead, htail]
    omega
  have hle := List.card_nsmul_le_sum ((generated count).map fun path => path.toList.length) 18
    (List.forall_mem_map.mpr hpath)
  rwa [List.length_map, length_generated, smul_eq_mul] at hle

theorem generated_over {count : ℕ} (h : MAX_FRAME < count * 18) (project event : String)
    (created : ℕ) :
    ¬ (SpooledJob.new project event created (.allAdded (generated count))).Fits := by
  have hsum := sum_added_le_frameLen (submit project (.allAdded (generated count)))
  have hle := (le_sum_generated count).trans hsum
  intro hfits
  exact absurd (h.trans_le hle) (Nat.not_lt.mpr hfits)

/-- A push into an empty spool is there. -/
theorem push_empty (dir : String) (env : PushEnv) (job : SpooledJob) (hfault : env.fault = none) :
    ∃ path spool, (⟨dir, ∅⟩ : SpoolDir).push env job = (.ok path, spool) ∧
      spool.files[env.final]? = some (.job job) := by
  unfold SpoolDir.push
  rw [hfault]
  dsimp only
  rw [SpoolDir.rename_write]
  refine ⟨_, _, rfl, ?_⟩
  generalize hspool : ((SpoolDir.write ⟨dir, ∅⟩ env.tmp (.job job)).remove env.tmp).write env.final
    (.job job) = spool
  have hfiles : ∀ name, spool.files[name]? = if env.final = name then some (.job job) else none := by
    intro name
    rw [← hspool, SpoolDir.files_write, SpoolDir.files_remove, SpoolDir.files_write]
    by_cases htmp : env.tmp = name <;> simp [htmp]
  have hjobs : spool.jobs ⊆ [env.final] := by
    intro name hmem
    obtain ⟨⟨contents, hfile⟩, _⟩ := SpoolDir.mem_jobs_iff.mp hmem
    rw [hfiles] at hfile
    split at hfile
    · rename_i hname
      exact List.mem_singleton.mpr hname.symm
    · cases hfile
  have hlen : spool.jobs.length ≤ 1 := (spool.jobs_nodup.subperm hjobs).length_le
  have hcap : spool.jobs.length ≤ MAX_JOBS := hlen.trans (by decide)
  rw [SpoolDir.enforceCap, SpoolDir.excess_eq_nil hcap]
  show spool.files[env.final]? = _
  rw [hfiles, if_pos rfl]

theorem deliver_eq_spooled {attempt : Attempt} {env : PushEnv} {project event reason : String}
    {changeset : ChangeSet}
    (hsocket : fireAndForget attempt (submit project changeset) = .error reason)
    (hpush : spool.push env (SpooledJob.new project event env.created changeset)
      = (.ok path, spool')) :
    deliver attempt env spool project event changeset = (.spooled path, spool') := by
  unfold deliver
  rw [hsocket]
  dsimp only
  rw [hpush]

theorem step_spooled {s : Hooks} {attempt : Attempt} {env : PushEnv} {project event : String}
    {changeset : ChangeSet}
    (hdeliver : deliver attempt env s.spool project event changeset = (.spooled path, spool')) :
    hooks.step s (.deliver attempt env project event changeset) = some
      ⟨spool', kept spool'
        (record s.pushed env.final (SpooledJob.new project event env.created changeset))⟩ := by
  rw [step_deliver, hdeliver]
  dsimp only [recordOf]

/-- The daemon is up, and a changeset over the limit is spooled: no pass drains that. -/
theorem not_drained_of_over (env : PushEnv) {project event : String} {changeset : ChangeSet}
    (hfault : env.fault = none)
    (hover : ¬ (SpooledJob.new project event env.created changeset).Fits) :
    ∃ s, hooks.Reach Lts.anyStep s ∧ ¬ Drained s := by
  have hformat := SpooledJob.format_new project event env.created changeset
  obtain ⟨reason, hsocket⟩ := fireAndForget_error .accepted hover
  obtain ⟨path, spool, hpush, hfile⟩ :=
    push_empty "/spool" env (SpooledJob.new project event env.created changeset) hfault
  have hstep := step_spooled (s := emptyHooks) (deliver_eq_spooled hsocket hpush)
  generalize SpooledJob.new project event env.created changeset = job at hover hformat hfile hstep
  have hempty : hooks.Reach Lts.anyStep emptyHooks := .init ⟨rfl, rfl⟩
  have hreach := hempty.step trivial hstep
  refine ⟨_, hreach, fun hdrained => ?_⟩
  have htracks := tracks_of_reach hreach
  have hread : spool.read env.final = .ok job := SpoolDir.read_eq_ok.mpr ⟨hfile, hformat⟩
  have hmem := (htracks.mem_iff env.final job).mpr ⟨env.final_json, hread⟩
  have hall := allFit_of_none_left htracks hdrained.none_left
  have hfits : job.Fits := hall (env.final, job) hmem
  exact hover hfits

/-- A commit of a million generated files keeps every pass from draining the spool. -/
theorem replay_does_not_drain : ¬ ∀ s, hooks.Reach Lts.anyStep s → Drained s := by
  intro hall
  have hlimit : MAX_FRAME < 1000000 * 18 := by decide
  obtain ⟨s, hreach, hnot⟩ := not_drained_of_over ⟨1, 1000000001, 7, none⟩ rfl
    (generated_over hlimit "/repo" "post-commit" 1)
  exact hnot (hall s hreach)

end Filigrio.Hook
