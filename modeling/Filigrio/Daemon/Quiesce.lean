import Filigrio.Daemon.WriteBehind

/-!
# Filigrio.Daemon.Quiesce

The flusher at rest. `flush_all`, run with no other thread at work, ends and leaves no
project dirty; what `Saved` says of a flusher at rest with nothing dirty is that every
checkpoint is the latest state recorded.
-/

namespace Filigrio.Daemon.Flush

namespace World

/-- The `i`-th thread runs to its end on its own. -/
def alone (i : ℕ) : ℕ → World → Option World
  | 0, w => some w
  | fuel + 1, w =>
    match w.threads[i]? with
    | some t => if t.pc.ended then some w else (w.step (.run i .ok)).bind (alone i fuel)
    | none => none

/-- `flush_each`: one project after the other. -/
def flushEach : List String → World → Option World
  | [], w => some w
  | id :: ids, w =>
    let t := Thread.start id (w.outDirs[id]?.getD []) (.flush true)
    ((w.spawn t).alone w.threads.length 8).bind (flushEach ids)

end World

/-- No thread is at work. -/
def Quiet (w : World) : Prop := ∀ t ∈ w.threads, t.pc.ended = true

/-- How many accesses of its own a flush has to go at most. -/
def Pc.rank : Pc → ℕ
  | check => 8
  | acquireFlush => 7
  | checkLocked => 6
  | dirOf => 5
  | peek _ => 4
  | flushWrite _ _ => 3
  | markClean => 2
  | forget | unmarkFlushed => 1
  | served _ | done _ => 0
  | _ => 9

section Alone

variable {w w' : World} {t t' : Thread} {i fuel : ℕ} {id : String} {told : Bool}

/-- A thread that is alone at work. -/
structure Alone (w : World) (i : ℕ) (t : Thread) : Prop where
  at_ : w.threads[i]? = some t
  others : ∀ (j : ℕ) (u : Thread), w.threads[j]? = some u → j ≠ i → u.pc.ended = true

theorem not_locks_of_ended (h : t.pc.ended = true) : t.locks = false := by
  obtain ⟨id, dir, task, pc, seen⟩ := t
  cases pc <;> first | rfl | cases h

theorem Alone.free (h : Alone w i t) (hlocks : t.locks = false) (id : String) :
    w.free id = true := by
  refine List.all_eq_true.mpr fun u hu => ?_
  obtain ⟨j, hj⟩ := List.getElem?_of_mem hu
  by_cases hji : j = i
  · subst hji
    cases hj.symm.trans h.at_
    simp [hlocks]
  · simp [not_locks_of_ended (h.others j u hj hji)]

theorem Alone.set (h : Alone w i t) (hthreads : w'.threads = w.threads.set i t') :
    Alone w' i t' := by
  have hlt := List.lt_of_getElem?_eq_some h.at_
  refine ⟨by rw [hthreads, List.getElem?_set_self hlt], fun j u hj hji => ?_⟩
  rw [hthreads, List.getElem?_set_ne (Ne.symm hji)] at hj
  exact h.others j u hj hji

theorem running {p : Prop} {pc : Pc} (h : pc.ended = false) : pc.ended = true → p := by
  intro hended
  rw [h] at hended
  cases hended

/-- An access of a flush that is alone at work. -/
theorem flush_access (htidy : Tidy w) (halone : Alone w i t) (htask : t.task = .flush true)
    (hrank : t.pc.rank < 9) (hend : t.pc.ended = false) :
    ∃ w₁ t', w.exec t .ok = some (w₁, t') ∧ w₁.threads = w.threads ∧ t'.pc.rank < t.pc.rank ∧
      t'.id = t.id ∧ t'.task = t.task ∧ w₁.last = w.last ∧
      (w₁.dirty = w.dirty ∨ w₁.dirty = w.dirty.erase t.id) ∧
      (t'.pc.ended = true → t.id ∉ w₁.dirty) := by
  have ht := List.mem_of_getElem? halone.at_
  obtain ⟨id, dir, task, pc, seen⟩ := t
  have htask : task = .flush true := htask
  subst htask
  cases pc with
  | check =>
      by_cases hd : id ∈ w.dirty
      · exact ⟨w, ⟨id, dir, .flush true, .acquireFlush, seen⟩,
          by simp [World.exec, World.flushProject, hd, Thread.goto], rfl, by simp [Pc.rank], rfl, rfl, rfl,
          Or.inl rfl, running rfl⟩
      · exact ⟨w, ⟨id, dir, .flush true, .done true, w.recorded dir⟩,
          by simp [World.exec, World.flushProject, hd], rfl, by simp [Pc.rank], rfl, rfl, rfl,
          Or.inl rfl, fun _ => hd⟩
  | acquireFlush =>
      have hfree := halone.free rfl id
      exact ⟨w, ⟨id, dir, .flush true, .checkLocked, seen⟩,
        by simp [World.exec, World.flushProject, hfree, Thread.goto], rfl, by simp [Pc.rank], rfl, rfl, rfl,
        Or.inl rfl, running rfl⟩
  | checkLocked =>
      by_cases hd : id ∈ w.dirty
      · exact ⟨w, ⟨id, dir, .flush true, .dirOf, seen⟩,
          by simp [World.exec, World.flushProject, hd, Thread.goto], rfl, by simp [Pc.rank], rfl, rfl, rfl,
          Or.inl rfl, running rfl⟩
      · exact ⟨w, ⟨id, dir, .flush true, .done true, w.recorded dir⟩,
          by simp [World.exec, World.flushProject, hd, Thread.flushed], rfl, by simp [Pc.rank], rfl, rfl, rfl,
          Or.inl rfl, fun _ => hd⟩
  | dirOf =>
      have hplaced : w.outDirs[id]? = some dir := htidy.placed ht rfl
      exact ⟨w, ⟨id, dir, .flush true, .peek dir, seen⟩,
        by simp [World.exec, World.flushProject, hplaced, Thread.goto], rfl, by simp [Pc.rank], rfl, rfl, rfl,
        Or.inl rfl, running rfl⟩
  | peek dir' =>
      cases hv : w.cache.graphs[id]? with
      | some v =>
          exact ⟨w, ⟨id, dir, .flush true, .flushWrite dir' v, seen⟩,
            by simp [World.exec, World.flushProject, ProjectStateCache.peekArc, hv, Thread.goto], rfl,
            by simp [Pc.rank], rfl, rfl, rfl, Or.inl rfl, running rfl⟩
      | none =>
          exact ⟨w, ⟨id, dir, .flush true, .forget, seen⟩,
            by simp [World.exec, World.flushProject, ProjectStateCache.peekArc, hv, Thread.goto], rfl,
            by simp [Pc.rank], rfl, rfl, rfl, Or.inl rfl, running rfl⟩
  | forget =>
      exact ⟨w.unmark id, ⟨id, dir, .flush true, .done false, seen⟩, rfl, rfl, by simp [Pc.rank], rfl, rfl,
        rfl, Or.inr rfl, fun _ => Finset.notMem_erase id w.dirty⟩
  | flushWrite dir' v =>
      exact ⟨w.save dir' v, ⟨id, dir, .flush true, .markClean, w.recorded dir⟩, rfl, rfl, by simp [Pc.rank],
        rfl, rfl, rfl, Or.inl rfl, running rfl⟩
  | markClean =>
      exact ⟨w.setCache (w.cache.markClean id), ⟨id, dir, .flush true, .unmarkFlushed, seen⟩, rfl,
        rfl, by simp [Pc.rank], rfl, rfl, rfl, Or.inl rfl, running rfl⟩
  | unmarkFlushed =>
      exact ⟨w.unmark id, ⟨id, dir, .flush true, .done true, seen⟩, rfl, rfl, by simp [Pc.rank], rfl, rfl,
        rfl, Or.inr rfl, fun _ => Finset.notMem_erase id w.dirty⟩
  | served v => cases hend
  | done ok => cases hend
  | _ => exact absurd hrank (by simp [Pc.rank])

/-- The conditions are about page-ins and evictions: a flush meets them. -/
theorem orderly_flush (hi : w.threads[i]? = some t) (hrank : t.pc.rank < 9) :
    Orderly false w (.run i .ok) := by
  intro u hu
  cases hi.symm.trans hu
  refine ⟨?_, ?_, nofun⟩ <;>
  · obtain ⟨id, dir, task, pc, seen⟩ := t
    cases pc <;> trivial

/-- A flush that is alone at work ends, and its project is not dirty then. -/
theorem alone_flush (fuel : ℕ) (htidy : Tidy w) (hsaved : Saved false w) (halone : Alone w i t)
    (htask : t.task = .flush true) (hrank : t.pc.rank ≤ fuel) (hfuel : fuel < 9)
    (hclean : t.pc.ended = true → t.id ∉ w.dirty) :
    ∃ w', w.alone i fuel = some w' ∧ Tidy w' ∧ Saved false w' ∧ Quiet w' ∧ w'.last = w.last ∧
      w'.dirty = w.dirty.erase t.id := by
  have hquiet : t.pc.ended = true → Quiet w := by
    intro hend u hu
    obtain ⟨j, hj⟩ := List.getElem?_of_mem hu
    by_cases hji : j = i
    · subst hji
      cases hj.symm.trans halone.at_
      exact hend
    · exact halone.others j u hj hji
  induction fuel generalizing w t with
  | zero =>
      have hend : t.pc.ended = true := by
        cases hpc : t.pc <;> rw [hpc] at hrank <;> first | rfl | exact absurd hrank (by simp [Pc.rank])
      exact ⟨w, rfl, htidy, hsaved, hquiet hend, rfl, (Finset.erase_eq_of_notMem (hclean hend)).symm⟩
  | succ fuel ih =>
      unfold World.alone
      simp only [halone.at_]
      by_cases hend : t.pc.ended = true
      · rw [if_pos hend]
        exact ⟨w, rfl, htidy, hsaved, hquiet hend, rfl,
          (Finset.erase_eq_of_notMem (hclean hend)).symm⟩
      · rw [if_neg hend]
        have hlt : t.pc.rank < 9 := by omega
        obtain ⟨w₁, t', hexec, hthreads, hrank', hid, htask', hlast, hdirty, hended⟩ :=
          flush_access htidy halone htask hlt (by simpa using hend)
        have hstep : w.step (.run i .ok) = some (w₁.setThread i t') := by
          show (w.threads[i]?.bind fun t => _) = _
          rw [halone.at_]
          show ((w.exec t .ok).bind fun p => _) = _
          rw [hexec]
          rfl
        have hok := orderly_flush halone.at_ hlt
        have halone' : Alone (w₁.setThread i t') i t' := by
          refine halone.set ?_
          show w₁.threads.set i t' = _
          rw [hthreads]
        have hquiet' : t'.pc.ended = true → Quiet (w₁.setThread i t') := by
          intro hend' u hu
          obtain ⟨j, hj⟩ := List.getElem?_of_mem hu
          by_cases hji : j = i
          · subst hji
            cases hj.symm.trans halone'.at_
            exact hend'
          · exact halone'.others j u hj hji
        obtain ⟨w', hrun, htidy', hsaved', hquiet'', hlast', hdirty'⟩ :=
          ih (tidy_step htidy hok.takesOverClean hstep) (saved_step hsaved htidy hok hstep) halone'
            (htask'.trans htask) (by omega) (by omega) (fun h => hid ▸ hended h) hquiet'
        refine ⟨w', by rw [hstep]; exact hrun, htidy', hsaved', hquiet'', hlast'.trans hlast, ?_⟩
        rw [hdirty', hid]
        show w₁.dirty.erase t.id = _
        rcases hdirty with hd | hd <;> rw [hd]
        exact Finset.erase_idem

/-- `flush_all`, alone at work, ends with nothing dirty. -/
theorem flushEach_ends {order : List String} (htidy : Tidy w) (hsaved : Saved false w)
    (hquiet : Quiet w) (hnodup : order.Nodup) (hdirty : order.toFinset = w.dirty) :
    ∃ w', w.flushEach order = some w' ∧ Tidy w' ∧ Saved false w' ∧ Quiet w' ∧ w'.last = w.last ∧
      w'.dirty = ∅ := by
  induction order generalizing w with
  | nil => exact ⟨w, rfl, htidy, hsaved, hquiet, rfl, by rw [← hdirty]; rfl⟩
  | cons id ids ih =>
      have hmem : id ∈ w.dirty := by
        rw [← hdirty]
        simp
      obtain ⟨dir, hdir⟩ := htidy.marked id hmem
      have htidy₁ := @tidy_spawn _ id dir htidy (.flush true)
        (htidy.dirs id dir hdir) (Or.inr ⟨hdir, fun hv => hv.2.1 hmem⟩)
      have hsaved₁ : Saved false (w.spawn (.start id dir (.flush true))) := saved_spawn hsaved _
      have halone : Alone (w.spawn (.start id dir (.flush true))) w.threads.length
          (.start id dir (.flush true)) := by
        refine ⟨by simp [World.spawn], fun j u hj hne => ?_⟩
        rcases List.getElem?_concat_cases hj with ⟨hj, -⟩ | hj
        · exact absurd hj hne
        · exact hquiet u (List.mem_of_getElem? hj)
      obtain ⟨w₁, hrun, htidy', hsaved', hquiet', hlast, hdirty'⟩ :=
        alone_flush 8 htidy₁ hsaved₁ halone rfl le_rfl (by decide) (running rfl)
      have hrest : ids.toFinset = w₁.dirty := by
        rw [hdirty']
        show ids.toFinset = w.dirty.erase id
        rw [← hdirty, List.toFinset_cons, Finset.erase_insert]
        simpa using (List.nodup_cons.mp hnodup).1
      obtain ⟨w', hrun', htidy'', hsaved'', hquiet'', hlast', hempty⟩ :=
        ih htidy' hsaved' hquiet' (List.nodup_cons.mp hnodup).2 hrest
      refine ⟨w', ?_, htidy'', hsaved'', hquiet'', hlast'.trans hlast, hempty⟩
      unfold World.flushEach
      simp only [hdir, Option.getD_some, hrun, Option.bind_some, hrun']

end Alone

/-- A thread that has ended holds nothing. -/
theorem held_of_ended {pc : Pc} (h : pc.ended = true) : pc.held = [] := by
  cases pc <;> first | rfl | cases h

/-- At rest, a root that is not marked dirty has its latest state on disk. -/
theorem checkpoint_of_quiet {told : Bool} {w : World} (htidy : Tidy w) (h : Saved told w)
    (hquiet : Quiet w) {dir : Path} (hdirty : idOf dir ∉ w.dirty) :
    w.checkpoint dir = w.last dir := by
  refine checkpoint_of_clean h htidy (fun t ht v es hpc => ?_) rfl hdirty ?_
  · have hend := hquiet t ht
    rw [hpc] at hend
    cases hend
  · rintro ⟨t, ht, x, hx, -⟩
    rw [held_of_ended (hquiet t ht)] at hx
    cases hx

/-- **The flusher is never stale.** In every orderly run, what an apply gets from
`state_of` is the latest state recorded for its root (or the checkpoint it started with),
and `flush_all`, once it has run with nothing else at work, leaves every checkpoint at
the latest state. -/
theorem flusher_never_stale {w : World} (h : system.Reach (Orderly false) w) :
    (∀ t ∈ w.threads, ∀ v, t.pc = .mutate v → v = w.last t.dir) ∧
      (Quiet w → ∀ order : List String, order.Nodup → order.toFinset = w.dirty →
        ∃ w', w.flushEach order = some w' ∧ w'.last = w.last ∧
          ∀ dir, w'.checkpoint dir = w.last dir) := by
  obtain ⟨htidy, hsaved⟩ := saved_of_reach h
  refine ⟨fun t ht v hpc => ?_, fun hquiet order hnodup hdirty => ?_⟩
  · have hlocal := hsaved.locals t ht
    unfold Thread.Local at hlocal
    rw [hpc] at hlocal
    exact hlocal
  · obtain ⟨w', hrun, htidy', hsaved', hquiet', hlast, hempty⟩ :=
      flushEach_ends htidy hsaved hquiet hnodup hdirty
    refine ⟨w', hrun, hlast, fun dir => ?_⟩
    rw [← hlast]
    exact checkpoint_of_quiet htidy' hsaved' hquiet' (by rw [hempty]; simp)

/-- `flusher_never_stale` at rest after an apply, which `flush_all` writes. -/
theorem flusher_never_stale_sample : ∃ w w' : World, w.dirty = {"app"} ∧
    w.flushEach ["app"] = some w' ∧
    ∀ dir, w'.checkpoint dir = w.last dir := by
  have hrun : (system.step (.start 1 ∅ fun _ => none) (.register ["srv", "app"])).bind (fun w =>
      (system.runOk orderly w ((recordRun ["srv", "app"]).tail)).map fun w =>
        (w.threads.all (fun t => t.pc.ended), w.dirty)) = some (true, {"app"}) := by
    decide +kernel
  obtain ⟨w₁, hreg, hrun⟩ := Option.bind_eq_some_iff.mp hrun
  obtain ⟨w, hw, hends⟩ := Option.map_eq_some_iff.mp hrun
  obtain ⟨hended, hdirty⟩ := Prod.mk.inj hends
  have hok : Orderly false (.start 1 ∅ fun _ => none) (.register ["srv", "app"]) :=
    takesOverClean_start 1 _
  have hfirst : system.Reach (Orderly false) w₁ := .step (reach_start _ 1) hok hreg
  have hquiet : Quiet w := List.all_eq_true.mp hended
  obtain ⟨w', hflush, -, hsaved⟩ := (flusher_never_stale (hfirst.runOk orderly_of_check hw)).2
    hquiet ["app"] (by simp) (by rw [hdirty]; rfl)
  exact ⟨w, w', hdirty, hflush, hsaved⟩

/-- The step is a read, a write or a pipeline that fails. -/
def Action.fails : Action → Bool
  | .run _ .fail => true
  | _ => false

/-- An apply starts from the checkpoint while the state that was evicted is still to be
written back; and a query puts an old checkpoint over the state an apply has recorded,
which leaves nothing dirty for `flush_all`. -/
theorem flusher_stale :
    ¬ (∀ w, system.Reach (fun _ a => a.fails = false) w →
      ∀ t ∈ w.threads, ∀ v, t.pc = .mutate v → v = w.last t.dir) ∧
    ¬ ∀ w, system.Reach (fun _ a => a.fails = false) w → Quiet w →
      ∀ order : List String, order.Nodup → order.toFinset = w.dirty →
        ∀ w', w.flushEach order = some w' → ∀ dir, w'.checkpoint dir = w.last dir := by
  have hcheck : ∀ (w : World) (a : Action), (!a.fails) = true → a.fails = false := by simp
  constructor
  · intro hclaim
    have hrun : (system.runOk (fun _ a => !a.fails) (.start 1 ∅ fun _ => none)
        (recordRun ["srv", "app"] ++
          [.register ["srv", "lib"], .start "lib" (.query false)] ++ List.replicate 5 (.run 1 .ok) ++
          [.start "app" (.apply .defer)] ++ List.replicate 7 (.run 2 .ok))).map (fun w =>
        w.threads[2]?.map fun t => (match t.pc with | .mutate v => some v.seq | _ => none,
          (w.last t.dir).seq)) = some (some (some 0, 1)) := by
      decide +kernel
    obtain ⟨w, hw, hthread⟩ := Option.map_eq_some_iff.mp hrun
    obtain ⟨t, ht, hends⟩ := Option.map_eq_some_iff.mp hthread
    obtain ⟨hprior, hlast⟩ := Prod.mk.inj hends
    have hreach := (reach_start _ 1).runOk hcheck hw
    split at hprior
    · rename_i v hpc
      have hsame := hclaim w hreach t (List.mem_of_getElem? ht) v hpc
      rw [← hsame] at hlast
      simp [hlast] at hprior
    · cases hprior
  · intro hclaim
    have hrun : (system.runOk (fun _ a => !a.fails) (.start 1 ∅ fun _ => none)
        ([.register ["srv", "app"], .start "app" (.query false)] ++ List.replicate 3 (.run 0 .ok) ++
          [.start "app" (.apply .defer)] ++ List.replicate 6 (.run 1 .ok) ++
          [.run 1 (.fresh .empty)] ++ List.replicate 4 (.run 1 .ok) ++
          List.replicate 2 (.run 0 .ok))).bind (fun w => (w.flushEach ["app"]).map fun w' =>
        (w.threads.all (fun t => t.pc.ended), w.dirty, (w'.checkpoint ["srv", "app", ".filigrio-out"]).seq,
          (w.last ["srv", "app", ".filigrio-out"]).seq)) = some (true, {"app"}, 0, 1) := by
      decide +kernel
    obtain ⟨w, hw, hrun⟩ := Option.bind_eq_some_iff.mp hrun
    obtain ⟨w', hflush, hends⟩ := Option.map_eq_some_iff.mp hrun
    simp only [Prod.mk.injEq] at hends
    obtain ⟨hended, hdirty, hcheckpoint, hlast⟩ := hends
    have hreach := (reach_start _ 1).runOk hcheck hw
    have hsame := hclaim w hreach (List.all_eq_true.mp hended) ["app"] (by simp)
      (by rw [hdirty]; rfl) w' hflush ["srv", "app", ".filigrio-out"]
    rw [hsame] at hcheckpoint
    omega

end Filigrio.Daemon.Flush
