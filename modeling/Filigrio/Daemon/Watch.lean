import Filigrio.Daemon.Project
import Filigrio.Lib.Lts

/-!
# Filigrio.Daemon.Watch

Watch mode: `project register`, `remove`, `watch on` and `watch off`. Planning is one
step under the daemon lock; a `watch on` starts the watcher there, and its initial
converge, the flag and the registry save follow as steps of their own.

The two phases of a `watch on` are not undone when the second fails, and nothing keeps
an `off`, a `remove` or a re-`register` out from between them. `CleanWatch` leaves
those steps out, and failed saves that would change a persisted flag; without them a
project is watched exactly when it is persisted so (`watch_consistent`).
-/

namespace Filigrio.Daemon.Watch

/-- Where a planned `watch on` stands. -/
inductive Phase
  /-- The deep reconcile and its flush. -/
  | converging
  /-- `set_watch(&project, true)`. -/
  | flagging
  /-- `save_to(&registry_path)`. -/
  | saving
  /-- Answered. -/
  | done
  deriving DecidableEq, Repr

/-- An `Exec::Apply` with the verb `WatchOn`. -/
structure Exec where
  project : String
  phase : Phase
  deriving DecidableEq, Repr

/-- The registry in memory and on disk, the live watchers, the planned `watch on`s, and
(for the record) the watch outcome each project was last told. -/
structure World where
  registry : ProjectRegistry
  saved : ProjectRegistry
  watchers : Finset String
  execs : List Exec
  acked : BTreeMap String Bool

/-- The commands, and the later steps of a `watch on`; a flag says whether the step's
fallible part (the save, the bind of the watcher, the reconcile) succeeds. -/
inductive Action
  | register (root : Path) (ok : Bool)
  | remove (id : String) (ok : Bool)
  | watchOn (id : String) (ok : Bool)
  | watchOff (id : String) (ok : Bool)
  | converge (i : ℕ) (ok : Bool)
  | setFlag (i : ℕ)
  | save (i : ℕ) (ok : Bool)
  deriving DecidableEq, Repr

namespace World

variable (w : World)

/-- `save_registry`. -/
def saveRegistry (ok : Bool) : World := if ok then { w with saved := w.registry } else w

/-- The planned `watch on` moves to its next phase. -/
def goto (i : ℕ) (e : Exec) (phase : Phase) : World :=
  { w with execs := w.execs.set i { e with phase := phase } }

end World

/-- What each step does; a command that is refused changes nothing. -/
def step (w : World) : Action → Option World
  | .register root ok =>
    match w.registry.add (Project.new root) with
    | some registry => some ({ w with registry := registry }.saveRegistry ok)
    | none => some w
  | .remove id ok =>
    match w.registry.remove id with
    | some registry =>
      let w := { w with registry := registry, watchers := w.watchers.erase id }.saveRegistry ok
      -- the outcome is told only when the registry is saved
      some (if ok then { w with acked := w.acked.erase id } else w)
    | none => some w
  | .watchOn id ok =>
    if id ∈ w.registry then
      if id ∈ w.watchers then some { w with acked := w.acked.insert id true }
      else if ok then
        some { w with
          watchers := insert id w.watchers
          execs := w.execs ++ [⟨id, .converging⟩] }
      else some w
    else some w
  | .watchOff id ok =>
    match w.registry.setWatch id false with
    | some registry =>
      let w := { w with registry := registry, watchers := w.watchers.erase id }.saveRegistry ok
      some (if ok then { w with acked := w.acked.insert id false } else w)
    | none => some w
  | .converge i ok =>
    match w.execs[i]? with
    | some ⟨id, .converging⟩ => some (w.goto i ⟨id, .converging⟩ (if ok then .flagging else .done))
    | _ => none
  | .setFlag i =>
    match w.execs[i]? with
    | some ⟨id, .flagging⟩ =>
      match w.registry.setWatch id true with
      | some registry => some ({ w with registry := registry }.goto i ⟨id, .flagging⟩ .saving)
      | none => some (w.goto i ⟨id, .flagging⟩ .done)
    | _ => none
  | .save i ok =>
    match w.execs[i]? with
    | some ⟨id, .saving⟩ =>
      let w := (w.saveRegistry ok).goto i ⟨id, .saving⟩ .done
      some (if ok then { w with acked := w.acked.insert id true } else w)
    | _ => none

/-- A daemon that has started: the watchers are those of the persisted flags, and
nothing was asked yet. -/
def Started (w : World) : Prop :=
  w.saved = w.registry ∧ (∀ id, id ∈ w.watchers ↔ w.registry.watched id = true) ∧
    w.execs = [] ∧ w.acked = ∅

def system : Lts World Action where
  init := Started
  step := step

/-! ### The promise -/

/-- No `watch on` of the project is on its way. -/
def Settled (w : World) (id : String) : Prop :=
  ∀ e ∈ w.execs, e.project = id → e.phase = .done

/-- The project has a live watcher exactly when it is registered on disk with watch
mode on, and it was told so last. -/
def Consistent (w : World) (id : String) : Prop :=
  (id ∈ w.watchers ↔ w.saved.watched id = true) ∧
    ∀ b, w.acked[id]? = some b → (id ∈ w.watchers ↔ b = true) ∧ w.saved.watched id = b

/-- The converge and the save of a `watch on` succeed; while it is on its way the project
is not switched off or registered anew, and not removed once its flag is set; and no
save fails that would clear a persisted flag. -/
def CleanWatch (w : World) : Action → Prop
  | .register root _ => Project.projectId root ∉ w.registry → Settled w (Project.projectId root)
  | .remove id ok =>
    (∀ e ∈ w.execs, e.project = id → e.phase ≠ .saving) ∧
      (ok = false → Settled w id ∧ w.saved.watched id = false)
  | .watchOff id ok => Settled w id ∧ (ok = false → w.saved.watched id = false)
  | .converge _ ok | .save _ ok => ok = true
  | _ => True

/-! ### The invariant -/

/-- What holds of one project. -/
structure InvAt (w : World) (id : String) : Prop where
  /-- At most one `watch on` is on its way. -/
  unique : ∀ (i j : ℕ) (e f : Exec), w.execs[i]? = some e → w.execs[j]? = some f →
    e.project = id → f.project = id → e.phase ≠ .done → f.phase ≠ .done → i = j
  settled : Settled w id → (id ∈ w.watchers ↔ w.registry.watched id = true) ∧
    w.saved.watched id = w.registry.watched id ∧
    ∀ b, w.acked[id]? = some b → w.registry.watched id = b
  /-- Before the flag is set, the watcher follows the registration. -/
  early : ∀ (i : ℕ) (e : Exec), w.execs[i]? = some e → e.project = id →
    e.phase = .converging ∨ e.phase = .flagging →
    w.registry.watched id = false ∧ w.saved.watched id = false ∧
      (id ∈ w.registry ↔ id ∈ w.watchers) ∧ (w.acked[id]? = some true → id ∈ w.registry)
  /-- Once it is set, the watcher is live. -/
  late : ∀ (i : ℕ) (e : Exec), w.execs[i]? = some e → e.project = id → e.phase = .saving →
    w.registry.watched id = true ∧ id ∈ w.watchers

theorem Settled.get {w : World} {id : String} (hs : Settled w id) {i : ℕ} {e : Exec}
    (hi : w.execs[i]? = some e) (he : e.project = id) : e.phase = .done :=
  hs e (List.mem_of_getElem? hi) he

theorem Settled.of_get {w : World} {id : String} (h : ∀ (i : ℕ) (e : Exec),
    w.execs[i]? = some e → e.project = id → e.phase = .done) : Settled w id := by
  intro e he hid
  obtain ⟨i, hi⟩ := List.getElem?_of_mem he
  exact h i e hi hid

section Steps

variable {w w' : World} {id t : String} {ok : Bool}

@[simp] theorem saveRegistry_registry : (w.saveRegistry ok).registry = w.registry := by
  cases ok <;> rfl

@[simp] theorem saveRegistry_watchers : (w.saveRegistry ok).watchers = w.watchers := by
  cases ok <;> rfl

@[simp] theorem saveRegistry_execs : (w.saveRegistry ok).execs = w.execs := by
  cases ok <;> rfl

@[simp] theorem saveRegistry_acked : (w.saveRegistry ok).acked = w.acked := by
  cases ok <;> rfl

theorem saveRegistry_saved :
    (w.saveRegistry ok).saved = if ok then w.registry else w.saved := by
  cases ok <;> rfl

/-- A project that nothing happens to keeps its invariant; a save may go by. -/
theorem InvAt.frame (h : InvAt w id)
    (hexecs : ∀ (i : ℕ) (e : Exec), e.project = id → (w'.execs[i]? = some e ↔ w.execs[i]? = some e))
    (hwatchers : id ∈ w'.watchers ↔ id ∈ w.watchers) (hmem : id ∈ w'.registry ↔ id ∈ w.registry)
    (hwatched : w'.registry.watched id = w.registry.watched id)
    (hacked : w'.acked[id]? = w.acked[id]?)
    (hsaved : w'.saved.watched id = w.saved.watched id ∨
      w'.saved.watched id = w'.registry.watched id) : InvAt w' id := by
  refine ⟨?_, ?_, ?_, ?_⟩
  · intro i j e f hi hj he hf
    exact h.unique i j e f ((hexecs i e he).mp hi) ((hexecs j f hf).mp hj) he hf
  · intro hs
    obtain ⟨hlive, hsame, hack⟩ := h.settled <| .of_get fun i e hi he =>
      hs.get ((hexecs i e he).mpr hi) he
    refine ⟨by rw [hwatchers, hwatched]; exact hlive, ?_, fun b hb => ?_⟩
    · rcases hsaved with hsaved | hsaved
      · rw [hsaved, hwatched, hsame]
      · exact hsaved
    · rw [hwatched]
      exact hack b (hacked ▸ hb)
  · intro i e hi he hphase
    obtain ⟨hoff, hsoff, hiff, hack⟩ := h.early i e ((hexecs i e he).mp hi) he hphase
    refine ⟨hwatched ▸ hoff, ?_, by rw [hmem, hwatchers]; exact hiff, fun ha => ?_⟩
    · rcases hsaved with hsaved | hsaved
      · rw [hsaved, hsoff]
      · rw [hsaved, hwatched, hoff]
    · exact hmem.mpr (hack (hacked ▸ ha))
  · intro i e hi he hphase
    obtain ⟨hon, hlive⟩ := h.late i e ((hexecs i e he).mp hi) he hphase
    exact ⟨hwatched ▸ hon, hwatchers.mpr hlive⟩

/-- A project with nothing on its way, once its flags agree again. -/
theorem InvAt.of_settled (hs : Settled w id) (hlive : id ∈ w.watchers ↔ w.registry.watched id = true)
    (hsame : w.saved.watched id = w.registry.watched id)
    (hack : ∀ b, w.acked[id]? = some b → w.registry.watched id = b) : InvAt w id where
  unique i _ e _ hi _ he _ hne := absurd (hs.get hi he) hne
  settled _ := ⟨hlive, hsame, hack⟩
  early i e hi he hphase := by
    rw [hs.get hi he] at hphase
    rcases hphase with h | h <;> cases h
  late i e hi he hphase := by
    rw [hs.get hi he] at hphase
    cases hphase

/-- A step of one `watch on` does not show in another project's. -/
theorem goto_execs {i : ℕ} {e : Exec} {phase : Phase} (hi : w.execs[i]? = some e)
    (hne : e.project ≠ id) (j : ℕ) (f : Exec) (hf : f.project = id) :
    (w.goto i e phase).execs[j]? = some f ↔ w.execs[j]? = some f := by
  have hlt := List.lt_of_getElem?_eq_some hi
  show (w.execs.set i _)[j]? = some f ↔ _
  constructor
  · intro h
    rcases List.getElem?_set_cases hlt h with ⟨-, rfl⟩ | ⟨-, h⟩
    · exact absurd hf hne
    · exact h
  · intro h
    by_cases hij : i = j
    · subst hij
      cases hi.symm.trans h
      exact absurd hf hne
    · rw [List.getElem?_set_ne hij]
      exact h

theorem goto_get {i : ℕ} {e : Exec} (hi : w.execs[i]? = some e) (phase : Phase) :
    (w.goto i e phase).execs[i]? = some { e with phase := phase } := by
  simp [World.goto, List.lt_of_getElem?_eq_some hi]

/-- A `watch on` that ends leaves its project with nothing on its way. -/
theorem settled_goto {i : ℕ} {e : Exec} (h : InvAt w e.project) (hi : w.execs[i]? = some e)
    (hphase : e.phase ≠ .done) : Settled (w.goto i e .done) e.project := by
  refine .of_get fun j f hj hf => ?_
  rcases List.getElem?_set_cases (List.lt_of_getElem?_eq_some hi) hj with ⟨-, rfl⟩ | ⟨hji, hj⟩
  · rfl
  · by_contra hne
    exact hji (h.unique j i f e hj hi hf rfl hne hphase)

/-- What a step of a `watch on` leaves of its project's `watch on`s. -/
theorem goto_cases {i j : ℕ} {e f : Exec} {phase : Phase} (hi : w.execs[i]? = some e)
    (hj : (w.goto i e phase).execs[j]? = some f) :
    (j = i ∧ f = { e with phase := phase }) ∨ (j ≠ i ∧ w.execs[j]? = some f) :=
  List.getElem?_set_cases (List.lt_of_getElem?_eq_some hi) hj

/-- Moving a `watch on` on keeps it the only one. -/
theorem unique_goto {i : ℕ} {e : Exec} {phase : Phase} (h : InvAt w e.project)
    (hi : w.execs[i]? = some e) (hphase : e.phase ≠ .done) (j k : ℕ) (f g : Exec)
    (hj : (w.goto i e phase).execs[j]? = some f) (hk : (w.goto i e phase).execs[k]? = some g)
    (hf : f.project = e.project) (hg : g.project = e.project) (hfd : f.phase ≠ .done)
    (hgd : g.phase ≠ .done) : j = k := by
  rcases goto_cases hi hj with ⟨rfl, -⟩ | ⟨hji, hj⟩
  · rcases goto_cases hi hk with ⟨rfl, -⟩ | ⟨hki, hk⟩
    · rfl
    · exact absurd (h.unique k j g e hk hi hg rfl hgd hphase) hki
  · exact absurd (h.unique j i f e hj hi hf rfl hfd hphase) hji

theorem inv_register {root : Path} (hinv : ∀ id, InvAt w id)
    (hok : CleanWatch w (.register root ok)) (h : step w (.register root ok) = some w') (id : String) :
    InvAt w' id := by
  simp only [step] at h
  split at h
  · rename_i registry hadd
    cases h
    have hwatched : registry.watched id = w.registry.watched id :=
      ProjectRegistry.watched_add hadd rfl
    obtain ⟨hnew, hget⟩ := ProjectRegistry.get_add id hadd
    have hsaved : (({ w with registry := registry }.saveRegistry ok).saved.watched id
          = w.saved.watched id) ∨
        (({ w with registry := registry }.saveRegistry ok).saved.watched id
          = registry.watched id) := by
      rw [saveRegistry_saved]
      cases ok
      · exact Or.inl rfl
      · exact Or.inr rfl
    by_cases hid : (Project.new root).id = id
    · -- nothing of the new project is on its way
      have hs : Settled w id := hid ▸ hok hnew
      obtain ⟨hlive, hsame, hack⟩ := (hinv id).settled hs
      refine .of_settled (by simpa [Settled] using hs) (by simpa [hwatched] using hlive) ?_
        (by simpa [hwatched] using hack)
      rcases hsaved with hsaved | hsaved
      · simp [hsaved, hsame, hwatched]
      · simp [hsaved]
    · refine (hinv id).frame (by simp) (by simp) ?_ (by simpa using hwatched) (by simp)
        (by simpa using hsaved)
      rw [if_neg hid] at hget
      rw [saveRegistry_registry, Std.ExtTreeMap.mem_iff_isSome_getElem?,
        Std.ExtTreeMap.mem_iff_isSome_getElem?, hget]
  · cases h
    exact hinv id

theorem inv_remove (hinv : ∀ id, InvAt w id) (hok : CleanWatch w (.remove t ok))
    (h : step w (.remove t ok) = some w') (id : String) : InvAt w' id := by
  obtain ⟨hsaving, hfail⟩ := hok
  simp only [step] at h
  split at h
  · rename_i registry hremove
    have hget := ProjectRegistry.get_remove id hremove
    have hwatched := ProjectRegistry.watched_remove id hremove
    have hmem : id ∈ registry ↔ id ≠ t ∧ id ∈ w.registry := by
      rw [Std.ExtTreeMap.mem_iff_isSome_getElem?, Std.ExtTreeMap.mem_iff_isSome_getElem?, hget]
      by_cases hid : t = id
      · simp [hid]
      · simp [hid, Ne.symm hid]
    by_cases hid : t = id
    · subst hid
      rw [if_pos rfl] at hwatched
      cases ok with
      | false =>
          -- nothing is on its way and the flag on disk is off
          cases h
          obtain ⟨hs, hoff⟩ := hfail rfl
          obtain ⟨-, hsame, hack⟩ := (hinv t).settled hs
          have hwas : w.registry.watched t = false := hsame ▸ hoff
          exact .of_settled hs (by simp [World.saveRegistry, hwatched])
            (by simpa [World.saveRegistry, hwatched] using hoff)
            (by simpa [World.saveRegistry, hwatched, hwas] using hack)
      | true =>
          cases h
          refine ⟨(hinv t).unique, fun _ => ?_, fun i e hi he hphase => ?_, fun i e hi he hphase => ?_⟩
          · simp [World.saveRegistry, hwatched]
          · have hgone : t ∉ registry := by simp [hmem]
            simp [World.saveRegistry, hwatched, hgone]
          · exact absurd hphase (hsaving e (List.mem_of_getElem? hi) he)
    · have hframe : ∀ acked : BTreeMap String Bool, acked[id]? = w.acked[id]? → InvAt
          { { w with registry := registry, watchers := w.watchers.erase t }.saveRegistry ok with
            acked := acked } id := by
        intro acked hacked
        refine (hinv id).frame (by simp) (by simp [Ne.symm hid]) (by simp [hmem, Ne.symm hid])
          (by simpa [hid] using hwatched) hacked ?_
        rw [saveRegistry_saved]
        cases ok
        · exact Or.inl rfl
        · exact Or.inr rfl
      cases ok
      · cases h
        exact hframe w.acked rfl
      · cases h
        exact hframe (w.acked.erase t) (by rw [BTreeMap.get_erase, if_neg hid])
  · cases h
    exact hinv id

theorem inv_watchOn (hinv : ∀ id, InvAt w id) (h : step w (.watchOn t ok) = some w')
    (id : String) : InvAt w' id := by
  simp only [step] at h
  split at h
  · rename_i hregistered
    split at h
    · -- already watching: only the outcome is told
      rename_i hlive
      cases h
      by_cases hid : t = id
      · subst hid
        have hacked : (w.acked.insert t true)[t]? = some true := by simp
        refine ⟨(hinv t).unique, fun hs => ?_, fun i e hi he hphase => ?_, (hinv t).late⟩
        · obtain ⟨hiff, hsame, -⟩ := (hinv t).settled hs
          refine ⟨hiff, hsame, fun b hb => ?_⟩
          cases hacked.symm.trans hb
          exact hiff.mp hlive
        · obtain ⟨hoff, hsoff, hiff, -⟩ := (hinv t).early i e hi he hphase
          exact ⟨hoff, hsoff, hiff, fun _ => hregistered⟩
      · exact (hinv id).frame (by simp) Iff.rfl Iff.rfl rfl
          (by rw [BTreeMap.get_insert, if_neg hid]) (Or.inl rfl)
    · rename_i hlive
      split at h
      · cases h
        by_cases hid : t = id
        · subst hid
          -- nothing was on its way: that would have a live watcher
          have hs : Settled w t := by
            refine .of_get fun i e hi he => ?_
            cases hphase : e.phase with
            | done => rfl
            | saving => exact absurd ((hinv t).late i e hi he hphase).2 hlive
            | converging =>
                exact absurd (((hinv t).early i e hi he (Or.inl hphase)).2.2.1.mp hregistered) hlive
            | flagging =>
                exact absurd (((hinv t).early i e hi he (Or.inr hphase)).2.2.1.mp hregistered) hlive
          obtain ⟨hiff, hsame, hack⟩ := (hinv t).settled hs
          have hoff : w.registry.watched t = false := by
            rw [← Bool.not_eq_true, ← hiff]
            exact hlive
          refine ⟨?_, fun hs' => ?_, fun i e hi he hphase => ?_, fun i e hi he hphase => ?_⟩
          · intro i j e f hi hj he hf hei hfj
            rcases List.getElem?_concat_cases hi with ⟨rfl, rfl⟩ | hi
            · rcases List.getElem?_concat_cases hj with ⟨rfl, rfl⟩ | hj
              · rfl
              · exact absurd (hs.get hj hf) hfj
            · exact absurd (hs.get hi he) hei
          · have hlast := hs' ⟨t, .converging⟩ (by simp) rfl
            cases hlast
          · exact ⟨hoff, hsame.trans hoff, by simp [hregistered], fun _ => hregistered⟩
          · rcases List.getElem?_concat_cases hi with ⟨rfl, rfl⟩ | hi
            · cases hphase
            · rw [hs.get hi he] at hphase
              cases hphase
        · refine (hinv id).frame (fun i e he => ⟨fun hi => ?_, fun hi => ?_⟩) (by simp [Ne.symm hid])
            Iff.rfl rfl rfl (Or.inl rfl)
          · rcases List.getElem?_concat_cases hi with ⟨-, rfl⟩ | hi
            · exact absurd he hid
            · exact hi
          · rw [List.getElem?_append_left (List.lt_of_getElem?_eq_some hi)]
            exact hi
      · cases h
        exact hinv id
  · cases h
    exact hinv id

theorem inv_watchOff (hinv : ∀ id, InvAt w id) (hok : CleanWatch w (.watchOff t ok))
    (h : step w (.watchOff t ok) = some w') (id : String) : InvAt w' id := by
  obtain ⟨hs, hfail⟩ := hok
  simp only [step] at h
  split at h
  · rename_i registry hset
    have hwatched := ProjectRegistry.watched_setWatch id hset
    obtain ⟨p, hp, hget⟩ := ProjectRegistry.get_setWatch id hset
    by_cases hid : t = id
    · subst hid
      rw [if_pos rfl] at hwatched
      obtain ⟨-, hsame, hack⟩ := (hinv t).settled hs
      cases ok with
      | false =>
          cases h
          have hoff := hfail rfl
          have hwas : w.registry.watched t = false := hsame ▸ hoff
          exact .of_settled hs (by simp [World.saveRegistry, hwatched])
            (by simpa [World.saveRegistry, hwatched] using hoff)
            (by simpa [World.saveRegistry, hwatched, hwas] using hack)
      | true =>
          cases h
          refine .of_settled hs (by simp [World.saveRegistry, hwatched])
            (by simp [World.saveRegistry, hwatched]) fun b hb => ?_
          simpa [World.saveRegistry, hwatched] using hb
    · have hframe : ∀ acked : BTreeMap String Bool, acked[id]? = w.acked[id]? → InvAt
          { { w with registry := registry, watchers := w.watchers.erase t }.saveRegistry ok with
            acked := acked } id := by
        intro acked hacked
        refine (hinv id).frame (by simp) (by simp [Ne.symm hid]) ?_
          (by simpa [hid] using hwatched) hacked ?_
        · show id ∈ ({ w with registry := registry, watchers := _ }.saveRegistry ok).registry ↔ _
          rw [saveRegistry_registry, Std.ExtTreeMap.mem_iff_isSome_getElem?,
            Std.ExtTreeMap.mem_iff_isSome_getElem?, hget, if_neg hid]
        · rw [saveRegistry_saved]
          cases ok
          · exact Or.inl rfl
          · exact Or.inr rfl
      cases ok
      · cases h
        exact hframe w.acked rfl
      · cases h
        exact hframe (w.acked.insert t false) (by rw [BTreeMap.get_insert, if_neg hid])
  · cases h
    exact hinv id

theorem inv_converge {i : ℕ} (hinv : ∀ id, InvAt w id) (h : step w (.converge i true) = some w')
    (id : String) : InvAt w' id := by
  simp only [step] at h
  split at h
  · rename_i t hi
    cases h
    by_cases hid : t = id
    · subst hid
      have hearly := (hinv t).early i _ hi rfl (Or.inl rfl)
      refine ⟨unique_goto (hinv t) hi (by simp), fun hs => ?_, fun j f hj hf hphase => ?_,
        fun j f hj hf hphase => ?_⟩
      · have := hs.get (goto_get hi (.flagging)) rfl
        cases this
      · exact hearly
      · rcases goto_cases hi hj with ⟨rfl, rfl⟩ | ⟨hji, hj⟩
        · cases hphase
        · exact (hinv t).late j f hj hf hphase
    · exact (hinv id).frame (goto_execs hi hid) Iff.rfl Iff.rfl rfl rfl (Or.inl rfl)
  · cases h

theorem inv_setFlag {i : ℕ} (hinv : ∀ id, InvAt w id) (h : step w (.setFlag i) = some w')
    (id : String) : InvAt w' id := by
  simp only [step] at h
  split at h
  · rename_i t hi
    have hearly := (hinv t).early i _ hi rfl (Or.inr rfl)
    obtain ⟨hoff, hsoff, hiff, hack⟩ := hearly
    split at h
    · rename_i registry hset
      cases h
      have hwatched := ProjectRegistry.watched_setWatch id hset
      obtain ⟨p, hp, hget⟩ := ProjectRegistry.get_setWatch id hset
      by_cases hid : t = id
      · subst hid
        have hregistered : t ∈ w.registry := by
          rw [Std.ExtTreeMap.mem_iff_isSome_getElem?, hp]
          rfl
        rw [if_pos rfl] at hwatched
        refine ⟨unique_goto (w := w) (hinv t) hi (by simp), fun hs => ?_,
          fun j f hj hf hphase => ?_, fun j f hj hf hphase => ⟨hwatched, hiff.mp hregistered⟩⟩
        · have := hs.get (goto_get hi (.saving)) rfl
          cases this
        · rcases goto_cases (w := w) hi hj with ⟨rfl, rfl⟩ | ⟨hji, hj⟩
          · rcases hphase with h | h <;> cases h
          · refine absurd ((hinv t).unique j i f _ hj hi hf rfl ?_ (by simp)) hji
            rcases hphase with h | h <;> simp [h]
      · rw [if_neg hid] at hwatched
        refine (hinv id).frame (goto_execs (w := w) hi hid) Iff.rfl ?_ hwatched rfl (Or.inl rfl)
        show id ∈ registry ↔ _
        rw [Std.ExtTreeMap.mem_iff_isSome_getElem?, Std.ExtTreeMap.mem_iff_isSome_getElem?, hget,
          if_neg hid]
    · -- removed in between: neither watched nor registered
      rename_i hset
      cases h
      by_cases hid : t = id
      · subst hid
        have hgone : t ∉ w.registry := by
          rw [Std.ExtTreeMap.mem_iff_isSome_getElem?, Option.map_eq_none_iff.mp hset]
          simp
        refine .of_settled (settled_goto (hinv t) hi (by simp)) ?_ ?_ fun b hb => ?_
        · show t ∈ w.watchers ↔ w.registry.watched t = true
          rw [← hiff, hoff]
          simpa using hgone
        · show w.saved.watched t = w.registry.watched t
          rw [hoff, hsoff]
        · show w.registry.watched t = b
          cases b
          · exact hoff
          · exact absurd (hack hb) hgone
      · exact (hinv id).frame (goto_execs hi hid) Iff.rfl Iff.rfl rfl rfl (Or.inl rfl)
  · cases h

theorem inv_save {i : ℕ} (hinv : ∀ id, InvAt w id) (h : step w (.save i true) = some w')
    (id : String) : InvAt w' id := by
  simp only [step] at h
  split at h
  · rename_i t hi
    cases h
    by_cases hid : t = id
    · subst hid
      obtain ⟨hon, hlive⟩ := (hinv t).late i _ hi rfl rfl
      refine .of_settled (settled_goto (w := w) (hinv t) hi (by simp)) ?_ rfl fun b hb => ?_
      · show t ∈ w.watchers ↔ w.registry.watched t = true
        simp [hon, hlive]
      · have hacked : (w.acked.insert t true)[t]? = some true := by simp
        cases hacked.symm.trans hb
        exact hon
    · exact (hinv id).frame (goto_execs (w := w) hi hid) Iff.rfl Iff.rfl rfl
        (by show (w.acked.insert t true)[id]? = _
            rw [BTreeMap.get_insert, if_neg hid]) (Or.inr rfl)
  · cases h

end Steps

theorem inv_of_reach {w : World} (h : system.Reach CleanWatch w) : ∀ id, InvAt w id := by
  refine @Lts.Reach.invariant _ _ _ _ w (fun w => ∀ id, InvAt w id) ?_ ?_ h
  · rintro w ⟨hsaved, hlive, hexecs, hacked⟩ id
    exact .of_settled (by simp [Settled, hexecs]) (hlive id) (by rw [hsaved]) (by simp [hacked])
  · intro w a w' hinv hok hstep
    cases a with
    | register root ok => exact inv_register hinv hok hstep
    | remove id ok => exact inv_remove hinv hok hstep
    | watchOn id ok => exact inv_watchOn hinv hstep
    | watchOff id ok => exact inv_watchOff hinv hok hstep
    | converge i ok =>
        cases (show ok = true from hok)
        exact inv_converge hinv hstep
    | setFlag i => exact inv_setFlag hinv hstep
    | save i ok =>
        cases (show ok = true from hok)
        exact inv_save hinv hstep

/-- **Watch mode is consistent.** In every run of clean steps, a project with no `watch
on` on its way has a live watcher exactly when it is persisted as watched, and the last
watch outcome it was told is true of both. -/
theorem watch_consistent {w : World} (h : system.Reach CleanWatch w) {id : String}
    (hs : Settled w id) : Consistent w id := by
  obtain ⟨hlive, hsame, hack⟩ := (inv_of_reach h id).settled hs
  refine ⟨by rw [hsame]; exact hlive, fun b hb => ⟨?_, by rw [hsame]; exact hack b hb⟩⟩
  rw [hlive, hack b hb]

/-! ### Sample runs -/

instance (w : World) (id : String) : Decidable (Settled w id) :=
  inferInstanceAs (Decidable (∀ e ∈ w.execs, e.project = id → e.phase = .done))

instance (w : World) : DecidablePred (CleanWatch w)
  | .register root _ => inferInstanceAs (Decidable (Project.projectId root ∉ w.registry → Settled w _))
  | .remove id ok => inferInstanceAs (Decidable
      ((∀ e ∈ w.execs, e.project = id → e.phase ≠ .saving) ∧
        (ok = false → Settled w id ∧ w.saved.watched id = false)))
  | .watchOff id ok => inferInstanceAs (Decidable
      (Settled w id ∧ (ok = false → w.saved.watched id = false)))
  | .converge _ ok | .save _ ok => inferInstanceAs (Decidable (ok = true))
  | .watchOn _ _ | .setFlag _ => inferInstanceAs (Decidable True)

/-- A daemon with nothing registered. -/
def World.empty : World := ⟨∅, ∅, ∅, [], ∅⟩

theorem started_empty : Started .empty :=
  ⟨rfl, by simp [World.empty, ProjectRegistry.watched], rfl, rfl⟩

/-- `watch_consistent` on a project that is registered, watched, and asked twice. -/
theorem watch_consistent_sample : ∃ w : World, "app" ∈ w.watchers ∧ Consistent w "app" := by
  have hrun : (system.runOk (fun w a => decide (CleanWatch w a)) .empty
      [.register ["srv", "app"] true, .watchOn "app" true, .watchOn "app" true, .converge 0 true,
        .setFlag 0, .save 0 true]).map (fun w => decide ("app" ∈ w.watchers ∧ Settled w "app"))
      = some true := by decide +kernel
  obtain ⟨w, hw, hends⟩ := Option.map_eq_some_iff.mp hrun
  obtain ⟨hlive, hs⟩ := of_decide_eq_true hends
  exact ⟨w, hlive, watch_consistent
    (.runOk (fun _ _ => of_decide_eq_true) (.init started_empty) hw) hs⟩

/-- Two lies. An initial converge that fails leaves the watcher of an unwatched project
alive; and after an `off` while the converge runs, the `on` still persists the flag and
answers that the project is watched. -/
theorem watch_inconsistent :
    (∃ w : World, system.Reach Lts.anyStep w ∧ Settled w "app" ∧ ¬ Consistent w "app") ∧
    ∃ w : World, system.Reach Lts.anyStep w ∧ Settled w "app" ∧ w.acked["app"]? = some true ∧
      "app" ∉ w.watchers ∧ w.saved.watched "app" = true := by
  constructor
  · have hrun : (system.run .empty [.register ["srv", "app"] true, .watchOn "app" true,
        .converge 0 false]).map (fun w => decide ("app" ∈ w.watchers ∧ Settled w "app" ∧
          w.saved.watched "app" = false)) = some true := by decide +kernel
    obtain ⟨w, hw, hends⟩ := Option.map_eq_some_iff.mp hrun
    obtain ⟨hlive, hs, hoff⟩ := of_decide_eq_true hends
    refine ⟨w, .run (.init started_empty) (fun _ _ _ => trivial) hw, hs, fun h => ?_⟩
    rw [h.1.mp hlive] at hoff
    cases hoff
  · have hrun : (system.run .empty [.register ["srv", "app"] true, .watchOn "app" true,
        .watchOff "app" true, .converge 0 true, .setFlag 0, .save 0 true]).map (fun w =>
          decide (Settled w "app" ∧ w.acked["app"]? = some true ∧ "app" ∉ w.watchers ∧
            w.saved.watched "app" = true)) = some true := by decide +kernel
    obtain ⟨w, hw, hends⟩ := Option.map_eq_some_iff.mp hrun
    exact ⟨w, .run (.init started_empty) (fun _ _ _ => trivial) hw, of_decide_eq_true hends⟩

end Filigrio.Daemon.Watch
