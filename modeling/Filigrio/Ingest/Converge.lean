import Filigrio.Ingest.Watcher
import Filigrio.Pipeline.Heal

/-!
# Filigrio.Ingest.Converge

A watched project, once the tree is quiet: the batches of the watcher are applied in order
over one disk. What one operation does to one path is said in `current_signal` and
`current_reconcile`; from these follows what a batch does to it (`verdict`), and so when the
project ends in line with the disk (`watched_converges_iff`).
-/

namespace Filigrio

variable {C : Type}

/-! ### What a state should hold of a path -/

/-- A file in the walk that the extractor handles. -/
def Wanted (fs : Fs C) (ex : Extractor C) (disk : Disk C) (p : String) : Prop :=
  p ∈ fs.walk disk ∧ ex.handles (classify p) = true

instance (fs : Fs C) (ex : Extractor C) (disk : Disk C) (p : String) :
    Decidable (Wanted fs ex disk p) := inferInstanceAs (Decidable (_ ∧ _))

/-- A wanted file has the nodes of its content, and an entry; any other path has neither nodes
nor an entry. -/
structure Current (fs : Fs C) (ex : Extractor C) (disk : Disk C) (s : GraphState) (p : String) :
    Prop where
  shown : Wanted fs ex disk p →
    (∃ f, disk[p]? = some f ∧ Shows ex s p f.content) ∧ p ∈ s.manifest.entries
  forgotten : ¬ Wanted fs ex disk p → Forgot s p

/-- The state of a project that is honest about the disk; what left the walk has nodes only if
it has an entry too. -/
structure Grounded (pl : Pipeline C) (disk : Disk C) (s : GraphState) : Prop where
  reach : PipelineReach pl.stages pl.extractor s
  honest : Honest pl.fs pl.extractor disk s
  owned : ∀ p, p ∉ pl.fs.walk disk → p ∉ s.manifest.entries →
    ∀ n ∈ s.graph.nodes, n.sourceFile ≠ some p

section Operations

variable {pl : Pipeline C} {disk : Disk C} {s s' : GraphState} {changes raw : ChangeSet}
  {report : BuildReport} {p : String}

/-- A file that is not handled has no nodes. -/
theorem no_nodes_of_unhandled {st : Stages C} {ex : Extractor C} (hex : ex.PerFile)
    (hno : ex.NoOverlay) (hreach : PipelineReach st ex s) (hp : ex.handles (classify p) ≠ true) :
    ∀ n ∈ s.graph.nodes, n.sourceFile ≠ some p := by
  intro n hn hfile
  obtain ⟨L, hs⟩ := Pipeline.exists_listed hex hno hreach
  obtain ⟨f, hf, rfl, _⟩ := (Ledger.mem_fileNodes hex hs).mp ⟨hn, hfile⟩
  exact hp (hs.ok.yields hf).1

theorem not_mem_disk (hwalk : p ∉ pl.fs.walk disk) (hscope : pl.fs.inScope p = true) :
    disk[p]? = none := by
  by_contra hsome
  apply hwalk
  rw [mem_walk, Std.ExtTreeMap.mem_iff_isSome_getElem?]
  exact ⟨Option.isSome_iff_ne_none.mpr hsome, hscope⟩

theorem exists_of_mem_walk (hwalk : p ∈ pl.fs.walk disk) : ∃ f, disk[p]? = some f :=
  Option.isSome_iff_exists.mp (Std.ExtTreeMap.mem_iff_isSome_getElem?.mp (mem_walk.mp hwalk).1)

theorem current_of_wanted {f : File C} (hwanted : Wanted pl.fs pl.extractor disk p)
    (hfile : disk[p]? = some f)
    (h : Shows pl.extractor s p f.content ∧ p ∈ s.manifest.entries) :
    Current pl.fs pl.extractor disk s p :=
  ⟨fun _ => ⟨⟨f, hfile, h.1⟩, h.2⟩, fun hnot => absurd hwanted hnot⟩

theorem current_of_forgot (hnot : ¬ Wanted pl.fs pl.extractor disk p) (h : Forgot s p) :
    Current pl.fs pl.extractor disk s p :=
  ⟨fun hwanted => absurd hwanted hnot, fun _ => h⟩

/-- An entry of a path that is not wanted is one too many. -/
theorem not_current_of_entry (hnot : ¬ Wanted pl.fs pl.extractor disk p)
    (h : p ∈ s.manifest.entries) : ¬ Current pl.fs pl.extractor disk s p :=
  fun hcurrent => (hcurrent.forgotten hnot).2 h

/-- What is not touched is as right as it was. -/
theorem current_untouched (happlied : Applied pl.extractor (pl.fs.source disk) changes s s')
    (hp : p ∉ changes.touched) :
    Current pl.fs pl.extractor disk s' p ↔ Current pl.fs pl.extractor disk s p := by
  constructor
  · intro ⟨hshown, hforgotten⟩
    refine ⟨fun hwanted => ?_, fun hnot => (happlied.forgot_iff hp).mp (hforgotten hnot)⟩
    obtain ⟨⟨f, hfile, hshows⟩, hkey⟩ := hshown hwanted
    exact ⟨⟨f, hfile, (happlied.shows_iff hp).mp hshows⟩, (happlied.key_iff hp).mp hkey⟩
  · intro ⟨hshown, hforgotten⟩
    refine ⟨fun hwanted => ?_, fun hnot => (happlied.forgot_iff hp).mpr (hforgotten hnot)⟩
    obtain ⟨⟨f, hfile, hshows⟩, hkey⟩ := hshown hwanted
    exact ⟨⟨f, hfile, (happlied.shows_iff hp).mpr hshows⟩, (happlied.key_iff hp).mpr hkey⟩

/-! ### One apply -/

/-- A touched path outside the walk loses its nodes. -/
theorem no_nodes_of_touched (happlied : Applied pl.extractor (pl.fs.source disk) changes s s')
    (hscope : ∀ q ∈ changes.toIndex, pl.fs.inScope q = true) (hwalk : p ∉ pl.fs.walk disk)
    (hp : p ∈ changes.touched) : ∀ n ∈ s'.graph.nodes, n.sourceFile ≠ some p := by
  apply happlied.dropped p hp
  intro hindexed
  show disk[p]?.isSome = false
  rw [not_mem_disk hwalk (hscope p hindexed)]
  rfl

section Apply

variable (hex : pl.extractor.PerFile) (hno : pl.extractor.NoOverlay) (hg : Grounded pl disk s)
include hex hno hg

theorem applied_of_grounded (h : pl.apply disk s changes = .ok (s', report)) :
    Applied pl.extractor (pl.fs.source disk) changes s s' := by
  obtain ⟨L, hs⟩ := Pipeline.exists_listed hex hno hg.reach
  exact (Pipeline.applied_of_apply hex hno hs h).2

/-- An apply of paths in scope leaves the state grounded. -/
theorem grounded_apply (hscope : ∀ q ∈ changes.toIndex, pl.fs.inScope q = true)
    (h : pl.apply disk s changes = .ok (s', report)) : Grounded pl disk s' := by
  have happlied := applied_of_grounded hex hno hg h
  refine ⟨.apply hg.reach rfl rfl h, fun p e f hentry hfile hhandles hstamp => ?_,
    fun p hwalk hkey => ?_⟩
  · rw [get_manifest_apply h] at hentry
    by_cases hp : p ∈ changes.toIndex
    · -- the entry was stamped by this apply, over this disk
      have hsome : (pl.fs.source disk).exists p = true := by
        show disk[p]?.isSome = true
        rw [hfile]
        rfl
      obtain ⟨c, hread, hshows⟩ := happlied.indexed p hp hsome hhandles
      obtain ⟨g, hgfile, -, rfl⟩ := read_eq_ok.mp hread
      cases hfile.symm.trans hgfile
      exact hshows
    · rw [if_neg hp] at hentry
      split at hentry
      · cases hentry
      · rename_i hremoved
        have huntouched : p ∉ changes.touched := fun h =>
          (ChangeSet.mem_touched.mp h).elim hp hremoved
        exact (happlied.shows_iff huntouched).mpr (hg.honest p e f hentry hfile hhandles hstamp)
  · by_cases hp : p ∈ changes.touched
    · exact no_nodes_of_touched happlied hscope hwalk hp
    · have hkey' : p ∉ s.manifest.entries := fun h => hkey ((happlied.key_iff hp).mpr h)
      intro n hn hfile
      obtain ⟨hn, hfile⟩ := (happlied.untouched p hp n).mp ⟨hn, hfile⟩
      exact hg.owned p hwalk hkey' n hn hfile

end Apply

/-! ### A signal -/

section Signal

variable (hex : pl.extractor.PerFile) (hno : pl.extractor.NoOverlay) (hg : Grounded pl disk s)
  (h : pl.applySignal disk s raw = .ok (s', report))
include hex hno hg h

theorem grounded_signal : Grounded pl disk s' := by
  unfold Pipeline.applySignal at h
  dsimp only at h
  split at h
  · cases h
    exact hg
  · refine grounded_apply hex hno hg (fun q hq => ?_) h
    exact (Bool.and_eq_true_iff.mp (mem_toIndex_gate.mp hq).2).1

/-- **What a signal does to a path**: what it calls removed is forgotten; what it lists to index,
in scope, is brought in line, but a file that is there and not handled gets an entry; the
rest stays. -/
theorem current_signal : Current pl.fs pl.extractor disk s' p ↔
    if p ∈ raw.removed then ¬ Wanted pl.fs pl.extractor disk p
    else if p ∈ raw.toIndex ∧ pl.fs.inScope p = true then
      Wanted pl.fs pl.extractor disk p ∨ disk[p]? = none
    else Current pl.fs pl.extractor disk s p := by
  have happlied := Pipeline.applied_of_applySignal hex hno hg.reach h
  have hg' := grounded_signal hex hno hg h
  by_cases hremoved : p ∈ raw.removed
  · rw [if_pos hremoved]
    have hkey : p ∉ s'.manifest.entries := fun hkey => ((happlied.keys p).mp hkey).2.1 hremoved
    constructor
    · intro hcurrent hwanted
      exact hkey (hcurrent.shown hwanted).2
    · intro hnot
      refine current_of_forgot hnot ⟨?_, hkey⟩
      by_cases hwalk : p ∈ pl.fs.walk disk
      · exact no_nodes_of_unhandled hex hno hg'.reach fun hhandles => hnot ⟨hwalk, hhandles⟩
      · exact hg'.owned p hwalk hkey
  · rw [if_neg hremoved]
    by_cases hnamed : p ∈ raw.toIndex ∧ pl.fs.inScope p = true
    · rw [if_pos hnamed]
      cases hfile : disk[p]? with
      | none =>
          refine iff_of_true (current_of_forgot ?_ ?_) (Or.inr rfl)
          · intro ⟨hwalk, _⟩
            obtain ⟨f, hf⟩ := exists_of_mem_walk hwalk
            rw [hfile] at hf
            cases hf
          · exact forgot_of_signal happlied hfile (Or.inr hnamed)
      | some f =>
          have hwalk : p ∈ pl.fs.walk disk := by
            rw [mem_walk, Std.ExtTreeMap.mem_iff_isSome_getElem?, hfile]
            exact ⟨rfl, hnamed.2⟩
          by_cases hhandles : pl.extractor.handles (classify p) = true
          · refine iff_of_true (current_of_wanted ⟨hwalk, hhandles⟩ hfile ?_)
              (Or.inl ⟨hwalk, hhandles⟩)
            exact shows_of_signal happlied hg.honest hfile hnamed.2 hhandles hnamed.1 hremoved
          · -- the file has an entry now, and no nodes
            have hnot : ¬ Wanted pl.fs pl.extractor disk p := fun hwanted => hhandles hwanted.2
            refine iff_of_false (not_current_of_entry hnot ?_) ?_
            · have hsome : (pl.fs.source disk).exists p = true := by
                show disk[p]?.isSome = true
                rw [hfile]
                rfl
              by_cases hkeep : pl.fs.keep disk s p = true
              · exact (happlied.keys p).mpr
                  ⟨Or.inl ⟨mem_toIndex_gate.mpr ⟨hnamed.1, hkeep⟩, hsome⟩, hremoved, fun _ => hsome⟩
              · have hunchanged : pl.fs.isUnchanged disk s.manifest false p = true := by
                  simpa [Fs.keep, hnamed.2] using hkeep
                obtain ⟨e, _, hentry, -, -⟩ := entry_of_isUnchanged hunchanged
                have hkey : p ∈ s.manifest.entries :=
                  Std.ExtTreeMap.mem_iff_isSome_getElem?.mpr (by rw [hentry]; rfl)
                exact (happlied.keys p).mpr ⟨Or.inr hkey, hremoved, fun _ => hsome⟩
            · rintro (hwanted | hnone)
              · exact hnot hwanted
              · cases hnone
    · rw [if_neg hnamed]
      exact current_untouched happlied (untouched_of_signal hremoved hnamed)

end Signal

/-! ### A reconcile -/

section Reconcile

variable {deep : Bool} {reconciled : Fs.ReconcileReport} (hex : pl.extractor.PerFile)
  (hno : pl.extractor.NoOverlay) (hg : Grounded pl disk s)
  (h : pl.reconcileAndApply disk s deep = .ok (s', reconciled, report))
include hex hno hg h

/-- A reconcile applies its changes; where there are none, that changes nothing. -/
theorem applied_of_reconcile : Grounded pl disk s' ∧
    Applied pl.extractor (pl.fs.source disk) (pl.fs.reconcile disk s deep).2 s s' := by
  unfold Pipeline.reconcileAndApply at h
  dsimp only at h
  split at h
  · obtain ⟨⟨t, build⟩, happly, h⟩ := bind_eq_ok.mp h
    cases h
    refine ⟨grounded_apply hex hno hg (fun q hq => ?_) happly, applied_of_grounded hex hno hg happly⟩
    exact (mem_walk.mp (mem_toIndex_reconcile.mp hq).1).2
  · rename_i hdrift
    cases h
    have hnothing := hasDrift_reconcile.mp (Bool.not_eq_true _ ▸ hdrift)
    rw [hnothing]
    exact ⟨hg, applied_empty rfl⟩

/-- **What a reconcile does to a path**: outside the walk it is forgotten; an indexable file of
the walk is brought in line, but one that is not handled gets an entry; the rest stays. -/
theorem current_reconcile : Current pl.fs pl.extractor disk s' p ↔
    if p ∈ pl.fs.walk disk then
      if isIndexable p then Wanted pl.fs pl.extractor disk p
      else Current pl.fs pl.extractor disk s p
    else True := by
  obtain ⟨hg', happlied⟩ := applied_of_reconcile hex hno hg h
  by_cases hwalk : p ∈ pl.fs.walk disk
  · rw [if_pos hwalk]
    have hremoved : p ∉ (pl.fs.reconcile disk s deep).2.removed := fun h =>
      (mem_removed_reconcile.mp h).2 hwalk
    by_cases hindexable : isIndexable p = true
    · rw [if_pos hindexable]
      obtain ⟨f, hfile⟩ := exists_of_mem_walk hwalk
      have hsome : (pl.fs.source disk).exists p = true := by
        show disk[p]?.isSome = true
        rw [hfile]
        rfl
      -- listed or found unchanged, it has an entry
      have hline : p ∈ s'.manifest.entries ∧ (pl.extractor.handles (classify p) = true →
          Shows pl.extractor s' p f.content) := by
        by_cases hlisted : p ∈ (pl.fs.reconcile disk s deep).2.toIndex
        · refine ⟨(happlied.keys p).mpr ⟨Or.inl ⟨hlisted, hsome⟩, hremoved, fun _ => hsome⟩,
            fun hhandles => ?_⟩
          obtain ⟨c, hread, hshows⟩ := happlied.indexed p hlisted hsome hhandles
          obtain ⟨g, hgfile, -, rfl⟩ := read_eq_ok.mp hread
          cases hfile.symm.trans hgfile
          exact hshows
        · have hunchanged : pl.fs.isUnchanged disk s.manifest deep p = true := by
            by_contra hchanged
            exact hlisted (mem_toIndex_reconcile.mpr
              ⟨hwalk, hindexable, Bool.eq_false_iff.mpr hchanged⟩)
          obtain ⟨e, g, hentry, hgfile, hstamp⟩ := entry_of_isUnchanged hunchanged
          cases hfile.symm.trans hgfile
          have huntouched : p ∉ (pl.fs.reconcile disk s deep).2.touched := fun h =>
            (ChangeSet.mem_touched.mp h).elim hlisted hremoved
          refine ⟨(happlied.key_iff huntouched).mpr ?_, fun hhandles => ?_⟩
          · exact Std.ExtTreeMap.mem_iff_isSome_getElem?.mpr (by rw [hentry]; rfl)
          · exact (happlied.shows_iff huntouched).mpr
              (hg.honest p e f hentry hfile hhandles (hstamp.imp id And.right))
      by_cases hhandles : pl.extractor.handles (classify p) = true
      · exact iff_of_true (current_of_wanted ⟨hwalk, hhandles⟩ hfile ⟨hline.2 hhandles, hline.1⟩)
          ⟨hwalk, hhandles⟩
      · have hnot : ¬ Wanted pl.fs pl.extractor disk p := fun hwanted => hhandles hwanted.2
        exact iff_of_false (not_current_of_entry hnot hline.1) hnot
    · rw [if_neg hindexable]
      apply current_untouched happlied
      intro htouched
      rcases ChangeSet.mem_touched.mp htouched with hlisted | h
      · exact hindexable (mem_toIndex_reconcile.mp hlisted).2.1
      · exact hremoved h
  · rw [if_neg hwalk]
    refine iff_of_true (current_of_forgot (fun hwanted => hwalk hwanted.1) ?_) trivial
    have hkey : p ∉ s'.manifest.entries := by
      intro hkey
      obtain ⟨⟨hlisted, _⟩ | hkey, hremoved, _⟩ := (happlied.keys p).mp hkey
      · exact hwalk (mem_toIndex_reconcile.mp hlisted).1
      · exact hremoved (mem_removed_reconcile.mpr ⟨hkey, hwalk⟩)
    exact ⟨hg'.owned p hwalk hkey, hkey⟩

end Reconcile

end Operations

/-! ### Jobs in order -/

namespace Pipeline

variable (pl : Pipeline C) (disk : Disk C)

/-- `Engine::recluster`, put into the state. -/
def recluster (s : GraphState) : Except Error GraphState := do
  let partition ← Engine.recluster pl.stages s
  pure { s with partition := partition }

/-- What a job does to the state of its project. -/
def perform (s : GraphState) : Daemon.Op → Except Error GraphState
  | .apply changes => (pl.applySignal disk s changes).map Prod.fst
  | .applyExact changes => (pl.apply disk s changes).map Prod.fst
  | .reconcile deep => (pl.reconcileAndApply disk s deep).map Prod.fst
  | .recluster => pl.recluster s

/-- Job after job, until one fails. -/
def performAll : GraphState → List Daemon.Op → Except Error GraphState
  | s, [] => pure s
  | s, op :: ops => do
    let s ← pl.perform disk s op
    performAll s ops

theorem performAll_append {s s' : GraphState} {ops ops' : List Daemon.Op} :
    pl.performAll disk s (ops ++ ops') = .ok s' ↔
      ∃ t, pl.performAll disk s ops = .ok t ∧ pl.performAll disk t ops' = .ok s' := by
  induction ops generalizing s with
  | nil =>
      constructor
      · intro h
        exact ⟨s, rfl, h⟩
      · intro ⟨t, ht, h⟩
        cases ht
        exact h
  | cons op ops ih =>
      rw [List.cons_append, performAll, performAll, bind_eq_ok]
      constructor
      · intro ⟨t, ht, h⟩
        obtain ⟨u, hu, h⟩ := ih.mp h
        exact ⟨u, bind_eq_ok.mpr ⟨t, ht, hu⟩, h⟩
      · intro ⟨u, hu, h⟩
        obtain ⟨t, ht, hu⟩ := bind_eq_ok.mp hu
        exact ⟨t, ht, ih.mpr ⟨u, hu, h⟩⟩

end Pipeline

/-! ### What a batch decides -/

section Watched

open Ingest Daemon

/-- Is the path right after a batch, given whether it was before? The removal of a path decides
first, then an event that finds it there, then an ignore file. -/
def verdict (fs : Fs C) (ex : Extractor C) (disk : Disk C) (root : Daemon.Path) (p : String)
    (before : Prop) (scan : Scan) : Prop :=
  if scan.tells root true p then ¬ Wanted fs ex disk p
  else if scan.tells root false p ∧ fs.inScope p = true then
    Wanted fs ex disk p ∨ disk[p]? = none
  else if Rescopes scan.events ∧ (p ∈ fs.walk disk → isIndexable p = true) then
    p ∈ fs.walk disk → Wanted fs ex disk p
  else before

/-- The last batch that decides about the path decides that it is right; where none does, it was
right before. -/
@[irreducible] def Decided (fs : Fs C) (ex : Extractor C) (disk : Disk C) (root : Daemon.Path) (p : String)
    (start : Prop) (scans : List Scan) : Prop :=
  scans.foldl (verdict fs ex disk root p) start

variable {pl : Pipeline C} {disk : Disk C} {s s' : GraphState} {root : Daemon.Path} {p : String}

section Steps

variable (hex : pl.extractor.PerFile) (hno : pl.extractor.NoOverlay) (hg : Grounded pl disk s)
include hex hno hg

/-- The reconcile of a batch that names an ignore file. -/
theorem rescope_step {rescopes : Prop} [Decidable rescopes]
    (h : pl.performAll disk s ((if rescopes then [Produced.reconcile false] else []).map opOf)
      = .ok s') :
    Grounded pl disk s' ∧ ∀ p, Current pl.fs pl.extractor disk s' p ↔
      if rescopes ∧ (p ∈ pl.fs.walk disk → isIndexable p = true) then
        p ∈ pl.fs.walk disk → Wanted pl.fs pl.extractor disk p
      else Current pl.fs pl.extractor disk s p := by
  by_cases hrescopes : rescopes
  · rw [if_pos hrescopes] at h
    obtain ⟨t, ht, h⟩ := bind_eq_ok.mp h
    cases h
    obtain ⟨⟨t, reconciled, report⟩, hrun, rfl⟩ := map_eq_ok.mp ht
    refine ⟨(applied_of_reconcile hex hno hg hrun).1, fun p => ?_⟩
    rw [current_reconcile hex hno hg hrun]
    by_cases hwalk : p ∈ pl.fs.walk disk
    · by_cases hindexable : isIndexable p = true <;> simp [hrescopes, hwalk, hindexable]
    · simp [hrescopes, hwalk]
  · rw [if_neg hrescopes] at h
    cases h
    refine ⟨hg, fun p => ?_⟩
    rw [if_neg fun h => hrescopes h.1]

/-- The signal of a batch, if it lists anything. -/
theorem signal_step {changeset : ChangeSet}
    (h : pl.performAll disk s ((if changeset.isEmpty then [] else [Produced.signal changeset]).map
      opOf) = .ok s') :
    Grounded pl disk s' ∧ ∀ p, Current pl.fs pl.extractor disk s' p ↔
      if p ∈ changeset.removed then ¬ Wanted pl.fs pl.extractor disk p
      else if p ∈ changeset.toIndex ∧ pl.fs.inScope p = true then
        Wanted pl.fs pl.extractor disk p ∨ disk[p]? = none
      else Current pl.fs pl.extractor disk s p := by
  by_cases hempty : changeset.isEmpty = true
  · rw [if_pos hempty] at h
    cases h
    obtain ⟨⟨hadded, hmodified⟩, hremoved⟩ : (changeset.added = [] ∧ changeset.modified = []) ∧
        changeset.removed = [] := by
      simpa [ChangeSet.isEmpty] using hempty
    refine ⟨hg, fun p => ?_⟩
    simp [ChangeSet.toIndex, hadded, hmodified, hremoved]
  · rw [if_neg hempty] at h
    obtain ⟨t, ht, h⟩ := bind_eq_ok.mp h
    cases h
    obtain ⟨⟨t, report⟩, hrun, rfl⟩ := map_eq_ok.mp ht
    exact ⟨grounded_signal hex hno hg hrun, fun p => current_signal hex hno hg hrun⟩

/-- What the jobs of one batch do to each path. -/
theorem scan_step {scan : Scan}
    (h : pl.performAll disk s ((scan.produced root).map opOf) = .ok s') :
    Grounded pl disk s' ∧ ∀ p, Current pl.fs pl.extractor disk s' p ↔
      verdict pl.fs pl.extractor disk root p (Current pl.fs pl.extractor disk s p) scan := by
  unfold Scan.produced at h
  rw [List.map_append, Pipeline.performAll_append] at h
  obtain ⟨t, hrescope, hsignal⟩ := h
  obtain ⟨hgt, hcurrent⟩ := rescope_step hex hno hg hrescope
  obtain ⟨hg', hcurrent'⟩ := signal_step hex hno hgt hsignal
  refine ⟨hg', fun p => ?_⟩
  have hremoved : p ∈ (classifyEvents root scan.snap scan.boundary scan.events).changeset.removed ↔
      scan.tells root true p := mem_removed_classifyEvents
  have hindexed : p ∈ (classifyEvents root scan.snap scan.boundary scan.events).changeset.toIndex ↔
      scan.tells root false p := mem_toIndex_classifyEvents
  rw [hcurrent', hcurrent]
  simp only [hremoved, hindexed]
  rfl

/-- A whole run, batch by batch. -/
theorem scans_run {scans : List Scan}
    (h : pl.performAll disk s ((scans.flatMap (Scan.produced root)).map opOf) = .ok s') :
    ∀ p, Current pl.fs pl.extractor disk s' p ↔
      Decided pl.fs pl.extractor disk root p (Current pl.fs pl.extractor disk s p) scans := by
  induction scans generalizing s with
  | nil =>
      cases h
      intro p
      rw [Decided, List.foldl_nil]
  | cons scan scans ih =>
      rw [List.flatMap_cons, List.map_append, Pipeline.performAll_append] at h
      obtain ⟨t, hscan, h⟩ := h
      obtain ⟨hgt, hcurrent⟩ := scan_step hex hno hg hscan
      intro p
      rw [ih hgt h p, Decided, Decided, List.foldl_cons, propext (hcurrent p)]

end Steps

/-! ### The start -/

/-- A state that was taken from a tree: a handled file with an entry is shown as it was then, and
the entry is stamped with it. Nodes belong to entries. -/
structure TakenFrom (hash : C → ℕ) (ex : Extractor C) (disk : Disk C) (s : GraphState) : Prop where
  shown : ∀ p e, s.manifest.entries[p]? = some e → ex.handles (classify p) = true →
    ∃ f, disk[p]? = some f ∧ Shows ex s p f.content ∧ e.lastModified = f.mtime ∧
      e.hash = hash f.content
  owned : ∀ p, p ∉ s.manifest.entries → ∀ n ∈ s.graph.nodes, n.sourceFile ≠ some p

/-- Between two trees, a content change changes the modification time, and the hash. -/
structure ChangesShow (hash : C → ℕ) (old new : Disk C) : Prop where
  mtime : ∀ (p : String) (f g : File C) m, old[p]? = some f → new[p]? = some g → f.mtime = some m → g.mtime = some m →
    f.content = g.content
  hash : ∀ (p : String) (f g : File C), old[p]? = some f → new[p]? = some g → hash f.content = hash g.content →
    f.content = g.content

/-- The state taken from the old tree is honest about the new one. -/
theorem grounded_of_taken {old : Disk C} (hreach : PipelineReach pl.stages pl.extractor s)
    (htaken : TakenFrom pl.fs.hash pl.extractor old s)
    (hshow : ChangesShow pl.fs.hash old disk) : Grounded pl disk s := by
  refine ⟨hreach, fun p e g hentry hfile hhandles hstamp => ?_, fun p _ => htaken.owned p⟩
  obtain ⟨f, hf, hshows, hmtime, hhash⟩ := htaken.shown p e hentry hhandles
  have hsame : f.content = g.content := by
    rcases hstamp with ⟨m, hm, hg⟩ | hstamp
    · exact hshow.mtime p f g m hf hfile (hmtime.symm.trans hm) hg
    · exact hshow.hash p f g hf hfile (hhash.symm.trans hstamp.symm)
  rw [← hsame]
  exact hshows

theorem grounded_empty : Grounded pl disk .empty where
  reach := .empty
  honest p e f hentry := by simp [GraphState.empty] at hentry
  owned p _ _ n hn := by simp [GraphState.empty] at hn

/-- A cold build is taken from its tree. -/
theorem takenFrom_build {report : BuildReport} (hex : pl.extractor.PerFile)
    (hno : pl.extractor.NoOverlay) (h : pl.build disk .empty = .ok (s, report)) :
    TakenFrom pl.fs.hash pl.extractor disk s ∧ PipelineReach pl.stages pl.extractor s := by
  obtain ⟨⟨t, reconciled, report'⟩, hrun, h⟩ := bind_eq_ok.mp h
  cases h
  obtain ⟨hg, happlied⟩ := applied_of_reconcile hex hno grounded_empty hrun
  refine ⟨⟨fun p e hentry hhandles => ?_, fun p hkey => ?_⟩, hg.reach⟩
  · unfold Pipeline.reconcileAndApply at hrun
    dsimp only at hrun
    split at hrun
    · obtain ⟨⟨t, build⟩, happly, hrun⟩ := bind_eq_ok.mp hrun
      cases hrun
      rw [get_manifest_apply happly] at hentry
      split at hentry
      · rename_i hlisted
        split at hentry
        · rename_i hkept
          cases hentry
          obtain ⟨c, hread, hshows⟩ := happlied.indexed p hlisted hkept.1 hhandles
          obtain ⟨f, hfile, hreadable, rfl⟩ := read_eq_ok.mp hread
          have hhash : pl.fs.hashFile disk p = .ok (pl.fs.hash f.content) :=
            map_eq_ok.mpr ⟨f.content, hread, rfl⟩
          refine ⟨f, hfile, hshows, ?_, ?_⟩
          · show disk[p]?.bind File.mtime = f.mtime
            rw [hfile]
            rfl
          · unfold Fs.stampEntry
            rw [hhash]
        · cases hentry
      · split at hentry <;> simp [GraphState.empty] at hentry
    · cases hrun
      simp [GraphState.empty] at hentry
  · by_cases hwalk : p ∈ pl.fs.walk disk
    · intro n hn hfile
      by_cases hlisted : p ∈ (pl.fs.reconcile disk .empty false).2.toIndex
      · apply hkey
        refine (happlied.keys p).mpr ⟨Or.inl ⟨hlisted, ?_⟩, fun h => ?_, fun _ => ?_⟩
        · exact Std.ExtTreeMap.mem_iff_isSome_getElem?.mp (mem_walk.mp hwalk).1
        · exact (mem_removed_reconcile.mp h).2 hwalk
        · exact Std.ExtTreeMap.mem_iff_isSome_getElem?.mp (mem_walk.mp hwalk).1
      · have huntouched : p ∉ (pl.fs.reconcile disk .empty false).2.touched := fun h =>
          (ChangeSet.mem_touched.mp h).elim hlisted fun h => (mem_removed_reconcile.mp h).2 hwalk
        have hn := ((happlied.untouched p huntouched n).mp ⟨hn, hfile⟩).1
        simp [GraphState.empty] at hn
    · exact hg.owned p hwalk hkey

/-- **When a watched project converges.** From every state taken from a tree, for every later
tree and every sequence of batches, classified over whatever trees there were in between: when
the jobs have been done in order over the later tree, every path is right if and only if it is
decided so. -/
theorem watched_converges_iff {old : Disk C} {batches : List (Snapshot × DebounceEventResult)}
    (hex : pl.extractor.PerFile) (hno : pl.extractor.NoOverlay)
    (hreach : PipelineReach pl.stages pl.extractor s)
    (htaken : TakenFrom pl.fs.hash pl.extractor old s)
    (hshow : ChangesShow pl.fs.hash old disk)
    (hrun : pl.performAll disk s ((watch root .new batches).map opOf) = .ok s') :
    (∀ p, Current pl.fs pl.extractor disk s' p) ↔
      ∀ p, Decided pl.fs pl.extractor disk root p (Current pl.fs pl.extractor disk s p)
        (scans root .new batches) := by
  rw [watch_eq] at hrun
  exact forall_congr' (scans_run hex hno (grounded_of_taken hreach htaken hshow) hrun)

/-! ### Sample runs -/

/-- What is promised of the notifications: lost events are reported, or else every path that
changed is named by an event that is not a read, or lies below a path that is. -/
def Announced (root : Daemon.Path) (old new : Disk C)
    (batches : List (Snapshot × DebounceEventResult)) : Prop :=
  (∃ batch ∈ batches, (∃ errors, batch.2 = .error errors) ∨
    ∃ events, batch.2 = .ok events ∧ ∃ event ∈ events, event.rescan = true) ∨
  ∀ p, old[p]? ≠ new[p]? → ∃ batch ∈ batches, ∃ events, batch.2 = .ok events ∧
    ∃ event ∈ events, isRead event.kind = false ∧
      ∃ path ∈ event.paths, path <+: root ++ Daemon.Path.parse p

end Watched

namespace Snippet

open Ingest Daemon

theorem get_disk_eq (path : String) (snippet : Snippet) (mtime : ℕ) (p : String) :
    (disk [(path, snippet)] mtime)[p]? =
      if path = p then some ⟨snippet, some mtime, true⟩ else none := by
  rw [disk, BTreeMap.get_insertNew]
  by_cases hp : path = p <;> simp [hp]

theorem wanted_disk_iff {path p : String} {snippet : Snippet} {mtime : ℕ}
    (hcode : (classify path).kind = .code) :
    Wanted pipeline.fs pipeline.extractor (disk [(path, snippet)] mtime) p ↔ p = path := by
  have hwalk : p ∈ pipeline.fs.walk (disk [(path, snippet)] mtime) ↔ p = path := by
    rw [mem_walk, Std.ExtTreeMap.mem_iff_isSome_getElem?, get_disk_eq]
    by_cases hp : path = p
    · simp [hp, pipeline, fs]
    · simp [hp, Ne.symm hp]
  have hhandles : ∀ a, pipeline.extractor.handles a = decide (a.kind = .code) := fun _ => rfl
  rw [Wanted, hwalk, hhandles]
  refine and_iff_left_of_imp fun hp => ?_
  rw [hp, hcode]
  rfl

/-- A cold build of one code file leaves every path right. -/
theorem current_of_build {path : String} {snippet : Snippet} {mtime : ℕ} {s : GraphState}
    {report : BuildReport} (hcode : (classify path).kind = .code)
    (h : pipeline.build (disk [(path, snippet)] mtime) .empty = .ok (s, report)) (p : String) :
    Current pipeline.fs pipeline.extractor (disk [(path, snippet)] mtime) s p := by
  obtain ⟨⟨t, reconciled, report'⟩, hrun, h⟩ := bind_eq_ok.mp h
  cases h
  have hempty : Grounded pipeline (disk [(path, snippet)] mtime) .empty := grounded_empty
  refine (current_reconcile perFile noOverlay hempty hrun).mpr ?_
  split
  · rename_i hwalk
    have hp : p = path := by
      by_contra hne
      obtain ⟨f, hfile⟩ := exists_of_mem_walk hwalk
      rw [get_disk_eq, if_neg (Ne.symm hne)] at hfile
      cases hfile
    have hindexable : isIndexable p = true := by
      rw [isIndexable, hp, hcode]
      rfl
    rw [if_pos hindexable]
    exact (wanted_disk_iff hcode).mpr hp
  · trivial

/-- Two one-file trees: a change of the file shows in its time and its hash. -/
theorem changesShow_disk {path path' : String} {old new : Snippet} {m m' : ℕ}
    (htime : path = path' → m = m' → old = new)
    (hhash : path = path' → pipeline.fs.hash old = pipeline.fs.hash new → old = new) :
    ChangesShow pipeline.fs.hash (disk [(path, old)] m) (disk [(path', new)] m') := by
  have hfile : ∀ (p : String) (f g : File Snippet), (disk [(path, old)] m)[p]? = some f →
      (disk [(path', new)] m')[p]? = some g →
      path = path' ∧ f = ⟨old, some m, true⟩ ∧ g = ⟨new, some m', true⟩ := by
    intro p f g hf hg
    rw [get_disk_eq] at hf hg
    split at hf
    · rename_i hp
      split at hg
      · rename_i hp'
        exact ⟨hp.trans hp'.symm, (Option.some.inj hf).symm, (Option.some.inj hg).symm⟩
      · cases hg
    · cases hf
  constructor
  · intro p f g t hf hg hft hgt
    obtain ⟨hpath, rfl, rfl⟩ := hfile p f g hf hg
    exact htime hpath (Option.some.inj (hft.trans hgt.symm))
  · intro p f g hf hg hsame
    obtain ⟨hpath, rfl, rfl⟩ := hfile p f g hf hg
    exact hhash hpath hsame

/-- A tree without directories and ignore files. -/
def flat : Snapshot := ⟨fun _ => false, fun _ => none⟩

/-- A file of the project at `/p` is written. -/
def written : List (Snapshot × DebounceEventResult) :=
  [(flat, .ok [⟨.modify, [["/", "p", "a.ts"]], false⟩])]

theorem scans_written : scans ["/", "p"] .new written =
    [⟨.new, flat, [⟨.modify, [["/", "p", "a.ts"]], false⟩]⟩] := by
  rw [written, scans, scans, if_neg (by decide +kernel)]

/-- The event names the file, which is there. -/
theorem decided_written (start : Prop) : Decided pipeline.fs pipeline.extractor
    (disk [("a.ts", .plain "gg")] 2) ["/", "p"] "a.ts" start (scans ["/", "p"] .new written) := by
  have hwanted : Wanted pipeline.fs pipeline.extractor (disk [("a.ts", .plain "gg")] 2) "a.ts" :=
    (wanted_disk_iff (by decide +kernel)).mpr rfl
  rw [scans_written, Decided, List.foldl_cons, List.foldl_nil, verdict, if_neg (by decide +kernel),
    if_pos ⟨by decide +kernel, rfl⟩]
  exact Or.inl hwanted

/-- It names no other path. -/
theorem decided_of_ne {p : String} {start : Prop} (hp : p ≠ "a.ts") (h : start) :
    Decided pipeline.fs pipeline.extractor (disk [("a.ts", .plain "gg")] 2) ["/", "p"] p start
      (scans ["/", "p"] .new written) := by
  have hrel : stripRoot ["/", "p"] ["/", "p", "a.ts"] = some "a.ts" := by decide +kernel
  have htells : ∀ removal, ¬ Scan.tells ["/", "p"]
      ⟨.new, flat, [⟨.modify, [["/", "p", "a.ts"]], false⟩]⟩ removal p := by
    intro removal ⟨_, event, hevent, _, _, path, hpath, _, _, _, hstrip⟩
    cases List.mem_singleton.mp hevent
    cases List.mem_singleton.mp hpath
    exact hp (Option.some.inj (hstrip.symm.trans hrel))
  have hrescopes : ¬ Rescopes [⟨.modify, [["/", "p", "a.ts"]], false⟩] := by decide +kernel
  rw [scans_written, Decided, List.foldl_cons, List.foldl_nil, verdict, if_neg (htells true),
    if_neg fun hsaid => htells false hsaid.1, if_neg fun hsaid => hrescopes hsaid.1]
  exact h

end Snippet

/-- `watched_converges_iff` where a file is written. -/
theorem watched_converges_sample : ∃ s s' report,
    Snippet.pipeline.build (Snippet.disk [("a.ts", .plain "f")] 1) .empty = .ok (s, report) ∧
    Snippet.pipeline.performAll (Snippet.disk [("a.ts", .plain "gg")] 2) s
      ((Ingest.watch ["/", "p"] .new Snippet.written).map Daemon.opOf) = .ok s' ∧
    ∀ p, Current Snippet.pipeline.fs Snippet.pipeline.extractor
      (Snippet.disk [("a.ts", .plain "gg")] 2) s' p := by
  have hok : ((Snippet.pipeline.build (Snippet.disk [("a.ts", .plain "f")] 1) .empty) >>= fun r =>
    (Snippet.pipeline.performAll (Snippet.disk [("a.ts", .plain "gg")] 2) r.1
      ((Ingest.watch ["/", "p"] .new Snippet.written).map Daemon.opOf)) >>=
    fun _ => pure ()) = .ok () := by decide +kernel
  obtain ⟨⟨s, report⟩, hbuild, hok⟩ := bind_eq_ok.mp hok
  obtain ⟨s', hrun, _⟩ := bind_eq_ok.mp hok
  obtain ⟨htaken, hreach⟩ := takenFrom_build Snippet.perFile Snippet.noOverlay hbuild
  have hcode : (classify "a.ts").kind = .code := by decide +kernel
  have hshow : ChangesShow Snippet.pipeline.fs.hash (Snippet.disk [("a.ts", .plain "f")] 1)
      (Snippet.disk [("a.ts", .plain "gg")] 2) :=
    Snippet.changesShow_disk (fun _ h => by cases h) (fun _ h => absurd h (by decide +kernel))
  have hiff := @watched_converges_iff _ Snippet.pipeline _ s s' ["/", "p"] _ Snippet.written
    Snippet.perFile Snippet.noOverlay hreach htaken hshow hrun
  refine ⟨s, s', report, hbuild, hrun, hiff.mpr fun p => ?_⟩
  by_cases hp : p = "a.ts"
  · rw [hp]
    exact Snippet.decided_written _
  · -- nothing was held of the path, and nothing is said of it
    apply Snippet.decided_of_ne hp
    have hnot : ∀ m c, ¬ Wanted Snippet.pipeline.fs Snippet.pipeline.extractor
        (Snippet.disk [("a.ts", c)] m) p := fun m c hwanted =>
      hp ((Snippet.wanted_disk_iff hcode).mp hwanted)
    have hforgot := (Snippet.current_of_build hcode hbuild p).forgotten (hnot 1 _)
    exact current_of_forgot (hnot 2 _) hforgot

/-! ### Where it does not -/

section Diverges

open Ingest Daemon

/-- The project at `/p` is built from the old tree, every path is right, what happened is
announced as promised, and when all is done some path is not right in the new tree. -/
def Diverges (old new : Disk Snippet) (batches : List (Snapshot × DebounceEventResult)) : Prop :=
  ∃ s report s', Snippet.pipeline.build old .empty = .ok (s, report) ∧
    (∀ p, Current Snippet.pipeline.fs Snippet.pipeline.extractor old s p) ∧
    ChangesShow Snippet.pipeline.fs.hash old new ∧ Announced ["/", "p"] old new batches ∧
    Snippet.pipeline.performAll new s ((watch ["/", "p"] .new batches).map opOf) = .ok s' ∧
    ∃ p, ¬ Current Snippet.pipeline.fs Snippet.pipeline.extractor new s' p

/-- Where every path is right, the wanted files are those with an entry. -/
theorem Current.entry_iff {fs : Fs C} {ex : Extractor C} {disk : Disk C} {s : GraphState}
    {p : String} (h : Current fs ex disk s p) : p ∈ s.manifest.entries ↔ Wanted fs ex disk p := by
  constructor
  · intro hkey
    by_contra hnot
    exact (h.forgotten hnot).2 hkey
  · exact fun hwanted => (h.shown hwanted).2

theorem diverges_of_run {path p : String} {snippet : Snippet} {new : Disk Snippet}
    {batches : List (Snapshot × DebounceEventResult)} (hcode : (classify path).kind = .code)
    (hshow : ChangesShow Snippet.pipeline.fs.hash (Snippet.disk [(path, snippet)] 1) new)
    (hannounced : Announced ["/", "p"] (Snippet.disk [(path, snippet)] 1) new batches)
    (h : ((Snippet.pipeline.build (Snippet.disk [(path, snippet)] 1) .empty) >>= fun r =>
      (Snippet.pipeline.performAll new r.1 ((watch ["/", "p"] .new batches).map opOf)) >>= fun s' =>
      pure (decide (p ∈ s'.manifest.entries ↔
        Wanted Snippet.pipeline.fs Snippet.pipeline.extractor new p))) = .ok false) :
    Diverges (Snippet.disk [(path, snippet)] 1) new batches := by
  obtain ⟨⟨s, report⟩, hbuild, h⟩ := bind_eq_ok.mp h
  obtain ⟨s', hrun, h⟩ := bind_eq_ok.mp h
  refine ⟨s, report, s', hbuild, Snippet.current_of_build hcode hbuild, hshow, hannounced, hrun, p,
    fun hcurrent => ?_⟩
  exact of_decide_eq_false (Except.ok.inj h) hcurrent.entry_iff

/-- One batch announces a change of two one-file trees when it names both files. -/
theorem announced_disk {path path' : String} {snippet snippet' : Snippet} {m m' : ℕ}
    {snap : Snapshot} {events : List Ingest.Event}
    (h : ∀ p ∈ [path, path'], ∃ event ∈ events, isRead event.kind = false ∧
      ∃ named ∈ event.paths, named <+: ["/", "p"] ++ Daemon.Path.parse p) :
    Announced ["/", "p"] (Snippet.disk [(path, snippet)] m) (Snippet.disk [(path', snippet')] m')
      [(snap, .ok events)] := by
  right
  intro p hp
  have hnamed : p ∈ [path, path'] := by
    by_contra hother
    rw [List.mem_cons, List.mem_singleton, not_or] at hother
    apply hp
    rw [Snippet.get_disk_eq, Snippet.get_disk_eq, if_neg (Ne.symm hother.1),
      if_neg (Ne.symm hother.2)]
  exact ⟨_, List.mem_cons_self, events, rfl, h p hnamed⟩

end Diverges

/-- Errors and the rescan flag, which stand for lost events, are dropped; a file deleted and
created again within a batch is forgotten; and of a directory that moves, the old file stays
and the new one is missed. -/
theorem not_watched_converges :
    Diverges (Snippet.disk [("a.ts", .plain "f")] 1) (Snippet.disk [("b.ts", .plain "f")] 2)
      [(Snippet.flat, .error ["overflow"])] ∧
    Diverges (Snippet.disk [("a.ts", .plain "f")] 1) (Snippet.disk [("b.ts", .plain "f")] 2)
      [(Snippet.flat, .ok [⟨.other, [], true⟩])] ∧
    Diverges (Snippet.disk [("a.ts", .plain "f")] 1) (Snippet.disk [("a.ts", .plain "f")] 2)
      [(Snippet.flat, .ok [⟨.remove, [["/", "p", "a.ts"]], false⟩,
        ⟨.create, [["/", "p", "a.ts"]], false⟩])] ∧
    Diverges (Snippet.disk [("a/x.ts", .plain "f")] 1) (Snippet.disk [("b/x.ts", .plain "f")] 1)
      [(⟨fun path => path = ["/", "p", "b"], fun _ => none⟩,
        .ok [⟨.modify, [["/", "p", "a"], ["/", "p", "b"]], false⟩])] := by
  refine ⟨diverges_of_run (p := "a.ts") (by decide +kernel) ?_ ?_ (by decide +kernel),
    diverges_of_run (p := "a.ts") (by decide +kernel) ?_ ?_ (by decide +kernel),
    diverges_of_run (p := "a.ts") (by decide +kernel) ?_ ?_ (by decide +kernel),
    diverges_of_run (p := "b/x.ts") (by decide +kernel) ?_ ?_ (by decide +kernel)⟩
  · exact Snippet.changesShow_disk (fun h => absurd h (by decide)) (fun h => absurd h (by decide))
  · exact Or.inl ⟨_, List.mem_cons_self, Or.inl ⟨_, rfl⟩⟩
  · exact Snippet.changesShow_disk (fun h => absurd h (by decide)) (fun h => absurd h (by decide))
  · exact Or.inl ⟨_, List.mem_cons_self, Or.inr ⟨_, rfl, _, List.mem_cons_self, rfl⟩⟩
  · exact Snippet.changesShow_disk (fun _ _ => rfl) (fun _ _ => rfl)
  · exact announced_disk (by decide +kernel)
  · exact Snippet.changesShow_disk (fun h => absurd h (by decide)) (fun h => absurd h (by decide))
  · exact announced_disk (by decide +kernel)

end Filigrio
