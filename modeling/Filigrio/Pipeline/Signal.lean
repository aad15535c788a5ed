import Filigrio.Pipeline.Applied

/-!
# Filigrio.Pipeline.Signal

A signal is a hint: `applySignal` should bring every path it names in line with the
disk, whatever lists it names it in. From what one apply does to a path follows when
a signal converges (`SignalSafe`): not when it calls an existing file removed, nor
when a missing path of which the state still holds something is out of scope.
-/

namespace Filigrio

variable {C : Type}

/-! ### When a signal converges -/

/-- The state holds no node of `p` and no manifest entry for it. -/
def Forgot (s : GraphState) (p : String) : Prop :=
  (∀ n ∈ s.graph.nodes, n.sourceFile ≠ some p) ∧ p ∉ s.manifest.entries

/-- Every path the signal names is in line with the disk: an existing file in scope
that the extractor handles is shown and has a key, a missing one is forgotten. -/
def Converged (fs : Fs C) (ex : Extractor C) (disk : Disk C) (raw : ChangeSet) (s : GraphState) :
    Prop :=
  ∀ p ∈ raw.touched,
    (∀ f, disk[p]? = some f → fs.inScope p = true → ex.handles (classify p) = true →
      Shows ex s p f.content ∧ p ∈ s.manifest.entries) ∧
    (disk[p]? = none → Forgot s p)

/-- The signal calls no existing file in scope removed (the extractor's files only),
and a missing path it does not call removed is in scope, or the state holds nothing
of it. -/
def SignalSafe (fs : Fs C) (ex : Extractor C) (disk : Disk C) (raw : ChangeSet) (s : GraphState) :
    Prop :=
  ∀ p ∈ raw.touched,
    (disk[p]?.isSome = true → fs.inScope p = true → ex.handles (classify p) = true →
      p ∉ raw.removed) ∧
    (disk[p]? = none → p ∈ raw.removed ∨ fs.inScope p = true ∨ Forgot s p)

section Gate

variable {fs : Fs C} {ex : Extractor C} {disk : Disk C} {raw : ChangeSet} {s s' : GraphState}
  {p : String}

theorem mem_toIndex_gate :
    p ∈ (fs.gateChangeset disk raw s).toIndex ↔ p ∈ raw.toIndex ∧ fs.keep disk s p = true := by
  simp only [Fs.gateChangeset, ChangeSet.toIndex, List.mem_append, List.mem_filter, or_and_right]

theorem mem_touched_gate : p ∈ (fs.gateChangeset disk raw s).touched ↔
    (p ∈ raw.toIndex ∧ fs.keep disk s p = true) ∨ p ∈ raw.removed := by
  rw [ChangeSet.mem_touched, mem_toIndex_gate]
  rfl

/-- What an apply does not touch it keeps. -/
theorem Applied.key_iff {source : Source C} {changes : ChangeSet}
    (h : Applied ex source changes s s') (hp : p ∉ changes.touched) :
    p ∈ s'.manifest.entries ↔ p ∈ s.manifest.entries := by
  have hindexed : p ∉ changes.toIndex := fun h => hp (ChangeSet.mem_touched.mpr (Or.inl h))
  have hremoved : p ∉ changes.removed := fun h => hp (ChangeSet.mem_touched.mpr (Or.inr h))
  rw [h.keys p]
  simp [hindexed, hremoved]

theorem Applied.shows_iff {source : Source C} {changes : ChangeSet} {c : C}
    (h : Applied ex source changes s s') (hp : p ∉ changes.touched) :
    Shows ex s' p c ↔ Shows ex s p c := by
  unfold Shows
  simp only [h.untouched p hp]

theorem Applied.forgot_iff {source : Source C} {changes : ChangeSet}
    (h : Applied ex source changes s s') (hp : p ∉ changes.touched) :
    Forgot s' p ↔ Forgot s p := by
  have hnodes : ∀ t : GraphState, (∀ n ∈ t.graph.nodes, n.sourceFile ≠ some p) ↔
      ∀ n, ¬ (n ∈ t.graph.nodes ∧ n.sourceFile = some p) := fun t =>
    forall_congr' fun n => not_and.symm
  unfold Forgot
  rw [h.key_iff hp, hnodes, hnodes]
  simp only [h.untouched p hp]

/-- A path that a signal does not call removed, and that is not in scope, stays untouched. -/
theorem untouched_of_signal (hremoved : p ∉ raw.removed)
    (hnamed : ¬ (p ∈ raw.toIndex ∧ fs.inScope p = true)) :
    p ∉ (fs.gateChangeset disk raw s).touched := by
  intro h
  rcases mem_touched_gate.mp h with ⟨hindexed, hkeep⟩ | h
  · exact hnamed ⟨hindexed, (Bool.and_eq_true_iff.mp hkeep).1⟩
  · exact hremoved h

section OnePath

variable (happlied : Applied ex (fs.source disk) (fs.gateChangeset disk raw s) s s')
include happlied

/-- A wanted file that a signal names, and does not call removed, is shown. -/
theorem shows_of_signal (hhonest : Honest fs ex disk s) {f : File C} (hfile : disk[p]? = some f)
    (hscope : fs.inScope p = true) (hhandles : ex.handles (classify p) = true)
    (hindexed : p ∈ raw.toIndex) (hremoved : p ∉ raw.removed) :
    Shows ex s' p f.content ∧ p ∈ s'.manifest.entries := by
  have hsome : disk[p]?.isSome = true := by rw [hfile]; rfl
  by_cases hkeep : fs.keep disk s p = true
  · -- the gate lets the file through, and it is extracted
    have hlisted := mem_toIndex_gate.mpr ⟨hindexed, hkeep⟩
    obtain ⟨c, hread, hshows⟩ := happlied.indexed p hlisted hsome hhandles
    obtain ⟨g, hg, -, rfl⟩ := read_eq_ok.mp hread
    cases hfile.symm.trans hg
    exact ⟨hshows, (happlied.keys p).mpr ⟨Or.inl ⟨hlisted, hsome⟩, hremoved, fun _ => hsome⟩⟩
  · -- the file is found unchanged, and honestly so
    have hunchanged : fs.isUnchanged disk s.manifest false p = true := by
      simpa [Fs.keep, hscope] using hkeep
    obtain ⟨e, g, hentry, hg, hstamp⟩ := entry_of_isUnchanged hunchanged
    cases hfile.symm.trans hg
    have hshows := hhonest p e f hentry hfile hhandles (hstamp.imp id And.right)
    have huntouched : p ∉ (fs.gateChangeset disk raw s).touched := fun h =>
      (mem_touched_gate.mp h).elim (fun h => hkeep h.2) hremoved
    refine ⟨(happlied.shows_iff huntouched).mpr hshows, (happlied.key_iff huntouched).mpr ?_⟩
    exact Std.ExtTreeMap.mem_iff_isSome_getElem?.mpr (by rw [hentry]; rfl)

/-- A missing path that a signal calls removed, or that is named and in scope, is forgotten. -/
theorem forgot_of_signal (hmissing : disk[p]? = none)
    (hnamed : p ∈ raw.removed ∨ (p ∈ raw.toIndex ∧ fs.inScope p = true)) : Forgot s' p := by
  have htouched : p ∈ (fs.gateChangeset disk raw s).touched := by
    rw [mem_touched_gate]
    refine hnamed.symm.imp (fun ⟨hindexed, hscope⟩ => ⟨hindexed, ?_⟩) id
    simp [Fs.keep, hscope, isUnchanged_of_missing hmissing]
  have hgone : (fs.source disk).exists p = false := by
    show disk[p]?.isSome = false
    rw [hmissing]
    rfl
  refine ⟨happlied.dropped p htouched fun _ => hgone, fun hkey => ?_⟩
  obtain ⟨-, hremoved, hexists⟩ := (happlied.keys p).mp hkey
  rcases ChangeSet.mem_touched.mp htouched with h | h
  · have hsome := hexists h
    rw [hgone] at hsome
    cases hsome
  · exact hremoved h

/-- A signal that is safe converges. -/
theorem converged_of_safe (hhonest : Honest fs ex disk s) (hsafe : SignalSafe fs ex disk raw s) :
    Converged fs ex disk raw s' := by
  intro p hp
  refine ⟨fun f hfile hscope hhandles => ?_, fun hmissing => ?_⟩
  · have hremoved : p ∉ raw.removed := (hsafe p hp).1 (by rw [hfile]; rfl) hscope hhandles
    have hindexed : p ∈ raw.toIndex := (ChangeSet.mem_touched.mp hp).resolve_right hremoved
    exact shows_of_signal happlied hhonest hfile hscope hhandles hindexed hremoved
  · by_cases hnamed : p ∈ raw.removed ∨ (p ∈ raw.toIndex ∧ fs.inScope p = true)
    · exact forgot_of_signal happlied hmissing hnamed
    · obtain ⟨hremoved, hnamed⟩ := not_or.mp hnamed
      have hindexed : p ∈ raw.toIndex := (ChangeSet.mem_touched.mp hp).resolve_right hremoved
      have hscope : ¬ fs.inScope p = true := fun hscope => hnamed ⟨hindexed, hscope⟩
      have hforgot := (((hsafe p hp).2 hmissing).resolve_left hremoved).resolve_left hscope
      exact (happlied.forgot_iff (untouched_of_signal hremoved hnamed)).mpr hforgot

/-- A signal that converges was safe. -/
theorem safe_of_converged (hconverged : Converged fs ex disk raw s') :
    SignalSafe fs ex disk raw s := by
  intro p hp
  refine ⟨fun hsome hscope hhandles hremoved => ?_, fun hmissing => ?_⟩
  · obtain ⟨f, hfile⟩ := Option.isSome_iff_exists.mp hsome
    have hkey := ((hconverged p hp).1 f hfile hscope hhandles).2
    exact ((happlied.keys p).mp hkey).2.1 hremoved
  · by_contra hunsafe
    obtain ⟨hremoved, hunsafe⟩ := not_or.mp hunsafe
    obtain ⟨hscope, hheld⟩ := not_or.mp hunsafe
    have huntouched : p ∉ (fs.gateChangeset disk raw s).touched :=
      untouched_of_signal hremoved fun h => hscope h.2
    exact hheld ((happlied.forgot_iff huntouched).mp ((hconverged p hp).2 hmissing))

end OnePath

end Gate

/-- A signal that is applied keeps to the states of a project. -/
theorem Pipeline.applied_of_applySignal {pl : Pipeline C} {disk : Disk C} {s s' : GraphState}
    {raw : ChangeSet} {report : BuildReport} (hex : pl.extractor.PerFile)
    (hno : pl.extractor.NoOverlay) (hreach : PipelineReach pl.stages pl.extractor s)
    (h : pl.applySignal disk s raw = .ok (s', report)) :
    Applied pl.extractor (pl.fs.source disk) (pl.fs.gateChangeset disk raw s) s s' := by
  obtain ⟨L, hs⟩ := Pipeline.exists_listed hex hno hreach
  unfold Pipeline.applySignal at h
  dsimp only at h
  split at h
  · rename_i hempty
    cases h
    exact applied_empty hempty
  · exact (Pipeline.applied_of_apply hex hno hs h).2

/-! ### A signal goes through -/

/-- The extractor and the clustering never fail. -/
structure Total (st : Stages C) (ex : Extractor C) : Prop where
  extract : ∀ a c, ∃ x, ex.extract a c = .ok x
  cluster : ∀ nodes edges partition, ∃ p, st.clusterWith nodes edges partition = .ok p

section Total

variable {st : Stages C} {ex : Extractor C} {pl : Pipeline C} {disk : Disk C} {s : GraphState}
  {changes raw : ChangeSet} {L : Ledger}

theorem exists_extractFiles (htotal : Total st ex) {source : Source C} {paths : List String}
    (hread : ∀ p ∈ paths, ∃ c, source.read p = .ok c) :
    ∃ files, extractFiles source ex paths = .ok files := by
  induction paths with
  | nil => exact ⟨[], rfl⟩
  | cons p paths ih =>
      obtain ⟨rest, hrest⟩ := ih fun q hq => hread q (List.mem_cons_of_mem p hq)
      obtain ⟨c, hc⟩ := hread p (by simp)
      obtain ⟨x, hx⟩ := htotal.extract (classify p) c
      unfold extractFiles
      split
      · exact ⟨(p, x) :: rest, bind_eq_ok.mpr ⟨c, hc, bind_eq_ok.mpr ⟨x, hx,
          bind_eq_ok.mpr ⟨rest, hrest, rfl⟩⟩⟩⟩
      · exact ⟨rest, hrest⟩

/-- When the named files that exist can be read, an apply succeeds. -/
theorem exists_apply (hex : pl.extractor.PerFile) (hno : pl.extractor.NoOverlay)
    (hs : Ledger.Listed pl.extractor L s) (htotal : Total pl.stages pl.extractor)
    (hread : ∀ p f, p ∈ changes.toIndex → disk[p]? = some f → f.readable = true) :
    ∃ s' report, pl.apply disk s changes = .ok (s', report) := by
  have hreads : ∀ p ∈ (foldVanished changes (pl.fs.source disk)).1.toIndex,
      ∃ c, (pl.fs.source disk).read p = .ok c := by
    intro p hp
    rw [toIndex_foldVanished, List.mem_filter] at hp
    obtain ⟨f, hf⟩ := Option.isSome_iff_exists.mp hp.2
    exact ⟨f.content, read_eq_ok.mpr ⟨f, hf, hread p f hp.1 hf, rfl⟩⟩
  obtain ⟨ws, hws⟩ := exists_insertManifests pl.stages hreads
    (dropManifests s.workspace.projects (foldVanished changes (pl.fs.source disk)).1.touched)
  obtain ⟨files, hfiles⟩ := exists_extractFiles htotal hreads
  have hfront : ∃ fx, frontExtract pl.stages s changes (pl.fs.source disk) pl.extractor
      = .ok fx := by
    refine ⟨_, bind_eq_ok.mpr ⟨⟨ws⟩, bind_eq_ok.mpr ⟨ws, hws, rfl⟩, bind_eq_ok.mpr
      ⟨_, bind_eq_ok.mpr ⟨files, hfiles, rfl⟩, rfl⟩⟩⟩
  obtain ⟨fx, hfx⟩ := hfront
  obtain ⟨files, hf⟩ := frontExtract_ok hfx
  have hcluster : ∃ partition, partitionStage pl.stages s fx (frontLink s (pl.fs.source disk) fx)
      (edgeStage s fx (frontLink s (pl.fs.source disk) fx) pl.linkScope) pl.clusterTiming
      = .ok partition := by
    cases pl.clusterTiming with
    | inline => exact htotal.cluster _ _ _
    | deferred => exact ⟨_, rfl⟩
  obtain ⟨partition, hpartition⟩ := hcluster
  have happly : Engine.applyWith pl.stages s changes (pl.fs.source disk) pl.extractor pl.linkScope
      pl.clusterTiming = .ok (buildDelta s fx (frontLink s (pl.fs.source disk) fx)
        (edgeStage s fx (frontLink s (pl.fs.source disk) fx) pl.linkScope) partition) :=
    bind_eq_ok.mpr ⟨fx, hfx, bind_eq_ok.mpr ⟨partition, hpartition, rfl⟩⟩
  have hguard := Pipeline.shrinkGuard_ok hf hex hno hs
    (edgeStage s fx (frontLink s (pl.fs.source disk) fx) pl.linkScope) partition
  exact ⟨_, _, Pipeline.apply_of_ok happly hguard⟩

end Total

/-- **A signal converges exactly when it is safe.** From every state of a project
whose manifest is honest, for every raw changeset and disk; and it goes through when
the files in scope can be read and the extractor and the clustering do not fail. -/
theorem signal_converges_iff {pl : Pipeline C} {disk : Disk C} {s : GraphState}
    (hex : pl.extractor.PerFile) (hno : pl.extractor.NoOverlay)
    (hreach : PipelineReach pl.stages pl.extractor s)
    (hhonest : Honest pl.fs pl.extractor disk s)
    (hreadable : ∀ p f, disk[p]? = some f → pl.fs.inScope p = true → f.readable = true)
    (raw : ChangeSet) :
    (Total pl.stages pl.extractor → ∃ s' report, pl.applySignal disk s raw = .ok (s', report)) ∧
    ∀ s' report, pl.applySignal disk s raw = .ok (s', report) →
      (Converged pl.fs pl.extractor disk raw s' ↔ SignalSafe pl.fs pl.extractor disk raw s) := by
  obtain ⟨L, hs⟩ := Pipeline.exists_listed hex hno hreach
  constructor
  · intro htotal
    unfold Pipeline.applySignal
    dsimp only
    split
    · exact ⟨s, {}, rfl⟩
    · refine exists_apply hex hno hs htotal fun p f hp hfile => ?_
      have hkeep := (mem_toIndex_gate.mp hp).2
      exact hreadable p f hfile (Bool.and_eq_true_iff.mp hkeep).1
  · intro s' report h
    have happlied := Pipeline.applied_of_applySignal hex hno hreach h
    constructor
    · exact safe_of_converged happlied
    · exact converged_of_safe happlied hhonest

/-! ### Sample signals -/

instance (s : GraphState) (p : String) : Decidable (Forgot s p) :=
  inferInstanceAs (Decidable ((∀ n ∈ s.graph.nodes, n.sourceFile ≠ some p) ∧
    p ∉ s.manifest.entries))

instance (fs : Fs C) (ex : Extractor C) (disk : Disk C) (raw : ChangeSet) (s : GraphState) :
    Decidable (SignalSafe fs ex disk raw s) := by
  unfold SignalSafe
  have hnone : ∀ p : String, Decidable (disk[p]? = none) := fun p =>
    decidable_of_iff (disk[p]?.isNone = true) Option.isNone_iff_eq_none
  infer_instance

namespace Snippet

/-- A file system whose hash is the length of a definition's label. -/
def fs : Fs Snippet where
  inScope _ := true
  oxc := none
  hash s := s.label.length

def pipeline : Pipeline Snippet where
  fs := fs
  stages := stages
  extractor := extractor
  shrinkGuard := true
  linkScope := .scoped
  clusterTiming := .inline

/-- The listed files, all saved at one time. -/
def disk (files : List (String × Snippet)) (mtime : ℕ) : Disk Snippet :=
  BTreeMap.insertNew ∅ (files.map fun f => (f.1, ⟨f.2, some mtime, true⟩))

theorem get_disk (path : String) (snippet : Snippet) (mtime : ℕ) :
    (disk [(path, snippet)] mtime)[path]? = some ⟨snippet, some mtime, true⟩ := by
  simp [disk, BTreeMap.get_insertNew]

theorem total : Total stages extractor where
  extract _ _ := ⟨_, rfl⟩
  cluster _ _ partition := ⟨partition, rfl⟩

/-- A state that holds one file, as it is on disk, is honest. -/
theorem honest_of_single {s : GraphState} {path : String} {snippet : Snippet} {mtime : ℕ}
    (hkeys : s.manifest.entries.keys = [path])
    (hnodes : s.graph.nodes
      = (extraction defId defId (fun _ => "function") path snippet).nodes) :
    Honest fs extractor (disk [(path, snippet)] mtime) s := by
  intro p e f hentry hfile _ _
  have hp : p ∈ s.manifest.entries.keys := by
    rw [Std.ExtTreeMap.mem_keys, Std.ExtTreeMap.mem_iff_isSome_getElem?, hentry]
    rfl
  rw [hkeys] at hp
  cases List.mem_singleton.mp hp
  rw [get_disk] at hfile
  cases hfile
  refine ⟨extraction defId defId (fun _ => "function") path snippet, rfl, fun n => ?_⟩
  rw [hnodes]
  refine ⟨And.left, fun hn => ⟨hn, ?_⟩⟩
  rcases mem_nodes.mp hn with rfl | rfl <;> rfl

end Snippet

/-- `signal_converges_iff` on a signal that names a new file twice and a missing one. -/
theorem signal_converges_iff_sample : ∃ s' report,
    Snippet.pipeline.applySignal (Snippet.disk [("a.ts", .plain "f")] 1) .empty
        ⟨["a.ts"], ["a.ts"], ["gone.ts"]⟩ = .ok (s', report) ∧
      Converged Snippet.fs Snippet.extractor (Snippet.disk [("a.ts", .plain "f")] 1)
        ⟨["a.ts"], ["a.ts"], ["gone.ts"]⟩ s' := by
  have hhonest : Honest Snippet.fs Snippet.extractor (Snippet.disk [("a.ts", .plain "f")] 1)
      .empty := fun p e f hentry => by simp [GraphState.empty] at hentry
  have hreadable : ∀ p f, (Snippet.disk [("a.ts", .plain "f")] 1)[p]? = some f →
      Snippet.fs.inScope p = true → f.readable = true := by
    intro p f hfile _
    rw [Snippet.disk, BTreeMap.get_insertNew] at hfile
    by_cases hp : "a.ts" = p
    · subst hp
      simp at hfile
      rw [← hfile]
    · simp [hp] at hfile
  obtain ⟨hok, hiff⟩ := @signal_converges_iff _ Snippet.pipeline _ _ Snippet.perFile
    Snippet.noOverlay .empty hhonest hreadable ⟨["a.ts"], ["a.ts"], ["gone.ts"]⟩
  obtain ⟨s', report, hrun⟩ := hok Snippet.total
  exact ⟨s', report, hrun, (hiff s' report hrun).mpr (by decide +kernel)⟩

/-- A file that is deleted and created again with its old content: the gate finds it
unchanged, the removal passes through, and the state forgets a file that exists. -/
theorem signal_forgets : ∃ s r s' r',
    Snippet.pipeline.applySignal (Snippet.disk [("a.ts", .plain "f")] 1) .empty
      ⟨["a.ts"], [], []⟩ = .ok (s, r) ∧
    PipelineReach Snippet.stages Snippet.extractor s ∧
    Honest Snippet.fs Snippet.extractor (Snippet.disk [("a.ts", .plain "f")] 2) s ∧
    Snippet.pipeline.applySignal (Snippet.disk [("a.ts", .plain "f")] 2) s
      ⟨["a.ts"], [], ["a.ts"]⟩ = .ok (s', r') ∧
    ¬ Converged Snippet.fs Snippet.extractor (Snippet.disk [("a.ts", .plain "f")] 2)
      ⟨["a.ts"], [], ["a.ts"]⟩ s' ∧
    s'.graph.nodes = [] := by
  have hok : ((Snippet.pipeline.apply (Snippet.disk [("a.ts", .plain "f")] 1) .empty
      ⟨["a.ts"], [], []⟩) >>= fun r =>
    (Snippet.pipeline.applySignal (Snippet.disk [("a.ts", .plain "f")] 2) r.1
      ⟨["a.ts"], [], ["a.ts"]⟩) >>= fun r' =>
    pure (decide (r.1.manifest.entries.keys = ["a.ts"] ∧
      r.1.graph.nodes = (Snippet.extraction Snippet.defId Snippet.defId (fun _ => "function")
        "a.ts" (.plain "f")).nodes ∧
      r'.1.graph.nodes = [] ∧ "a.ts" ∉ r'.1.manifest.entries))) = .ok true := by decide +kernel
  obtain ⟨⟨s, r⟩, hfirst, hok⟩ := bind_eq_ok.mp hok
  obtain ⟨⟨s', r'⟩, hsecond, hok⟩ := bind_eq_ok.mp hok
  obtain ⟨hkeys, hnodes, hgone, hkey⟩ := of_decide_eq_true (Except.ok.inj hok)
  refine ⟨s, r, s', r', hfirst, .apply .empty rfl rfl hfirst,
    Snippet.honest_of_single hkeys hnodes, hsecond, fun hconverged => hkey ?_, hgone⟩
  exact ((hconverged "a.ts" (by decide)).1 ⟨.plain "f", some 2, true⟩
    (Snippet.get_disk ..) rfl (by decide +kernel)).2

end Filigrio
