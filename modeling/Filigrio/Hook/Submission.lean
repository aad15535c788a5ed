import Filigrio.Daemon.Project
import Filigrio.Pipeline.Signal

/-!
# Filigrio.Hook.Submission

The changeset of a git hook, at both ends. The hook names files relative to its worktree
and submits them under the worktree's path; the registry finds a project by id or by
ancestor, and the pipeline joins the names to that project's root. The names mean the same
files exactly when the two roots are one (`submission_same_files_iff`).
-/

namespace Filigrio.Hook

open Filigrio.Daemon

variable {C : Type} {registry : ProjectRegistry} {worktree : String} {p : Daemon.Project}
  {cs : ChangeSet} {rel : String}

/-- `Path::join`: an absolute path replaces the one it is joined to. -/
def join (base : Path) (rel : String) : Path :=
  if Text.startsWith rel "/" then Path.parse rel
  else base ++ (Path.parse rel).filter fun c => c ≠ "."

/-- The daemon resolves what the hook submits under: a registered id, or else a path under
a registered root. Which project is found, when several are, the map decides. -/
def Resolves (registry : ProjectRegistry) (input : String) (p : Daemon.Project) : Prop :=
  registry[input]? = some p ∨ (registry[input]? = none ∧ (∃ id : String, registry[id]? = some p) ∧
    p.root.isPrefixOf (Path.parse input) = true)

/-- `make_job` works on a project that is resolved so. -/
theorem resolves_of_resolveProjectId {id : String} (hkeyed : registry.WellKeyed)
    (h : registry.resolveProjectId worktree = some id) :
    ∃ p, registry[id]? = some p ∧ Resolves registry worktree p := by
  unfold ProjectRegistry.resolveProjectId at h
  split at h
  · rename_i hmem
    cases h
    obtain ⟨p, hp⟩ := Option.isSome_iff_exists.mp
      (Std.ExtTreeMap.isSome_getElem?_iff_mem.mpr hmem)
    exact ⟨p, hp, Or.inl hp⟩
  · rename_i hmem
    obtain ⟨p, hfind, hid⟩ := Option.map_eq_some_iff.mp h
    unfold ProjectRegistry.findByPath at hfind
    obtain ⟨id', hq⟩ := BTreeMap.mem_values.mp (List.mem_of_find?_eq_some hfind)
    have hprefix : p.root.isPrefixOf (Path.parse worktree) = true :=
      List.find?_some (p := fun q : Daemon.Project => q.root.isPrefixOf (Path.parse worktree)) hfind
    refine ⟨p, ?_, Or.inr ⟨?_, ⟨id', hq⟩, hprefix⟩⟩
    · rw [← hid, hkeyed id' p hq]
      exact hq
    · rw [← Option.not_isSome_iff_eq_none, Std.ExtTreeMap.isSome_getElem?_iff_mem]
      exact hmem

/-! ### What the names mean -/

/-- What `git diff` reports: paths relative to the worktree. -/
def Relative (rel : String) : Prop := Text.startsWith rel "/" = false

/-- Every applied path denotes, joined to the project's root, the file it denotes joined to
the worktree. -/
def SameFiles (worktree : String) (p : Daemon.Project) (applied : ChangeSet) : Prop :=
  ∀ rel ∈ applied.touched, join p.root rel = join (Path.parse worktree) rel

/-- Every file of the project that is applied is under the worktree. -/
def Confined (worktree : String) (p : Daemon.Project) (applied : ChangeSet) : Prop :=
  ∀ rel ∈ applied.touched, Path.parse worktree <+: join p.root rel

theorem join_relative (base : Path) (h : Relative rel) :
    join base rel = base ++ (Path.parse rel).filter fun c => c ≠ "." := by
  rw [join, h]
  exact if_neg Bool.false_ne_true

theorem join_inj {base base' : Path} (h : Relative rel) :
    join base rel = join base' rel ↔ base = base' := by
  rw [join_relative base h, join_relative base' h]
  exact List.append_left_inj _

theorem prefix_join (base : Path) (h : Relative rel) : base <+: join base rel := by
  rw [join_relative base h]
  exact List.prefix_append _ _

/-- The applied paths mean the same files exactly when the roots are one, or there are none. -/
theorem sameFiles_iff {applied : ChangeSet} (hrel : ∀ rel ∈ applied.touched, Relative rel) :
    SameFiles worktree p applied ∧ Confined worktree p applied ↔
      Path.parse worktree = p.root ∨ applied.touched = [] := by
  constructor
  · intro ⟨hsame, _⟩
    cases htouched : applied.touched with
    | nil => exact Or.inr rfl
    | cons rel others =>
        have hmem : rel ∈ applied.touched := htouched ▸ List.mem_cons_self
        exact Or.inl ((join_inj (hrel rel hmem)).mp (hsame rel hmem)).symm
  · rintro (hroot | hnone)
    · refine ⟨fun rel _ => by rw [hroot], fun rel hmem => ?_⟩
      rw [hroot]
      exact prefix_join p.root (hrel rel hmem)
    · refine ⟨fun rel hmem => ?_, fun rel hmem => ?_⟩ <;>
      · rw [hnone] at hmem
        cases hmem

/-! ### What the pipeline does with them -/

section Applied

variable {pl : Pipeline C} {disk : Disk C} {s s' : GraphState} {report : BuildReport}

theorem touched_gate (hrel : ∀ rel ∈ cs.touched, Relative rel) :
    ∀ rel ∈ (pl.fs.gateChangeset disk cs s).touched, Relative rel := by
  intro rel hmem
  rw [mem_touched_gate] at hmem
  apply hrel rel
  rw [ChangeSet.mem_touched]
  exact hmem.imp And.left id

/-- A file outside the worktree keeps its nodes, when the applied files are under it. -/
theorem outside_untouched (hex : pl.extractor.PerFile) (hno : pl.extractor.NoOverlay)
    (hreach : PipelineReach pl.stages pl.extractor s)
    (h : pl.applySignal disk s cs = .ok (s', report))
    (hconfined : Confined worktree p (pl.fs.gateChangeset disk cs s))
    (hout : ¬ Path.parse worktree <+: join p.root rel) (n : Node) :
    (n ∈ s'.graph.nodes ∧ n.sourceFile = some rel) ↔
      (n ∈ s.graph.nodes ∧ n.sourceFile = some rel) :=
  (Pipeline.applied_of_applySignal hex hno hreach h).untouched rel (fun hmem => hout (hconfined rel hmem)) n

end Applied

/-- **A hook's changeset means the same files on both ends exactly when the project's root
is the worktree, or nothing passes the gate**; then no file outside the worktree changes. For
every registry, worktree and relative changeset, and every project the daemon may resolve
the worktree to, with its pipeline, disk and state. -/
theorem submission_same_files_iff (registry : ProjectRegistry) (worktree : String)
    (hrel : ∀ rel ∈ cs.touched, Relative rel) (pl : Daemon.Project → Pipeline C)
    (disk : Daemon.Project → Disk C) (s : Daemon.Project → GraphState) :
    ((∀ p, Resolves registry worktree p →
      SameFiles worktree p ((pl p).fs.gateChangeset (disk p) cs (s p)) ∧
        Confined worktree p ((pl p).fs.gateChangeset (disk p) cs (s p))) ↔
      ∀ p, Resolves registry worktree p → Path.parse worktree = p.root ∨
        ((pl p).fs.gateChangeset (disk p) cs (s p)).touched = []) ∧
    ∀ p, Resolves registry worktree p → (Path.parse worktree = p.root ∨
        ((pl p).fs.gateChangeset (disk p) cs (s p)).touched = []) →
      (pl p).extractor.PerFile → (pl p).extractor.NoOverlay →
      PipelineReach (pl p).stages (pl p).extractor (s p) →
      ∀ s' report, (pl p).applySignal (disk p) (s p) cs = .ok (s', report) →
        ∀ rel, ¬ Path.parse worktree <+: join p.root rel → ∀ n,
          (n ∈ s'.graph.nodes ∧ n.sourceFile = some rel) ↔
            (n ∈ (s p).graph.nodes ∧ n.sourceFile = some rel) := by
  constructor
  · exact forall₂_congr fun p _ => sameFiles_iff (touched_gate hrel)
  · intro p _ hcond hex hno hreach s' report h rel hout n
    exact outside_untouched hex hno hreach h ((sameFiles_iff (touched_gate hrel)).mpr hcond).2 hout n

/-! ### A worktree inside a project -/

/-- A project at `/p`. -/
def outer : Daemon.Project := .new ["/", "p"]

def outerRegistry : ProjectRegistry := (∅ : ProjectRegistry).insert outer.id outer

theorem outer_registered : outerRegistry[outer.id]? = some outer := by decide +kernel

/-- The removal of a file. -/
def removal : ChangeSet := ⟨[], [], ["b.ts"]⟩

theorem removal_relative : ∀ rel ∈ removal.touched, Relative rel := by
  intro rel hmem
  cases List.mem_singleton.mp hmem
  rfl

/-- Only the project at `/p` can be found. -/
theorem outer_of_resolves {worktree : String} (h : Resolves outerRegistry worktree p) : p = outer := by
  have hget : ∀ id : String, outerRegistry[id]? = some p → p = outer := by
    intro id hid
    rw [outerRegistry, BTreeMap.get_insert] at hid
    split at hid
    · exact (Option.some.inj hid).symm
    · simp at hid
  rcases h with hid | ⟨-, ⟨id, hid⟩, -⟩
  · exact hget worktree hid
  · exact hget id hid

theorem outer_resolves {worktree : String} (hid : outerRegistry[worktree]? = none)
    (h : outer.root.isPrefixOf (Path.parse worktree) = true) :
    Resolves outerRegistry worktree outer :=
  Or.inr ⟨hid, ⟨outer.id, outer_registered⟩, h⟩

/-- `submission_same_files_iff` on a removal submitted from the root of the project. -/
theorem submission_same_files_sample : SameFiles "/p" outer
    (Snippet.pipeline.fs.gateChangeset (Snippet.disk [] 1) removal .empty) := by
  have hiff := (submission_same_files_iff outerRegistry "/p" removal_relative
    (fun _ => Snippet.pipeline) (fun _ => Snippet.disk [] 1) fun _ => .empty).1
  refine (hiff.mpr ?_ outer (outer_resolves (by decide +kernel) (by decide +kernel))).1
  intro p hp
  rw [outer_of_resolves hp]
  exact Or.inl (by decide +kernel)

/-- A worktree at `/p/sub` deletes its `b.ts`. The daemon finds the project at `/p`, and drops
the nodes of `/p/b.ts`, which is still there. -/
theorem submission_removes_other_file : ∃ s s' r, Resolves outerRegistry "/p/sub" outer ∧
    PipelineReach Snippet.stages Snippet.extractor s ∧
    Snippet.pipeline.applySignal (Snippet.disk [("b.ts", .plain "f")] 1) s removal = .ok (s', r) ∧
    ¬ SameFiles "/p/sub" outer
      (Snippet.pipeline.fs.gateChangeset (Snippet.disk [("b.ts", .plain "f")] 1) removal s) ∧
    ¬ Path.parse "/p/sub" <+: join outer.root "b.ts" ∧
    (∃ n ∈ s.graph.nodes, n.sourceFile = some "b.ts") ∧ s'.graph.nodes = [] := by
  have hok : ((Snippet.pipeline.apply (Snippet.disk [("b.ts", .plain "f")] 1) .empty
      ⟨["b.ts"], [], []⟩) >>= fun r =>
    (Snippet.pipeline.applySignal (Snippet.disk [("b.ts", .plain "f")] 1) r.1 removal) >>= fun r' =>
    pure (decide ((∃ n ∈ r.1.graph.nodes, n.sourceFile = some "b.ts") ∧
      r'.1.graph.nodes = []))) = .ok true := by decide +kernel
  obtain ⟨⟨s, r⟩, hfirst, hok⟩ := bind_eq_ok.mp hok
  obtain ⟨⟨s', r'⟩, hsecond, hok⟩ := bind_eq_ok.mp hok
  obtain ⟨hshown, hgone⟩ := of_decide_eq_true (Except.ok.inj hok)
  refine ⟨s, s', r', outer_resolves (by decide +kernel) (by decide +kernel),
    .apply .empty rfl rfl hfirst, hsecond, ?_, by decide +kernel, hshown, hgone⟩
  intro hsame
  have hother := hsame "b.ts" (mem_touched_gate.mpr (Or.inr List.mem_cons_self))
  exact absurd hother (by decide +kernel)

end Filigrio.Hook
