import Filigrio.Pipeline.Apply
import Filigrio.Ledger.Workspace

/-!
# Filigrio.Pipeline.Applied

What one apply does to the nodes and the manifest entry of each path (`Applied`), for
the engine over any source and for the pipeline over a disk. The states of a project
are those the pipeline reaches from nothing (`PipelineReach`).
-/

namespace Filigrio

variable {C : Type}

/-! ### What a state shows of a file -/

/-- The nodes of the file `p` are exactly the extraction of the content `c`. -/
def Shows (ex : Extractor C) (s : GraphState) (p : String) (c : C) : Prop :=
  ∃ x, ex.extract (classify p) c = .ok x ∧
    ∀ n, (n ∈ s.graph.nodes ∧ n.sourceFile = some p) ↔ n ∈ x.nodes

/-- A handled file whose modification time or hash is the stamped one is shown. -/
def Honest (fs : Fs C) (ex : Extractor C) (disk : Disk C) (s : GraphState) : Prop :=
  ∀ p e f, s.manifest.entries[p]? = some e → disk[p]? = some f →
    ex.handles (classify p) = true →
    ((∃ m, e.lastModified = some m ∧ f.mtime = some m) ∨ fs.hash f.content = e.hash) →
    Shows ex s p f.content

/-- The states a project passes through under the pipeline, over any disks. -/
inductive PipelineReach (st : Stages C) (ex : Extractor C) : GraphState → Prop
  | empty : PipelineReach st ex GraphState.empty
  | apply {pl : Pipeline C} {disk : Disk C} {s s' : GraphState} {changes : ChangeSet}
      {report : BuildReport} : PipelineReach st ex s → pl.stages = st → pl.extractor = ex →
      pl.apply disk s changes = .ok (s', report) → PipelineReach st ex s'

/-- What one apply of `changes` over `source` does to each path. -/
structure Applied (ex : Extractor C) (source : Source C) (changes : ChangeSet)
    (s s' : GraphState) : Prop where
  indexed : ∀ p ∈ changes.toIndex, source.exists p = true → ex.handles (classify p) = true →
    ∃ c, source.read p = .ok c ∧ Shows ex s' p c
  untouched : ∀ p, p ∉ changes.touched → ∀ n,
    (n ∈ s'.graph.nodes ∧ n.sourceFile = some p) ↔ (n ∈ s.graph.nodes ∧ n.sourceFile = some p)
  dropped : ∀ p ∈ changes.touched, (p ∈ changes.toIndex → source.exists p = false) →
    ∀ n ∈ s'.graph.nodes, n.sourceFile ≠ some p
  keys : ∀ p, p ∈ s'.manifest.entries ↔
    ((p ∈ changes.toIndex ∧ source.exists p = true) ∨ p ∈ s.manifest.entries) ∧
      p ∉ changes.removed ∧ (p ∈ changes.toIndex → source.exists p = true)

/-- Applying nothing changes nothing. -/
theorem applied_empty {ex : Extractor C} {source : Source C} {changes : ChangeSet} {s : GraphState}
    (h : changes.isEmpty = true) : Applied ex source changes s s := by
  obtain ⟨⟨hadded, hmodified⟩, hremoved⟩ : (changes.added = [] ∧ changes.modified = []) ∧
      changes.removed = [] := by
    simpa [ChangeSet.isEmpty] using h
  have htoIndex : changes.toIndex = [] := by rw [ChangeSet.toIndex, hadded, hmodified]; rfl
  have htouched : changes.touched = [] := by rw [ChangeSet.touched, hadded, hmodified, hremoved]; rfl
  exact
    { indexed := fun p hp => by rw [htoIndex] at hp; cases hp
      untouched := fun p _ n => Iff.rfl
      dropped := fun p hp => by rw [htouched] at hp; cases hp
      keys := fun p => by simp [htoIndex, hremoved] }

namespace Ledger

variable {st : Stages C} {ex : Extractor C} {L : Ledger} {s s' : GraphState}
  {changes : ChangeSet} {source : Source C} {fx : FrontExtract} {files : List Contribution}

/-- The nodes of a file are those of its ledger entries. -/
theorem mem_fileNodes (hex : ex.PerFile) (hs : Listed ex L s) {p : String} {n : Node} :
    (n ∈ s.graph.nodes ∧ n.sourceFile = some p) ↔ ∃ f ∈ L, f.1 = p ∧ n ∈ f.2.nodes := by
  rw [hs.nodes, List.mem_append, mem_nodes]
  constructor
  · rintro ⟨⟨f, hf, hn⟩ | hn, hp⟩
    · rw [hex.sourceFile (hs.ok.yields hf) hn] at hp
      exact ⟨f, hf, Option.some.inj hp, hn⟩
    · rw [(mem_overlayNodes hn).1] at hp
      cases hp
  · rintro ⟨f, hf, rfl, hn⟩
    exact ⟨Or.inl ⟨f, hf, hn⟩, hex.sourceFile (hs.ok.yields hf) hn⟩

/-- An entry of a ledger is what its state shows of the file. -/
theorem shows_of_mem (hex : ex.PerFile) (hs : Listed ex L s) {f : Contribution} (hf : f ∈ L) {c : C}
    (hextract : ex.extract (classify f.1) c = .ok f.2) : Shows ex s f.1 c := by
  refine ⟨f.2, hextract, fun n => ?_⟩
  rw [mem_fileNodes hex hs]
  constructor
  · rintro ⟨f', hf', hfile, hn⟩
    rw [← hs.ok.agree hf' hf hfile]
    exact hn
  · exact fun hn => ⟨f, hf, rfl, hn⟩

/-- **What an apply does to a path**, from the inversion of its front half. -/
theorem applied_of_front (hf : FrontOk st s changes source ex fx files)
    (hex : ex.PerFile) (hs : Listed ex L s)
    (hs' : Listed ex (step fx.changes.touched files L) s')
    (hkeys : ∀ p, p ∈ s'.manifest.entries ↔ p ∈ (maintainManifest s.manifest fx.changes).entries) :
    Applied ex source changes s s' := by
  have hindexed : ∀ p, p ∈ fx.changes.toIndex ↔ p ∈ changes.toIndex ∧ source.exists p = true :=
    fun p => by rw [hf.changes, toIndex_foldVanished, List.mem_filter]
  have htouched : ∀ p, p ∈ fx.changes.touched ↔ p ∈ changes.touched := fun p => by
    rw [hf.changes, mem_touched_foldVanished]
  refine
    { indexed := fun p hp hexists hhandles => ?_
      untouched := fun p hp n => ?_
      dropped := fun p hp hgone n hn hfile => ?_
      keys := fun p => ?_ }
  · -- the file is read and extracted once more
    obtain ⟨g, hg, rfl⟩ :=
      exists_mem_extractFiles hf.extract ((hindexed p).mpr ⟨hp, hexists⟩) hhandles
    obtain ⟨-, -, c, hread, hextract⟩ := (mem_extractFiles hf.extract).mp hg
    exact ⟨c, hread, shows_of_mem hex hs' (mem_step.mpr (Or.inr hg)) hextract⟩
  · rw [mem_fileNodes hex hs', mem_fileNodes hex hs]
    have hp' : p ∉ fx.changes.touched := fun h => hp ((htouched p).mp h)
    constructor
    · rintro ⟨f, hmem, rfl, hn⟩
      rcases mem_step.mp hmem with ⟨hmem, -⟩ | hmem
      · exact ⟨f, hmem, rfl, hn⟩
      · exact absurd (touched_of_mem_files hf hmem) hp'
    · rintro ⟨f, hmem, rfl, hn⟩
      exact ⟨f, mem_step.mpr (Or.inl ⟨hmem, hp'⟩), rfl, hn⟩
  · obtain ⟨f, hmem, rfl, -⟩ := (mem_fileNodes hex hs').mp ⟨hn, hfile⟩
    rcases mem_step.mp hmem with ⟨-, huntouched⟩ | hmem
    · exact huntouched ((htouched f.1).mpr hp)
    · obtain ⟨hlisted, hexists⟩ := (hindexed f.1).mp ((mem_extractFiles hf.extract).mp hmem).1
      rw [hgone hlisted] at hexists
      cases hexists
  · have hremoved : p ∈ fx.changes.removed ↔
        p ∈ changes.removed ∨ (p ∈ changes.toIndex ∧ ¬ source.exists p = true) := by
      rw [hf.changes, removed_foldVanished, List.mem_append, List.mem_filter]
      simp only [Bool.not_eq_true', Bool.not_eq_true]
    rw [hkeys, mem_maintainManifest, hindexed, hremoved, not_or, not_and, not_not]

end Ledger

namespace Pipeline

variable {pl : Pipeline C} {disk : Disk C} {s s' : GraphState} {changes : ChangeSet}
  {report : BuildReport} {L : Ledger}

/-- An apply that succeeds merges the engine's delta with a stamped manifest. -/
theorem apply_ok (h : pl.apply disk s changes = .ok (s', report)) :
    ∃ fx partition, frontExtract pl.stages s changes (pl.fs.source disk) pl.extractor = .ok fx ∧
      s' = merge s { buildDelta s fx (frontLink s (pl.fs.source disk) fx)
          (edgeStage s fx (frontLink s (pl.fs.source disk) fx) pl.linkScope) partition with
        manifest := pl.fs.stamp disk (maintainManifest s.manifest fx.changes) changes.toIndex } := by
  unfold Pipeline.apply at h
  obtain ⟨δ, hδ, h⟩ := bind_eq_ok.mp h
  obtain ⟨fx, partition, hfx, rfl⟩ := applyWith_ok hδ
  refine ⟨fx, partition, hfx, ?_⟩
  dsimp only at h
  split at h
  · obtain ⟨-, -, h⟩ := bind_eq_ok.mp h
    cases h
    rfl
  · cases h
    rfl

/-- An apply whose engine and guard succeed succeeds. -/
theorem apply_of_ok {δ : GraphDelta}
    (h : Engine.applyWith pl.stages s changes (pl.fs.source disk) pl.extractor pl.linkScope
      pl.clusterTiming = .ok δ)
    (hguard : checkShrinkGuard s.graph δ.nodesRemoved δ.dirtyFiles = .ok ()) :
    pl.apply disk s changes = .ok
      (merge s { δ with manifest := pl.fs.stamp disk δ.manifest changes.toIndex },
        reportOf changes { δ with manifest := pl.fs.stamp disk δ.manifest changes.toIndex }) := by
  refine bind_eq_ok.mpr ⟨δ, h, ?_⟩
  dsimp only
  split
  · exact bind_eq_ok.mpr ⟨(), hguard, rfl⟩
  · rfl

/-- One apply keeps to its ledger, and does to each path what `Applied` says. -/
theorem applied_of_apply (hex : pl.extractor.PerFile) (hno : pl.extractor.NoOverlay)
    (hs : Ledger.Listed pl.extractor L s) (h : pl.apply disk s changes = .ok (s', report)) :
    (∃ L', Ledger.Listed pl.extractor L' s') ∧
      Applied pl.extractor (pl.fs.source disk) changes s s' := by
  obtain ⟨fx, partition, hfx, heq⟩ := apply_ok h
  obtain ⟨files, hf⟩ := frontExtract_ok hfx
  have hmerged := Ledger.listed_step hf hex hs hno
    (edgeStage s fx (frontLink s (pl.fs.source disk) fx) pl.linkScope) partition
  have hs' : Ledger.Listed pl.extractor (Ledger.step fx.changes.touched files L) s' := by
    rw [heq]
    exact ⟨hmerged.ok, hmerged.nodes⟩
  refine ⟨⟨_, hs'⟩, Ledger.applied_of_front hf hex hs hs' fun p => ?_⟩
  rw [heq]
  exact mem_stamp

/-- In every state of a project the nodes are those of a ledger. -/
theorem exists_listed {st : Stages C} {ex : Extractor C} (hex : ex.PerFile) (hno : ex.NoOverlay)
    (h : PipelineReach st ex s) : ∃ L, Ledger.Listed ex L s := by
  induction h with
  | empty => exact ⟨[], Ledger.listed_empty ex⟩
  | apply _ _ hextractor hrun ih =>
      subst hextractor
      obtain ⟨L, hs⟩ := ih
      exact (applied_of_apply hex hno hs hrun).1

/-- The shrink guard never rejects an apply onto a listed state. -/
theorem shrinkGuard_ok {st : Stages C} {ex : Extractor C} {source : Source C} {fx : FrontExtract}
    {files : List Contribution} (hf : FrontOk st s changes source ex fx files) (hex : ex.PerFile)
    (hno : ex.NoOverlay) (hs : Ledger.Listed ex L s) (es : EdgeStage) (partition : Partition) :
    checkShrinkGuard s.graph (buildDelta s fx (frontLink s source fx) es partition).nodesRemoved
      (buildDelta s fx (frontLink s source fx) es partition).dirtyFiles = .ok () := by
  refine checkShrinkGuard_ok fun n hn hremoved p hp => ?_
  obtain ⟨f, hmem, rfl, hnode⟩ := (Ledger.mem_fileNodes hex hs).mp ⟨hn, hp⟩
  have hdirty : (buildDelta s fx (frontLink s source fx) es partition).dirtyFiles
      = Canon.canon fx.changes.touched := rfl
  rw [hdirty, Canon.mem_canon]
  have hids : (buildDelta s fx (frontLink s source fx) es partition).nodesRemoved
      = (frontLink s source fx).droppedIds ++ fx.priorProjectNodes.map Node.id := rfl
  rw [hids, List.mem_append] at hremoved
  rcases hremoved with hdropped | hproject
  · exact (Ledger.mem_droppedIds_iff hf hex hs hmem (List.mem_map_of_mem hnode)).mp hdropped
  · -- a symbol node never has the id of a project
    rw [Ledger.priorProjectNodes_eq hf hex hs hno] at hproject
    obtain ⟨m, hm, hid⟩ := List.mem_map.mp hproject
    obtain ⟨root, hroot⟩ := (Ledger.mem_overlayNodes hm).2.2
    exact absurd (hid.symm.trans hroot) (hno.ids (hs.ok.yields hmem) hnode root)

end Pipeline

end Filigrio
