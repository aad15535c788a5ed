import Filigrio.Ledger.Workspace
import Filigrio.Ledger.Cold

/-!
# Filigrio.Ledger.Once

A changeset that repeats a path. Extraction walks `added` then `modified` path by
path, and the merge drops added nodes by the ids that were there before it: a path
named twice is extracted twice and added twice. Everything else an apply computes
(indices, references, workspace, export tables, manifest) depends on the named
paths as a set, so the result is that of naming each path once exactly when no
repeated path contributes a node.
-/

namespace Filigrio

variable {C : Type}

/-! ### Naming each path once -/

/-- `once` names the paths of `changes`, each at its last mention only; it may split
them otherwise into added and modified. -/
structure NamesOnce (changes once : ChangeSet) : Prop where
  toIndex : once.toIndex = changes.toIndex.dedup
  removed : once.removed = changes.removed

/-- A path the changeset repeats contributes no node: it is gone, or not handled, or
its extraction is empty. -/
def HarmlessRepeats (source : Source C) (ex : Extractor C) (changes : ChangeSet) : Prop :=
  ∀ p c x, 1 < changes.toIndex.count p → source.exists p = true →
    ex.handles (classify p) = true → source.read p = .ok c →
    ex.extract (classify p) c = .ok x → x.nodes = []

/-- Two states with the same nodes and edges, up to order, and the same references,
export tables and manifest keys. -/
structure SameApplied (s s' : GraphState) : Prop where
  nodes : s.graph.nodes.Perm s'.graph.nodes
  edges : s.graph.edges.Perm s'.graph.edges
  reverse : s.reverse = s'.reverse
  exports : s.exports = s'.exports
  manifest : ∀ p, p ∈ s.manifest.entries ↔ p ∈ s'.manifest.entries

theorem filter_dedup_getLast? {α : Type} [DecidableEq α] (q : α → Bool) (l : List α) :
    (l.dedup.filter q).getLast? = (l.filter q).getLast? := by
  induction l with
  | nil => rfl
  | cons a l ih =>
      by_cases hmem : a ∈ l
      · rw [List.dedup_cons_of_mem hmem, ih]
        by_cases hq : q a = true
        · -- the later mention of `a` is still in the list
          have hne : l.filter q ≠ [] := List.ne_nil_of_mem (List.mem_filter.mpr ⟨hmem, hq⟩)
          rw [List.filter_cons_of_pos hq, List.getLast?_cons_of_ne_nil hne]
        · rw [List.filter_cons_of_neg hq]
      · rw [List.dedup_cons_of_notMem hmem]
        by_cases hq : q a = true
        · rw [List.filter_cons_of_pos hq, List.filter_cons_of_pos hq, List.getLast?_cons,
            List.getLast?_cons, ih]
        · rw [List.filter_cons_of_neg hq, List.filter_cons_of_neg hq, ih]

/-- An edge is present or not whatever the order of the ids. -/
theorem present_congr {ids ids' : List NodeId} (h : ∀ id, id ∈ ids ↔ id ∈ ids') (e : Edge) :
    e.present ids = e.present ids' := by
  unfold Edge.present
  cases e.target with
  | node t => simp only [h]
  | symbol r => simp only [h]

namespace Ledger

variable {st : Stages C} {ex : Extractor C} {L : Ledger} {s : GraphState}
  {changes once : ChangeSet} {source : Source C} {fx fx' : FrontExtract}
  {files files' : List Contribution}

/-! ### Two front halves of one set of paths -/

/-- Everything the link half hands on but the list of all nodes. -/
structure SameLink (fl fl' : FrontLink) : Prop where
  droppedFiles : fl'.droppedFiles = fl.droppedFiles
  droppedIds : fl'.droppedIds = fl.droppedIds
  projectIds : fl'.priorProjectNodeIds = fl.priorProjectNodeIds
  idx : fl'.idx = fl.idx
  exportsByFile : fl'.exportsByFile = fl.exportsByFile
  importScope : fl'.importScope = fl.importScope
  refsByName : fl'.refsByName = fl.refsByName
  healedRefs : fl'.healedRefs = fl.healedRefs

section Front

variable (hf : FrontOk st s changes source ex fx files)
  (hf' : FrontOk st s once source ex fx' files') (honce : NamesOnce changes once)
include hf hf' honce

theorem mem_toIndex_once (p : String) : p ∈ fx'.changes.toIndex ↔ p ∈ fx.changes.toIndex := by
  rw [hf.changes, hf'.changes, toIndex_foldVanished, toIndex_foldVanished, honce.toIndex,
    List.mem_filter, List.mem_filter, List.mem_dedup]

theorem mem_removed_once (p : String) : p ∈ fx'.changes.removed ↔ p ∈ fx.changes.removed := by
  rw [hf.changes, hf'.changes, removed_foldVanished, removed_foldVanished, honce.toIndex,
    honce.removed, List.mem_append, List.mem_append, List.mem_filter, List.mem_filter,
    List.mem_dedup]

theorem mem_touched_once (p : String) : p ∈ fx'.changes.touched ↔ p ∈ fx.changes.touched := by
  rw [ChangeSet.mem_touched, ChangeSet.mem_touched, mem_toIndex_once hf hf' honce,
    mem_removed_once hf hf' honce]

theorem inFiles_once (n : Node) : n.inFiles fx'.changes.touched = n.inFiles fx.changes.touched := by
  unfold Node.inFiles
  cases n.sourceFile with
  | none => rfl
  | some p => exact decide_eq_decide.mpr (mem_touched_once hf hf' honce p)

theorem droppedNodes_once : fx'.droppedNodes = fx.droppedNodes := by
  rw [hf.dropped, hf'.dropped]
  exact List.filter_congr fun n _ => inFiles_once hf hf' honce n

theorem survivingNodes_once : fx'.survivingNodes = fx.survivingNodes := by
  rw [hf.surviving, hf'.surviving]
  simp only [inFiles_once hf hf' honce]

theorem priorProjectNodes_once : fx'.priorProjectNodes = fx.priorProjectNodes := by
  rw [hf.overlay, hf'.overlay]
  simp only [inFiles_once hf hf' honce]

/-- The last mention of a manifest is kept, so the workspace is. -/
theorem workspace_once : fx'.workspace = fx.workspace := by
  refine congrArg Workspace.mk (BTreeMap.ext_get fun d => ?_)
  have htouched : fx'.changes.touched.any (manifestOf d) = fx.changes.touched.any (manifestOf d) := by
    rw [Bool.eq_iff_iff, List.any_eq_true, List.any_eq_true]
    simp only [mem_touched_once hf hf' honce]
  have hlast : lastManifest fx'.changes.toIndex d = lastManifest fx.changes.toIndex d := by
    rw [hf.changes, hf'.changes, toIndex_foldVanished, toIndex_foldVanished, honce.toIndex,
      lastManifest, lastManifest, List.filter_filter, List.filter_filter, filter_dedup_getLast?]
  rw [get_maintainWorkspace hf.workspace, get_maintainWorkspace hf'.workspace, htouched, hlast]

theorem mem_files_once (f : Contribution) : f ∈ files ↔ f ∈ files' := by
  rw [mem_extractFiles hf.extract, mem_extractFiles hf'.extract, mem_toIndex_once hf hf' honce]

omit hf' honce in
theorem ok_files : Ok ex files := by
  have hempty : Ok ex [] := ⟨fun h => by simp at h, fun h => by simp at h⟩
  simpa [step] using ok_step hf hempty

theorem mem_step_once (f : Contribution) :
    f ∈ step fx.changes.touched files L ↔ f ∈ step fx'.changes.touched files' L := by
  rw [mem_step, mem_step, mem_files_once hf hf' honce, mem_touched_once hf hf' honce]

/-- The freshly extracted export tables are the same. -/
theorem extracted_exports_once : fx'.extracted.exports = fx.extracted.exports := by
  rw [hf.extracted, hf'.extracted]
  exact (exports_congr (ok_files hf) (mem_files_once hf hf' honce)).symm

variable (hex : ex.PerFile) (hno : ex.NoOverlay) (hs : Listed ex L s)
include hex hno hs

/-- The link half sees the named paths as a set. -/
theorem frontLink_once : SameLink (frontLink s source fx) (frontLink s source fx') := by
  have hws := workspace_once hf hf' honce
  have hmem := mem_step_once (L := L) hf hf' honce
  have hok := ok_step hf hs.ok
  have hfiles : (frontLink s source fx').droppedFiles = (frontLink s source fx).droppedFiles :=
    Canon.canon_congr (mem_touched_once hf hf' honce)
  have hids : (frontLink s source fx').droppedIds = (frontLink s source fx).droppedIds :=
    congrArg (fun ns : List Node => Canon.canon (ns.map Node.id)) (droppedNodes_once hf hf' honce)
  have hproj : (frontLink s source fx').priorProjectNodeIds
      = (frontLink s source fx).priorProjectNodeIds :=
    congrArg (fun ns : List Node => Canon.canon (ns.map Node.id)) (priorProjectNodes_once hf hf' honce)
  have hidx : (frontLink s source fx').idx = (frontLink s source fx).idx := by
    rw [idx_eq hf hex hs hno, idx_eq hf' hex hs hno, hws, idx_congr hex hok hmem]
  have hrefs : rebuildRefs s.reverse (frontLink s source fx').droppedIds fx'.extracted.refs
      = rebuildRefs s.reverse (frontLink s source fx).droppedIds fx.extracted.refs := by
    rw [hids]
    refine BTreeMap.index_congr fun nr => ?_
    rw [hf.extracted, hf'.extracted]
    simp only [Extracted.collect, List.mem_append, List.mem_flatMap, mem_files_once hf hf' honce]
  have hexports : (frontLink s source fx').exportsByFile = (frontLink s source fx).exportsByFile := by
    have heq : ∀ fx, (frontLink s source fx).exportsByFile = maintainExports s.exports
      (frontLink s source fx).droppedFiles fx.extracted.exports := fun _ => rfl
    rw [heq, heq, hfiles, extracted_exports_once hf hf' honce]
  have hscope : (frontLink s source fx').importScope = (frontLink s source fx).importScope := by
    have hdefs : buildLocalDef (frontLink s source fx').allNodes
        = buildLocalDef (frontLink s source fx).allNodes := by
      rw [allNodes_eq hf hex hs hno, allNodes_eq hf' hex hs hno, buildLocalDef_congr hex hok hmem]
    rw [frontLink_importScope, frontLink_importScope, hrefs, hexports, hidx, hws]
    unfold buildImportScope
    rw [hdefs]
  have hheal := frontLink_heal s source fx'
  rw [hrefs, hids, hproj, hidx, hscope, frontLink_heal s source fx] at hheal
  obtain ⟨hrefsByName, hhealed⟩ := Prod.mk.inj hheal
  exact ⟨hfiles, hids, hproj, hidx, hexports, hscope, hrefsByName.symm, hhealed.symm⟩

/-- Both scopes link the same edges, and find the same impact set. -/
theorem linkStage_once (scope : LinkScope) :
    linkStage s fx' (frontLink s source fx') scope = linkStage s fx (frontLink s source fx) scope := by
  have hlink := frontLink_once hf hf' honce hex hno hs
  have hws := workspace_once hf hf' honce
  have hctx : linkCtx fx' (frontLink s source fx') = linkCtx fx (frontLink s source fx) := by
    unfold linkCtx
    rw [hlink.idx, hlink.importScope, hws]
  have hdirty : dirtyNames fx'.droppedNodes fx'.extracted.nodes
      = dirtyNames fx.droppedNodes fx.extracted.nodes := by
    refine Canon.canon_congr fun nm => ?_
    rw [droppedNodes_once hf hf' honce, hf.extracted, hf'.extracted]
    simp only [Extracted.collect, List.mem_map, List.mem_filter, List.mem_append, List.mem_flatMap,
      mem_files_once hf hf' honce]
  have himpact : impactOf s fx' (frontLink s source fx') = impactOf s fx (frontLink s source fx) := by
    unfold impactOf computeImpact
    rw [hdirty, hlink.refsByName, hlink.droppedFiles, hlink.exportsByFile, hlink.idx, hws]
  cases scope with
  | global => rw [linkStage, linkStage, hlink.refsByName, hlink.idx, hctx]
  | «scoped» =>
      rw [linkStage, linkStage, himpact, hlink.refsByName, hlink.idx, hctx]

theorem carried_once (scope : LinkScope) :
    (edgeStage s fx' (frontLink s source fx') scope).carried
      = (edgeStage s fx (frontLink s source fx) scope).carried := by
  have hlink := frontLink_once hf hf' honce hex hno hs
  rw [edgeStage_carried, edgeStage_carried, linkStage_once hf hf' honce hex hno hs,
    hlink.refsByName, hlink.droppedIds, hlink.projectIds]

end Front

/-! ### How often a file is extracted -/

/-- A file is listed as often as its path is named. -/
theorem count_extractFiles {paths : List String} (h : extractFiles source ex paths = .ok files)
    {f : Contribution} {c : C} (hhandles : ex.handles (classify f.1) = true)
    (hread : source.read f.1 = .ok c) (hextract : ex.extract (classify f.1) c = .ok f.2) :
    files.count f = paths.count f.1 := by
  induction paths generalizing files with
  | nil => cases h; rfl
  | cons path paths ih =>
      unfold extractFiles at h
      split at h
      · obtain ⟨c', hread', h⟩ := bind_eq_ok.mp h
        obtain ⟨x, hextract', h⟩ := bind_eq_ok.mp h
        obtain ⟨rest, hrest, h⟩ := bind_eq_ok.mp h
        cases h
        rw [List.count_cons, List.count_cons, ih hrest]
        congr 1
        by_cases hp : path = f.1
        · -- the same path has the same extraction
          subst hp
          cases hread.symm.trans hread'
          cases hextract.symm.trans hextract'
          simp
        · have hne : (path, x) ≠ f := fun heq => hp (congrArg Prod.fst heq)
          simp [hp, hne]
      · rename_i hnot
        have hp : path ≠ f.1 := fun heq => hnot (heq ▸ hhandles)
        rw [ih h, List.count_cons_of_ne hp]

/-- Entries that contribute nothing can be left out. -/
theorem flatMap_filter {β : Type} {g : Contribution → List β} {p : Contribution → Bool}
    (h : ∀ f ∈ L, p f = false → g f = []) : (L.filter p).flatMap g = L.flatMap g := by
  induction L with
  | nil => rfl
  | cons f L ih =>
      have htail := ih fun f' hf' => h f' (List.mem_cons_of_mem _ hf')
      by_cases hp : p f = true
      · rw [List.filter_cons_of_pos hp, List.flatMap_cons, List.flatMap_cons, htail]
      · rw [List.filter_cons_of_neg hp, List.flatMap_cons, htail,
          h f (by simp) (Bool.not_eq_true _ ▸ hp), List.nil_append]

/-- Does the file contribute a node? -/
def hasNodes (f : Contribution) : Bool := !f.2.nodes.isEmpty

theorem hasNodes_iff {f : Contribution} : hasNodes f = true ↔ f.2.nodes ≠ [] := by
  simp [hasNodes]

theorem nodes_filter_hasNodes (L : Ledger) : nodes (L.filter hasNodes) = nodes L :=
  flatMap_filter fun f _ hf => by
    have hnil : ¬ f.2.nodes ≠ [] := fun h => by rw [hasNodes_iff.mpr h] at hf; cases hf
    exact not_not.mp hnil

/-- A file without nodes has no edges either. -/
theorem structural_filter_hasNodes (hex : ex.PerFile) (hL : Ok ex L) :
    structural (L.filter hasNodes) = structural L :=
  flatMap_filter fun f hmem hf => by
    have hnil : f.2.nodes = [] := by
      by_contra h
      rw [hasNodes_iff.mpr h] at hf
      cases hf
    refine List.eq_nil_iff_forall_not_mem.mpr fun e he => ?_
    have hsource := hex.sources (hL.yields hmem) (List.mem_filter.mp he).1
    rw [hnil] at hsource
    cases hsource

/-- Count over a ledger what only one of its entries contributes. -/
theorem count_flatMap {β : Type} [DecidableEq β] {g : Contribution → List β} {f : Contribution}
    {b : β} (h : ∀ f' ∈ L, f' = f ∨ b ∉ g f') :
    (L.flatMap g).count b = L.count f * (g f).count b := by
  induction L with
  | nil => simp
  | cons f' L ih =>
      have htail := ih fun f'' hf'' => h f'' (List.mem_cons_of_mem _ hf'')
      rw [List.flatMap_cons, List.count_append, htail, List.count_cons]
      by_cases heq : f' = f
      · subst heq
        simp [Nat.add_mul, Nat.add_comm]
      · have hnot : b ∉ g f' := (h f' (by simp)).resolve_left heq
        simp [List.count_eq_zero_of_not_mem hnot, heq]

section Front

variable (hf : FrontOk st s changes source ex fx files)
include hf

/-- The files that contribute nodes are extracted once, when the repeats are harmless. -/
theorem nodup_filter_hasNodes (hharmless : HarmlessRepeats source ex changes) :
    (files.filter hasNodes).Nodup := by
  refine List.nodup_iff_count_le_one.mpr fun f => ?_
  by_cases hmem : f ∈ files.filter hasNodes
  · obtain ⟨hmem, hnodes⟩ := List.mem_filter.mp hmem
    obtain ⟨hindexed, hhandles, c, hread, hextract⟩ := (mem_extractFiles hf.extract).mp hmem
    have hcount := count_extractFiles hf.extract hhandles hread hextract
    rw [hf.changes, toIndex_foldVanished] at hindexed hcount
    have hexists := (List.mem_filter.mp hindexed).2
    rw [List.count_filter hexists] at hcount
    rw [List.count_filter hnodes, hcount]
    by_contra hmore
    exact hasNodes_iff.mp hnodes
      (hharmless f.1 c f.2 (not_le.mp hmore) hexists hhandles hread hextract)
  · rw [List.count_eq_zero_of_not_mem hmem]
    exact Nat.zero_le 1

end Front

section Once

variable (hf : FrontOk st s changes source ex fx files)
  (hf' : FrontOk st s once source ex fx' files') (honce : NamesOnce changes once)

include hf' honce in
theorem nodup_files_once : files'.Nodup := by
  refine List.Nodup.of_map Prod.fst ((extractFiles_sublist hf'.extract).nodup ?_)
  rw [hf'.changes, toIndex_foldVanished, honce.toIndex]
  exact (List.nodup_dedup _).filter _

include hf hf' honce

/-- Harmless repeats extract the same files that matter. -/
theorem files_perm_once (hharmless : HarmlessRepeats source ex changes) :
    (files.filter hasNodes).Perm (files'.filter hasNodes) :=
  (List.perm_ext_iff_of_nodup (nodup_filter_hasNodes hf hharmless)
    ((nodup_files_once hf' honce).filter _)).mpr fun f => by
      rw [List.mem_filter, List.mem_filter, mem_files_once hf hf' honce]

theorem structural_perm_once (hex : ex.PerFile) (hharmless : HarmlessRepeats source ex changes) :
    (structural files).Perm (structural files') := by
  rw [← structural_filter_hasNodes hex (ok_files hf), ← structural_filter_hasNodes hex (ok_files hf')]
  exact (files_perm_once hf hf' honce hharmless).flatMap_right _

theorem keptFiles_once : (L.filter fun f => f.1 ∉ fx'.changes.touched)
    = L.filter fun f => f.1 ∉ fx.changes.touched := by
  refine List.filter_congr fun f _ => ?_
  simp only [mem_touched_once hf hf' honce]

theorem nodes_perm_once (hharmless : HarmlessRepeats source ex changes) :
    (nodes (step fx.changes.touched files L)).Perm (nodes (step fx'.changes.touched files' L)) := by
  have hnodes : (nodes files).Perm (nodes files') := by
    rw [← nodes_filter_hasNodes files, ← nodes_filter_hasNodes files']
    exact (files_perm_once hf hf' honce hharmless).flatMap_right _
  rw [step, step, nodes_append, nodes_append, keptFiles_once hf hf' honce]
  exact hnodes.append_left _

theorem manifest_once (p : String) :
    p ∈ (maintainManifest s.manifest fx.changes).entries ↔
      p ∈ (maintainManifest s.manifest fx'.changes).entries := by
  rw [mem_maintainManifest, mem_maintainManifest, mem_toIndex_once hf hf' honce,
    mem_removed_once hf hf' honce]

variable (hex : ex.PerFile) (hno : ex.NoOverlay) (hs : Listed ex L s)
include hex hno hs

theorem worldEdges_once (hharmless : HarmlessRepeats source ex changes) (scope : LinkScope) :
    (worldEdges s fx (frontLink s source fx) scope).Perm
      (worldEdges s fx' (frontLink s source fx') scope) := by
  have hworld : ∀ fx, worldEdges s fx (frontLink s source fx) scope
      = (edgeStage s fx (frontLink s source fx) scope).carried
        ++ (fx.extracted.structural ++ (linkStage s fx (frontLink s source fx) scope).1)
        ++ (projectOverlay fx.workspace (frontLink s source fx).allNodes).2 := fun _ => rfl
  have hemitted : fx.extracted.structural.Perm fx'.extracted.structural := by
    rw [hf.extracted, hf'.extracted]
    exact structural_perm_once hf hf' honce hex hharmless
  rw [hworld, hworld, carried_once hf hf' honce hex hno hs, linkStage_once hf hf' honce hex hno hs,
    workspace_once hf hf' honce, allNodes_eq hf hex hs hno, allNodes_eq hf' hex hs hno]
  refine ((hemitted.append_right _).append_left _).append ?_
  exact ((nodes_perm_once hf hf' honce hharmless).filterMap _).append_left _

/-- With harmless repeats the apply is that of naming each path once. -/
theorem sameApplied_of_harmless {l : List (String × Reference)}
    (hl : s.reverse.refs = BTreeMap.index l) (hharmless : HarmlessRepeats source ex changes)
    (scope : LinkScope) (partition partition' : Partition) :
    SameApplied
      (merge s (buildDelta s fx (frontLink s source fx)
        (edgeStage s fx (frontLink s source fx) scope) partition))
      (merge s (buildDelta s fx' (frontLink s source fx')
        (edgeStage s fx' (frontLink s source fx') scope) partition')) := by
  have hlink := frontLink_once hf hf' honce hex hno hs
  have hnodes : ((merge s (buildDelta s fx (frontLink s source fx)
        (edgeStage s fx (frontLink s source fx) scope) partition)).graph.nodes).Perm
      (merge s (buildDelta s fx' (frontLink s source fx')
        (edgeStage s fx' (frontLink s source fx') scope) partition')).graph.nodes := by
    rw [mergeNodes_eq hf hex hs hno, mergeNodes_eq hf' hex hs hno, workspace_once hf hf' honce]
    exact (nodes_perm_once hf hf' honce hharmless).append_right _
  refine
    { nodes := hnodes
      edges := ?_
      reverse := ?_
      exports := congrArg ExportIndex.mk hlink.exportsByFile.symm
      manifest := manifest_once hf hf' honce }
  · rw [← Multiset.coe_eq_coe, merge_edges, merge_edges, Multiset.coe_eq_coe]
    refine ((worldEdges_once hf hf' honce hex hno hs hharmless scope).filter _).trans
      (List.Perm.of_eq (List.filter_congr fun e _ => ?_))
    exact present_congr (fun id => (hnodes.map Node.id).mem_iff) e
  · exact congrArg ReverseIndex.mk ((merge_reverse_eq hl).trans
      (hlink.refsByName.symm.trans (merge_reverse_eq hl).symm))

/-- Without them a node of the repeated file is there more than once too often. -/
theorem harmless_of_nodes {partition partition' : Partition} {es es' : EdgeStage}
    (h : (merge s (buildDelta s fx (frontLink s source fx) es partition)).graph.nodes.Perm
      (merge s (buildDelta s fx' (frontLink s source fx') es' partition')).graph.nodes) :
    HarmlessRepeats source ex changes := by
  intro p c x hmore hexists hhandles hread hextract
  rw [mergeNodes_eq hf hex hs hno, mergeNodes_eq hf' hex hs hno, workspace_once hf hf' honce,
    step, step, nodes_append, nodes_append, keptFiles_once hf hf' honce] at h
  have hfiles : (nodes files).Perm (nodes files') :=
    (List.perm_append_left_iff _).mp ((List.perm_append_right_iff _).mp h)
  have hok := ok_files hf
  -- the two extractions list the file as often as its path is named
  have hcount : files.count (p, x) = changes.toIndex.count p := by
    rw [count_extractFiles hf.extract hhandles hread hextract, hf.changes, toIndex_foldVanished,
      List.count_filter hexists]
  have hmem : (p, x) ∈ files := List.count_pos_iff.mp (by omega)
  have hcount' : files'.count (p, x) = 1 :=
    List.count_eq_one_of_mem (nodup_files_once hf' honce) ((mem_files_once hf hf' honce _).mp hmem)
  refine List.eq_nil_iff_forall_not_mem.mpr fun n hn => ?_
  have hown : ∀ f ∈ files, f = (p, x) ∨ n ∉ f.2.nodes := by
    intro f hfmem
    by_cases hnode : n ∈ f.2.nodes
    · have hfile : f.1 = p := hex.ids (hok.yields hfmem) (hok.yields hmem) hnode hn rfl
      exact Or.inl (Prod.ext hfile (hok.agree hfmem hmem hfile))
    · exact Or.inr hnode
  have hown' : ∀ f ∈ files', f = (p, x) ∨ n ∉ f.2.nodes := fun f hfmem =>
    hown f ((mem_files_once hf hf' honce f).mpr hfmem)
  have hnodes : (files.flatMap fun f => f.2.nodes).count n
      = (files'.flatMap fun f => f.2.nodes).count n := hfiles.count_eq n
  rw [count_flatMap hown, count_flatMap hown', hcount, hcount', Nat.one_mul] at hnodes
  have hpos : 0 < x.nodes.count n := List.count_pos_iff.mpr hn
  have hone := Nat.eq_of_mul_eq_mul_right hpos (hnodes.trans (Nat.one_mul _).symm)
  omega

end Once

/-! ### Runs -/

/-- The ledger lists once every file that contributes nodes. -/
def NodesOnce (L : Ledger) : Prop := ((L.filter hasNodes).map Prod.fst).Nodup

/-- A harmless step keeps the files that contribute nodes listed once. -/
theorem nodesOnce_step (hf : FrontOk st s changes source ex fx files)
    (hharmless : HarmlessRepeats source ex changes) (hL : NodesOnce L) :
    NodesOnce (step fx.changes.touched files L) := by
  have hfiles : ((files.filter hasNodes).map Prod.fst).Nodup := by
    refine (nodup_filter_hasNodes hf hharmless).map_on fun f hmem f' hmem' hfile => ?_
    exact Prod.ext hfile ((ok_files hf).agree (List.mem_filter.mp hmem).1
      (List.mem_filter.mp hmem').1 hfile)
  have hkept : (((L.filter fun f => f.1 ∉ fx.changes.touched).filter hasNodes).map
      Prod.fst).Nodup := by
    rw [List.filter_comm]
    exact (List.filter_sublist.map Prod.fst).nodup hL
  rw [NodesOnce, step, List.filter_append, List.map_append]
  refine List.nodup_append'.mpr ⟨hkept, hfiles, fun p hp hp' => ?_⟩
  obtain ⟨f, hmem, rfl⟩ := List.mem_map.mp hp
  obtain ⟨f', hmem', hfile⟩ := List.mem_map.mp hp'
  have huntouched := (List.mem_filter.mp (List.mem_filter.mp hmem).1).2
  exact of_decide_eq_true huntouched
    (hfile ▸ touched_of_mem_files hf (List.mem_filter.mp hmem').1)

/-- Such a ledger has each of its ids once. -/
theorem nodup_ids (hex : ex.PerFile) (hunique : ex.UniqueIds) (hL : Ok ex L) (honce : NodesOnce L) :
    ((nodes L).map Node.id).Nodup := by
  have hids : (nodes L).map Node.id
      = (L.filter hasNodes).flatMap fun f => f.2.nodes.map Node.id := by
    rw [← nodes_filter_hasNodes L, nodes, Extracted.collect, List.map_flatMap]
  rw [hids]
  refine List.nodup_flatMap.mpr ⟨fun f hf => hunique (hL.yields (List.mem_filter.mp hf).1), ?_⟩
  refine (List.pairwise_map.mp honce).imp_of_mem fun {f f'} hf hf' hne id hid hid' => hne ?_
  obtain ⟨n, hn, rfl⟩ := List.mem_map.mp hid
  obtain ⟨n', hn', hsame⟩ := List.mem_map.mp hid'
  exact hex.ids (hL.yields (List.mem_filter.mp hf).1) (hL.yields (List.mem_filter.mp hf').1) hn hn'
    hsame.symm

theorem pid_injective : Function.Injective pid := fun root root' h => by
  have hval : "project:" ++ root = "project:" ++ root' := congrArg NodeId.val h
  simpa using hval

/-- The overlay has one node for each project. -/
theorem nodup_overlay_ids (ws : Workspace) : ((overlayNodes ws).map Node.id).Nodup := by
  have hids : (overlayNodes ws).map Node.id = ws.projects.keys.map pid := by
    rw [overlayNodes, List.map_map, ← Std.ExtTreeMap.map_fst_toList_eq_keys, List.map_map]
    rfl
  rw [hids]
  exact List.Nodup.map pid_injective ((keys_pairwise ws.projects).imp ne_of_lt)

/-- A structural edge of such a ledger occurs as often as in the extraction of its file. -/
theorem count_structural (hex : ex.PerFile) (hL : Ok ex L) (honce : NodesOnce L) {e : Edge}
    (he : e ∈ structural L) :
    ∃ f ∈ L, (structural L).count e = f.2.structural.count e := by
  rw [← structural_filter_hasNodes hex hL] at he ⊢
  obtain ⟨f, hf, he⟩ := List.mem_flatMap.mp he
  have hmem := (List.mem_filter.mp hf).1
  have hown : ∀ f' ∈ L.filter hasNodes, f' = f ∨ e ∉ f'.2.structural := by
    intro f' hf'
    by_cases he' : e ∈ f'.2.structural
    · have hmem' := (List.mem_filter.mp hf').1
      obtain ⟨n, hn, hid⟩ :=
        List.mem_map.mp (hex.sources (hL.yields hmem) (List.mem_filter.mp he).1)
      obtain ⟨n', hn', hid'⟩ :=
        List.mem_map.mp (hex.sources (hL.yields hmem') (List.mem_filter.mp he').1)
      have hfile : f'.1 = f.1 :=
        hex.ids (hL.yields hmem') (hL.yields hmem) hn' hn (hid'.trans hid.symm)
      exact Or.inl (Prod.ext hfile (hL.agree hmem' hmem hfile))
    · exact Or.inr he'
  have hcount : (L.filter hasNodes).count f = 1 :=
    List.count_eq_one_of_mem (List.Nodup.of_map Prod.fst honce) hf
  refine ⟨f, hmem, ?_⟩
  have hflat := count_flatMap hown
  rw [hcount, Nat.one_mul] at hflat
  exact hflat

/-- The applies of a run whose repeats are harmless. -/
def harmlessApply (ex : Extractor C) (_ : Source C) (_ : GraphState) (a : ApplyStep C) : Prop :=
  HarmlessRepeats a.source ex a.changes

/-- The global ones among them. -/
def harmlessGlobal (ex : Extractor C) (_ : Source C) (_ : GraphState) (a : ApplyStep C) : Prop :=
  a.scope = .global ∧ HarmlessRepeats a.source ex a.changes

theorem exists_listed_once (hex : ex.PerFile) (hno : ex.NoOverlay)
    (h : Reach st ex (harmlessApply ex) source s) : ∃ L, Listed ex L s ∧ NodesOnce L := by
  induction h with
  | empty source => exact ⟨[], listed_empty ex, List.nodup_nil⟩
  | apply _ hharmless hrun ih =>
      obtain ⟨L, hs, hL⟩ := ih
      obtain ⟨fx, partition, hfx, rfl⟩ := applyWith_ok hrun
      obtain ⟨files, hf⟩ := frontExtract_ok hfx
      exact ⟨_, listed_step hf hex hs hno _ partition, nodesOnce_step hf hharmless hL⟩

theorem exists_others_once (hex : ex.PerFile) (hno : ex.NoOverlay) (hunmixed : ex.Unmixed)
    (hinside : ex.TargetsInside) (h : Reach st ex (harmlessGlobal ex) source s) :
    ∃ L, Reflects ex source L s ∧ NodesOnce L ∧
      (s.graph.edges.filter fun e => e.site ∉ refSites s.reverse.refs).Perm
        (structural L ++ overlayEdges L s.workspace) := by
  induction h with
  | empty source => exact ⟨[], reflects_empty ex source, List.nodup_nil, by decide⟩
  | @apply prev s a δ _ hstep hrun ih =>
      obtain ⟨L, hs, hL, hothers⟩ := ih
      obtain ⟨fx, partition, hfx, rfl⟩ := applyWith_ok hrun
      obtain ⟨files, hf⟩ := frontExtract_ok hfx
      rw [hstep.1]
      exact ⟨_, reflects_step_global hf hex hs hno hunmixed partition,
        nodesOnce_step hf hstep.2 hL,
        others_step hf hex hno hunmixed hinside hs hothers partition⟩

end Ledger

/-- Every edge that is neither at a reference site nor an overlay edge occurs as often
as in one extraction of its file. -/
def StructuralOnce (ex : Extractor C) (s : GraphState) : Prop :=
  ∀ e ∈ s.graph.edges, e.site ∉ refSites s.reverse.refs → (∀ root, e.source ≠ pid root) →
    ∃ p x, ex.Yields p x ∧ s.graph.edges.count e = x.structural.count e

namespace Ledger

theorem structuralOnce_of (hex : ex.PerFile) (hL : Ok ex L) (honce : NodesOnce L)
    (hothers : (s.graph.edges.filter fun e => e.site ∉ refSites s.reverse.refs).Perm
      (structural L ++ overlayEdges L s.workspace)) : StructuralOnce ex s := by
  intro e he hsite hsource
  have hoverlay : e ∉ overlayEdges L s.workspace := fun h => by
    obtain ⟨root, hroot⟩ := source_of_mem_overlay (List.mem_filter.mp h).1
    exact hsource root hroot
  have hcount := hothers.count_eq e
  rw [List.count_filter (p := fun e : Edge => decide (e.site ∉ refSites s.reverse.refs))
    (decide_eq_true hsite), List.count_append,
    List.count_eq_zero_of_not_mem hoverlay, Nat.add_zero] at hcount
  have hmem : e ∈ structural L :=
    List.count_pos_iff.mp (hcount ▸ List.count_pos_iff.mpr he)
  obtain ⟨f, hf, hfile⟩ := count_structural hex hL honce hmem
  exact ⟨f.1, f.2, hL.yields hf, hcount.trans hfile⟩

theorem nodup_node_ids (hex : ex.PerFile) (hno : ex.NoOverlay) (hunique : ex.UniqueIds)
    (hs : Listed ex L s) (honce : NodesOnce L) : (s.graph.nodes.map Node.id).Nodup := by
  rw [hs.nodes, List.map_append]
  refine List.nodup_append'.mpr
    ⟨nodup_ids hex hunique hs.ok honce, nodup_overlay_ids s.workspace, fun id hid hid' => ?_⟩
  obtain ⟨n, hn, rfl⟩ := List.mem_map.mp hid
  obtain ⟨f, hf, hn⟩ := mem_nodes.mp hn
  obtain ⟨m, hm, hsame⟩ := List.mem_map.mp hid'
  obtain ⟨root, hroot⟩ := (mem_overlayNodes hm).2.2
  exact hno.ids (hs.ok.yields hf) hn root (hsame.symm.trans hroot)

end Ledger

/-- **Naming a path twice** is naming it once exactly when the repeated paths
contribute no node; and as long as every apply of a run keeps to that, no node id
and no structural edge is ever doubled. -/
theorem apply_eq_once_iff {st : Stages C} {ex : Extractor C} (hex : ex.PerFile)
    (hno : ex.NoOverlay) :
    (∀ {prev source s changes once scope timing δ δ'}, Reach st ex anyApply prev s →
      NamesOnce changes once →
      Engine.applyWith st s changes source ex scope timing = .ok δ →
      Engine.applyWith st s once source ex scope timing = .ok δ' →
      (SameApplied (merge s δ) (merge s δ') ↔ HarmlessRepeats source ex changes)) ∧
    (∀ {source s}, ex.UniqueIds → Reach st ex (Ledger.harmlessApply ex) source s →
      (s.graph.nodes.map Node.id).Nodup) ∧
    (∀ {source s}, ex.Unmixed → ex.TargetsInside →
      Reach st ex (Ledger.harmlessGlobal ex) source s → StructuralOnce ex s) := by
  refine ⟨?_, ?_, ?_⟩
  · intro prev source s changes once scope timing δ δ' hreach honce happly happly'
    obtain ⟨L, hs⟩ := Ledger.exists_listed hex hno hreach
    obtain ⟨l, hl⟩ := exists_reverse_index hreach
    obtain ⟨fx, partition, hfx, rfl⟩ := applyWith_ok happly
    obtain ⟨fx', partition', hfx', rfl⟩ := applyWith_ok happly'
    obtain ⟨files, hf⟩ := frontExtract_ok hfx
    obtain ⟨files', hf'⟩ := frontExtract_ok hfx'
    constructor
    · intro hsame
      exact Ledger.harmless_of_nodes hf hf' honce hex hno hs hsame.nodes
    · intro hharmless
      exact Ledger.sameApplied_of_harmless hf hf' honce hex hno hs hl hharmless _ _ _
  · intro source s hunique hreach
    obtain ⟨L, hs, honce⟩ := Ledger.exists_listed_once hex hno hreach
    exact Ledger.nodup_node_ids hex hno hunique hs honce
  · intro source s hunmixed hinside hreach
    obtain ⟨L, hs, honce, hothers⟩ := Ledger.exists_others_once hex hno hunmixed hinside hreach
    exact Ledger.structuralOnce_of hex hs.ok honce hothers

/-! ### Sample changesets -/

namespace Snippet

/-- A cold build that names `a.ts` in both lists, and one that names it once. -/
def twiceAndOnce (files : List (String × Snippet)) (changes once : ChangeSet) :
    Except Error (GraphDelta × GraphDelta) := do
  let δ ← Engine.apply stages .empty changes (source files) extractor
  let δ' ← Engine.apply stages .empty once (source files) extractor
  pure (δ, δ')

end Snippet

/-- `apply_eq_once_iff` on a repeated manifest, which the extractor does not handle. -/
theorem apply_eq_once_iff_sample : ∃ δ δ',
    Snippet.twiceAndOnce [("a.ts", .plain "f"), ("package.json", .plain "web")]
        ⟨["a.ts", "package.json"], ["package.json"], []⟩ ⟨["a.ts"], ["package.json"], []⟩
      = .ok (δ, δ') ∧
    SameApplied (merge .empty δ) (merge .empty δ') ∧
    ((merge .empty δ).graph.nodes.map Node.id).Nodup ∧
    StructuralOnce Snippet.extractor (merge .empty δ) := by
  have hok : (Snippet.twiceAndOnce [("a.ts", .plain "f"), ("package.json", .plain "web")]
      ⟨["a.ts", "package.json"], ["package.json"], []⟩ ⟨["a.ts"], ["package.json"], []⟩).isOk
      = true := by decide +kernel
  have honce : NamesOnce ⟨["a.ts", "package.json"], ["package.json"], []⟩
      ⟨["a.ts"], ["package.json"], []⟩ := ⟨by decide, rfl⟩
  have hharmless : HarmlessRepeats
      (Snippet.source [("a.ts", .plain "f"), ("package.json", .plain "web")]) Snippet.extractor
      ⟨["a.ts", "package.json"], ["package.json"], []⟩ := by
    intro p c x hmore hexists hhandles
    have hp : p = "package.json" := by
      by_contra hne
      have hcount : ["a.ts", "package.json", "package.json"].count p ≤ 1 := by
        by_cases ha : "a.ts" = p
        · subst ha; decide
        · simp [ha, Ne.symm hne]
      exact absurd hmore (not_lt.mpr hcount)
    subst hp
    exact absurd hhandles (by decide +kernel)
  cases hrun : Snippet.twiceAndOnce [("a.ts", .plain "f"), ("package.json", .plain "web")]
      ⟨["a.ts", "package.json"], ["package.json"], []⟩ ⟨["a.ts"], ["package.json"], []⟩ with
  | error e => rw [hrun] at hok; cases hok
  | ok r =>
      obtain ⟨δ, hδ, hrun⟩ := bind_eq_ok.mp hrun
      obtain ⟨δ', hδ', hrun⟩ := bind_eq_ok.mp hrun
      cases hrun
      obtain ⟨hsame, hids, hstructural⟩ :=
        @apply_eq_once_iff _ Snippet.stages _ Snippet.perFile Snippet.noOverlay
      have hstep : ∀ P : Source Snippet → GraphState → ApplyStep Snippet → Prop,
          P (Snippet.source []) .empty ⟨⟨["a.ts", "package.json"], ["package.json"], []⟩,
            Snippet.source [("a.ts", .plain "f"), ("package.json", .plain "web")], .global,
            .inline⟩ →
          Reach Snippet.stages Snippet.extractor P
            (Snippet.source [("a.ts", .plain "f"), ("package.json", .plain "web")])
            (merge .empty δ) := fun P hP =>
        .apply (a := ⟨_, _, .global, .inline⟩) (.empty (Snippet.source [])) hP hδ
      exact ⟨δ, δ', rfl, (hsame (.empty (Snippet.source [])) honce hδ hδ').mpr hharmless,
        hids Snippet.uniqueIds (hstep _ hharmless),
        hstructural Snippet.unmixed Snippet.targetsInside (hstep _ ⟨rfl, hharmless⟩)⟩

/-- A changeset that lists a new file as added and as modified doubles its nodes and
its structural edge. -/
theorem apply_ne_once : ∃ δ δ',
    Snippet.twiceAndOnce [("a.ts", .plain "f")] ⟨["a.ts"], ["a.ts"], []⟩ ⟨["a.ts"], [], []⟩
      = .ok (δ, δ') ∧
    NamesOnce ⟨["a.ts"], ["a.ts"], []⟩ ⟨["a.ts"], [], []⟩ ∧
    ¬ SameApplied (merge .empty δ) (merge .empty δ') ∧
    ¬ ((merge .empty δ).graph.nodes.map Node.id).Nodup ∧
    (merge .empty δ).graph.edges.count (Snippet.containsDef Snippet.defId "a.ts") = 2 := by
  have hrun : (Snippet.twiceAndOnce [("a.ts", .plain "f")] ⟨["a.ts"], ["a.ts"], []⟩
      ⟨["a.ts"], [], []⟩).map (fun r => decide
        ((merge .empty r.1).graph.nodes.length ≠ (merge .empty r.2).graph.nodes.length ∧
          ¬ ((merge .empty r.1).graph.nodes.map Node.id).Nodup ∧
          (merge .empty r.1).graph.edges.count (Snippet.containsDef Snippet.defId "a.ts") = 2))
      = .ok true := by decide +kernel
  cases htwice : Snippet.twiceAndOnce [("a.ts", .plain "f")] ⟨["a.ts"], ["a.ts"], []⟩
      ⟨["a.ts"], [], []⟩ with
  | error e => rw [htwice] at hrun; cases hrun
  | ok r =>
      rw [htwice] at hrun
      obtain ⟨hlength, hids, hedge⟩ := of_decide_eq_true (Except.ok.inj hrun)
      exact ⟨r.1, r.2, rfl, ⟨by decide, rfl⟩, fun hsame => hlength hsame.nodes.length_eq, hids, hedge⟩

end Filigrio
