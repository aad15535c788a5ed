import Filigrio.Ledger.Binding
import Filigrio.Store.Merge

/-!
# Filigrio.Ledger.Step

What one apply does to a ledger: the entries of the touched files leave it, the
freshly extracted ones join it. `Listed` says that a state's nodes are those of a
ledger and its project overlay; this module derives from it every output of the
front half and the nodes, edges and references the merge ends with.
-/

namespace Filigrio

variable {C : Type}

/-! ### Inverting an apply -/

/-- What `extractFiles` lists: each handled path with the extraction of its content. -/
theorem mem_extractFiles {source : Source C} {ex : Extractor C} {paths : List String}
    {files : List Contribution} (h : extractFiles source ex paths = .ok files) {f : Contribution} :
    f ∈ files ↔ f.1 ∈ paths ∧ ex.handles (classify f.1) = true ∧
      ∃ c, source.read f.1 = .ok c ∧ ex.extract (classify f.1) c = .ok f.2 := by
  induction paths generalizing files with
  | nil => cases h; simp
  | cons path paths ih =>
      unfold extractFiles at h
      split at h
      · rename_i hhandles
        obtain ⟨c, hread, h⟩ := bind_eq_ok.mp h
        obtain ⟨x, hextract, h⟩ := bind_eq_ok.mp h
        obtain ⟨rest, hrest, h⟩ := bind_eq_ok.mp h
        cases h
        rw [List.mem_cons, ih hrest, List.mem_cons]
        constructor
        · rintro (rfl | ⟨hmem, hf⟩)
          · exact ⟨Or.inl rfl, hhandles, c, hread, hextract⟩
          · exact ⟨Or.inr hmem, hf⟩
        · rintro ⟨hpath | hmem, hf⟩
          · obtain ⟨p, x'⟩ := f
            obtain rfl : p = path := hpath
            obtain ⟨-, c', hread', hextract'⟩ := hf
            cases hread.symm.trans hread'
            cases hextract.symm.trans hextract'
            exact Or.inl rfl
          · exact Or.inr ⟨hmem, hf⟩
      · rename_i hhandles
        rw [ih h, List.mem_cons]
        refine ⟨fun ⟨hmem, hf⟩ => ⟨Or.inr hmem, hf⟩, fun ⟨hmem, hf⟩ => ⟨?_, hf⟩⟩
        rcases hmem with hpath | hmem
        · exact absurd (hpath ▸ hf.1) hhandles
        · exact hmem

/-- What a successful front half hands on. -/
structure FrontOk (st : Stages C) (s : GraphState) (changes : ChangeSet) (source : Source C)
    (ex : Extractor C) (fx : FrontExtract) (files : List Contribution) : Prop where
  changes : fx.changes = (foldVanished changes source).1
  workspace : maintainWorkspace st s.workspace fx.changes source = .ok fx.workspace
  extract : extractFiles source ex fx.changes.toIndex = .ok files
  extracted : fx.extracted = Extracted.collect files
  dropped : fx.droppedNodes = s.graph.nodes.filter (Node.inFiles fx.changes.touched)
  surviving : fx.survivingNodes =
    (s.graph.nodes.filter fun n => !n.inFiles fx.changes.touched).filter fun n => !n.isProject
  overlay : fx.priorProjectNodes =
    (s.graph.nodes.filter fun n => !n.inFiles fx.changes.touched).filter Node.isProject

theorem frontExtract_ok {st : Stages C} {s : GraphState} {changes : ChangeSet} {source : Source C}
    {ex : Extractor C} {fx : FrontExtract} (h : frontExtract st s changes source ex = .ok fx) :
    ∃ files, FrontOk st s changes source ex fx files := by
  unfold frontExtract at h
  obtain ⟨ws, hws, h⟩ := bind_eq_ok.mp h
  obtain ⟨xs, hxs, h⟩ := bind_eq_ok.mp h
  obtain ⟨files, hfiles, hx⟩ := bind_eq_ok.mp hxs
  cases h
  cases hx
  exact ⟨files, rfl, hws, hfiles, rfl, rfl, rfl, rfl⟩

theorem applyWith_ok {st : Stages C} {s : GraphState} {changes : ChangeSet} {source : Source C}
    {ex : Extractor C} {scope : LinkScope} {timing : ClusterTiming} {δ : GraphDelta}
    (h : Engine.applyWith st s changes source ex scope timing = .ok δ) :
    ∃ fx partition, frontExtract st s changes source ex = .ok fx ∧
      δ = buildDelta s fx (frontLink s source fx)
        (edgeStage s fx (frontLink s source fx) scope) partition := by
  unfold Engine.applyWith at h
  obtain ⟨fx, hfx, h⟩ := bind_eq_ok.mp h
  obtain ⟨partition, -, h⟩ := bind_eq_ok.mp h
  cases h
  exact ⟨fx, partition, hfx, rfl⟩

/-! ### The ledger after an apply -/

namespace Ledger

/-- The entries of touched files leave, the freshly extracted ones join. -/
def step (touched : List String) (files : List Contribution) (L : Ledger) : Ledger :=
  (L.filter fun f => f.1 ∉ touched) ++ files

theorem mem_step {touched : List String} {files : List Contribution} {L : Ledger}
    {f : Contribution} : f ∈ step touched files L ↔ (f ∈ L ∧ f.1 ∉ touched) ∨ f ∈ files := by
  simp only [step, List.mem_append, List.mem_filter, decide_not, Bool.not_eq_true',
    decide_eq_false_iff_not]

theorem ok_filter {ex : Extractor C} {L : Ledger} (hL : Ok ex L) (p : Contribution → Bool) :
    Ok ex (L.filter p) where
  yields h := hL.yields (List.mem_filter.mp h).1
  agree h h' := hL.agree (List.mem_filter.mp h).1 (List.mem_filter.mp h').1

/-- Filtering nodes by a property of their file filters the ledger. -/
theorem filter_nodes {L : Ledger} {q : Node → Bool} {p : Contribution → Bool}
    (h : ∀ f ∈ L, ∀ n ∈ f.2.nodes, q n = p f) : (nodes L).filter q = nodes (L.filter p) := by
  induction L with
  | nil => rfl
  | cons f L ih =>
      have htail := ih fun f' hf' => h f' (List.mem_cons_of_mem _ hf')
      rw [nodes_cons, List.filter_append, htail, List.filter_cons]
      split
      · rename_i hp
        rw [List.filter_eq_self.mpr fun n hn => (h f (by simp) n hn).trans hp]
        exact (nodes_cons f _).symm
      · rename_i hp
        rw [List.filter_eq_nil_iff.mpr fun n hn hq => hp ((h f (by simp) n hn).symm.trans hq)]
        rfl

/-- The state's nodes are those of the ledger, then the overlay of its workspace. -/
structure Listed (ex : Extractor C) (L : Ledger) (s : GraphState) : Prop where
  ok : Ok ex L
  nodes : s.graph.nodes = nodes L ++ overlayNodes s.workspace

theorem listed_empty (ex : Extractor C) : Listed ex [] GraphState.empty where
  ok := ⟨fun h => by simp at h, fun h => by simp at h⟩
  nodes := rfl

/-- Overlay nodes carry no file, the kind `project` and a project id. -/
theorem mem_overlayNodes {ws : Workspace} {n : Node} (h : n ∈ overlayNodes ws) :
    n.sourceFile = none ∧ n.isProject = true ∧ ∃ root, n.id = pid root := by
  obtain ⟨rp, -, rfl⟩ := List.mem_map.mp h
  exact ⟨rfl, rfl, rp.1, rfl⟩

variable {st : Stages C} {ex : Extractor C} {L : Ledger} {s : GraphState} {changes : ChangeSet}
  {source : Source C} {fx : FrontExtract} {files : List Contribution}

theorem inFiles_of_mem (hex : ex.PerFile) (hL : Ok ex L) {f : Contribution} (h : f ∈ L) {n : Node}
    (hn : n ∈ f.2.nodes) (paths : List String) : n.inFiles paths = decide (f.1 ∈ paths) := by
  rw [Node.inFiles, hex.sourceFile (hL.yields h) hn]; rfl

theorem isProject_of_mem_nodes (hno : ex.NoOverlay) (hL : Ok ex L) {n : Node} (hn : n ∈ nodes L) :
    n.isProject = false := by
  obtain ⟨f, hf, hn⟩ := mem_nodes.mp hn
  exact hno.kind (hL.yields hf) hn

/-- The nodes of untouched files, and the overlay. -/
theorem untouchedNodes_eq (hex : ex.PerFile) (hs : Listed ex L s) (touched : List String) :
    (s.graph.nodes.filter fun n => !n.inFiles touched)
      = nodes (L.filter fun f => f.1 ∉ touched) ++ overlayNodes s.workspace := by
  have hoverlay : ((overlayNodes s.workspace).filter fun n => !n.inFiles touched)
      = overlayNodes s.workspace :=
    List.filter_eq_self.mpr fun n hn => by rw [Node.inFiles, (mem_overlayNodes hn).1]; rfl
  rw [hs.nodes, List.filter_append, hoverlay]
  congr 1
  exact filter_nodes fun f h n hn => by rw [inFiles_of_mem hex hs.ok h hn]; simp

section Front

variable (hf : FrontOk st s changes source ex fx files)
include hf

/-- Every extracted file is touched. -/
theorem touched_of_mem_files {f : Contribution} (h : f ∈ files) : f.1 ∈ fx.changes.touched :=
  ChangeSet.mem_touched.mpr (Or.inl ((mem_extractFiles hf.extract).mp h).1)

theorem ok_step (hL : Ok ex L) : Ok ex (step fx.changes.touched files L) where
  yields h := by
    rcases mem_step.mp h with ⟨hmem, -⟩ | hmem
    · exact hL.yields hmem
    · obtain ⟨-, hhandles, c, -, hextract⟩ := (mem_extractFiles hf.extract).mp hmem
      exact ⟨hhandles, c, hextract⟩
  agree h h' heq := by
    rcases mem_step.mp h with ⟨hmem, hnot⟩ | hmem <;>
      rcases mem_step.mp h' with ⟨hmem', hnot'⟩ | hmem'
    · exact hL.agree hmem hmem' heq
    · exact absurd (heq ▸ touched_of_mem_files hf hmem') hnot
    · exact absurd (heq ▸ touched_of_mem_files hf hmem) hnot'
    · obtain ⟨-, -, c, hread, hextract⟩ := (mem_extractFiles hf.extract).mp hmem
      obtain ⟨-, -, c', hread', hextract'⟩ := (mem_extractFiles hf.extract).mp hmem'
      rw [← heq] at hread' hextract'
      cases hread.symm.trans hread'
      exact Except.ok.inj (hextract.symm.trans hextract')

variable (hex : ex.PerFile) (hs : Listed ex L s)
include hex hs

theorem droppedNodes_eq :
    fx.droppedNodes = nodes (L.filter fun f => f.1 ∈ fx.changes.touched) := by
  have hoverlay : (overlayNodes s.workspace).filter (Node.inFiles fx.changes.touched) = [] :=
    List.filter_eq_nil_iff.mpr fun n hn hin => by
      rw [Node.inFiles, (mem_overlayNodes hn).1] at hin; cases hin
  rw [hf.dropped, hs.nodes, List.filter_append, hoverlay, List.append_nil]
  exact filter_nodes fun f h n hn => inFiles_of_mem hex hs.ok h hn _

/-- The dropped ids are those of the touched files' entries. -/
theorem mem_droppedIds {id : NodeId} : id ∈ (frontLink s source fx).droppedIds ↔
    ∃ f ∈ L, f.1 ∈ fx.changes.touched ∧ id ∈ f.2.nodes.map Node.id := by
  have hdropped : (frontLink s source fx).droppedIds = Canon.canon (fx.droppedNodes.map Node.id) :=
    rfl
  rw [hdropped, Canon.mem_canon, droppedNodes_eq hf hex hs]
  simp only [List.mem_map, mem_nodes, List.mem_filter, decide_eq_true_eq]
  constructor
  · rintro ⟨n, ⟨f, ⟨hmem, htouched⟩, hn⟩, rfl⟩
    exact ⟨f, hmem, htouched, n, hn, rfl⟩
  · rintro ⟨f, hmem, htouched, n, hn, rfl⟩
    exact ⟨n, ⟨f, ⟨hmem, htouched⟩, hn⟩, rfl⟩

/-- An id of a ledger entry is dropped exactly when its file is touched. -/
theorem mem_droppedIds_iff {f : Contribution} (hmem : f ∈ L) {id : NodeId}
    (hid : id ∈ f.2.nodes.map Node.id) :
    id ∈ (frontLink s source fx).droppedIds ↔ f.1 ∈ fx.changes.touched := by
  rw [mem_droppedIds hf hex hs]
  refine ⟨fun ⟨f', hmem', htouched, hid'⟩ => ?_, fun h => ⟨f, hmem, h, hid⟩⟩
  obtain ⟨n, hn, rfl⟩ := List.mem_map.mp hid
  obtain ⟨n', hn', heq⟩ := List.mem_map.mp hid'
  have hfile : f'.1 = f.1 := hex.ids (hs.ok.yields hmem') (hs.ok.yields hmem) hn' hn heq
  exact hfile ▸ htouched

variable (hno : ex.NoOverlay)
include hno

theorem survivingNodes_eq :
    fx.survivingNodes = nodes (L.filter fun f => f.1 ∉ fx.changes.touched) := by
  have hoverlay : ((overlayNodes s.workspace).filter fun n => !n.isProject) = [] :=
    List.filter_eq_nil_iff.mpr fun n hn h => by simp [(mem_overlayNodes hn).2.1] at h
  rw [hf.surviving, untouchedNodes_eq hex hs, List.filter_append, hoverlay, List.append_nil]
  refine List.filter_eq_self.mpr fun n hn => ?_
  rw [isProject_of_mem_nodes hno (ok_filter hs.ok _) hn]; rfl

theorem priorProjectNodes_eq : fx.priorProjectNodes = overlayNodes s.workspace := by
  have hsymbols : (nodes (L.filter fun f => f.1 ∉ fx.changes.touched)).filter Node.isProject = [] :=
    List.filter_eq_nil_iff.mpr fun n hn h => by
      rw [isProject_of_mem_nodes hno (ok_filter hs.ok _) hn] at h
      cases h
  rw [hf.overlay, untouchedNodes_eq hex hs, List.filter_append, hsymbols, List.nil_append]
  exact List.filter_eq_self.mpr fun n hn => (mem_overlayNodes hn).2.1

theorem allNodes_eq : (frontLink s source fx).allNodes
    = nodes (step fx.changes.touched files L) := by
  have hall : (frontLink s source fx).allNodes = fx.survivingNodes ++ fx.extracted.nodes := rfl
  rw [hall, survivingNodes_eq hf hex hs hno, hf.extracted, step, nodes_append]
  rfl

theorem idx_eq : (frontLink s source fx).idx
    = idx (step fx.changes.touched files L) fx.workspace := by
  have hidx : (frontLink s source fx).idx
      = buildLinkIndices (frontLink s source fx).allNodes fx.workspace := rfl
  rw [hidx, allNodes_eq hf hex hs hno, idx]

/-- The prior overlay's ids are the project ids of the prior workspace. -/
theorem mem_projectIds {id : NodeId} : id ∈ (frontLink s source fx).priorProjectNodeIds ↔
    id ∈ (overlayNodes s.workspace).map Node.id := by
  have hproj : (frontLink s source fx).priorProjectNodeIds
      = Canon.canon (fx.priorProjectNodes.map Node.id) := rfl
  rw [hproj, Canon.mem_canon, priorProjectNodes_eq hf hex hs hno]

/-- What removing by id keeps is what no touched file contributed. -/
theorem keptNodes_eq :
    (s.graph.nodes.filter fun n =>
        n.id ∉ (frontLink s source fx).droppedIds ++ fx.priorProjectNodes.map Node.id)
      = nodes (L.filter fun f => f.1 ∉ fx.changes.touched) := by
  have hproj := priorProjectNodes_eq hf hex hs hno
  have hoverlay : ((overlayNodes s.workspace).filter fun n =>
      n.id ∉ (frontLink s source fx).droppedIds ++ fx.priorProjectNodes.map Node.id) = [] := by
    refine List.filter_eq_nil_iff.mpr fun n hn => ?_
    have hid : n.id ∈ (overlayNodes s.workspace).map Node.id := List.mem_map_of_mem hn
    simp [hproj, hid]
  rw [hs.nodes, List.filter_append, hoverlay, List.append_nil]
  refine filter_nodes fun f hmem n hn => ?_
  have hdropped := mem_droppedIds_iff hf hex hs hmem (List.mem_map_of_mem hn)
  have hsymbol : n.id ∉ (overlayNodes s.workspace).map Node.id := fun h => by
    obtain ⟨m, hm, hid⟩ := List.mem_map.mp h
    obtain ⟨root, hroot⟩ := (mem_overlayNodes hm).2.2
    exact hno.ids (hs.ok.yields hmem) hn root (hid.symm.trans hroot)
  simp only [hproj, List.mem_append, hdropped, hsymbol, or_false]

/-- The merge's nodes: untouched entries, fresh extractions, the new overlay. -/
theorem mergeNodes_eq (es : EdgeStage) (partition : Partition) :
    (merge s (buildDelta s fx (frontLink s source fx) es partition)).graph.nodes
      = nodes (step fx.changes.touched files L) ++ overlayNodes fx.workspace := by
  have hmerge : (merge s (buildDelta s fx (frontLink s source fx) es partition)).graph.nodes
      = mergeNodes s.graph.nodes (fx.extracted.nodes ++ overlayNodes fx.workspace)
          ((frontLink s source fx).droppedIds ++ fx.priorProjectNodes.map Node.id) := rfl
  have hfresh : ∀ n ∈ fx.extracted.nodes ++ overlayNodes fx.workspace,
      n.id ∉ (nodes (L.filter fun f => f.1 ∉ fx.changes.touched)).map Node.id := by
    intro n hn hold
    obtain ⟨m, hm, hid⟩ := List.mem_map.mp hold
    obtain ⟨f, hmem, hm⟩ := mem_nodes.mp hm
    obtain ⟨hmem, hnot⟩ := List.mem_filter.mp hmem
    rcases List.mem_append.mp hn with hn | hn
    · rw [hf.extracted] at hn
      obtain ⟨f', hmem', hn⟩ := mem_nodes.mp hn
      have hfile : f.1 = f'.1 := hex.ids (hs.ok.yields hmem)
        ((ok_step hf hs.ok).yields (mem_step.mpr (Or.inr hmem'))) hm hn hid
      exact of_decide_eq_true hnot (hfile ▸ touched_of_mem_files hf hmem')
    · obtain ⟨root, hroot⟩ := (mem_overlayNodes hn).2.2
      exact hno.ids (hs.ok.yields hmem) hm root (hid.trans hroot)
  rw [hmerge, mergeNodes, keptNodes_eq hf hex hs hno, List.filter_eq_self.mpr fun n hn => decide_eq_true (hfresh n hn),
    hf.extracted, step, nodes_append, List.append_assoc]
  rfl

/-- The next state is listed by the next ledger. -/
theorem listed_step (es : EdgeStage) (partition : Partition) :
    Listed ex (step fx.changes.touched files L)
      (merge s (buildDelta s fx (frontLink s source fx) es partition)) where
  ok := ok_step hf hs.ok
  nodes := mergeNodes_eq hf hex hs hno es partition

end Front

end Ledger

end Filigrio
