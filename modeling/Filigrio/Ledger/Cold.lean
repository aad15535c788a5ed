import Filigrio.Ledger.Tree

/-!
# Filigrio.Ledger.Cold

Incremental equals cold. `Rebuilt` extends `Reflects` to the whole state: structural
and overlay edges, the symbol tables and the manifest keys are functions of the
ledger too. A ledger of a tree is determined up to order, and no facet depends on
that order, so two runs that end at the same tree end in the same state.
-/

namespace Filigrio

variable {C : Type}

namespace Ledger

variable {st : Stages C} {ex : Extractor C} {L : Ledger} {s : GraphState} {changes : ChangeSet}
  {source prev : Source C} {fx : FrontExtract} {files : List Contribution} {tree tree' : Tree C}

/-- The overlay edges whose endpoints exist. -/
def overlayEdges (L : Ledger) (ws : Workspace) : List Edge :=
  (projectOverlay ws (nodes L)).2.filter
    (Edge.present ((nodes L ++ overlayNodes ws).map Node.id))

/-- The whole state is the one its tree's ledger stands for. -/
structure Rebuilt (ex : Extractor C) (source : Source C) (tree : Tree C) (L : Ledger)
    (s : GraphState) : Prop extends Reflects ex source L s where
  of : Of ex tree L
  others : (s.graph.edges.filter fun e => e.site ∉ refSites s.reverse.refs).Perm
    (structural L ++ overlayEdges L s.workspace)
  symbols : s.symbols = symbolTable (idx L s.workspace).candidates
  symbolIndex : s.symbolIndex = buildSymbolIndex (idx L s.workspace)
  keys : ∀ p, p ∈ s.manifest.entries ↔ p ∈ tree

theorem rebuilt_empty (ex : Extractor C) (source : Source C) :
    Rebuilt ex source ∅ [] GraphState.empty where
  toReflects := reflects_empty ex source
  of := of_empty ex
  others := by decide
  symbols := by decide
  symbolIndex := by decide
  keys p := Iff.rfl

/-- Filtering structural edges by a property of their file filters the ledger. -/
theorem filter_structural {L : Ledger} {q : Edge → Bool} {p : Contribution → Bool}
    (h : ∀ f ∈ L, ∀ e ∈ f.2.structural, q e = p f) :
    (structural L).filter q = structural (L.filter p) := by
  induction L with
  | nil => rfl
  | cons f L ih =>
      have htail := ih fun f' hf' => h f' (List.mem_cons_of_mem _ hf')
      have hcons : ∀ L, structural (f :: L) = f.2.structural ++ structural L := fun L => by
        simp only [structural, Extracted.collect, List.flatMap_cons]
      rw [hcons, List.filter_append, htail, List.filter_cons]
      split
      · rename_i hp
        rw [List.filter_eq_self.mpr fun e he => (h f (by simp) e he).trans hp, hcons]
      · rename_i hp
        rw [List.filter_eq_nil_iff.mpr fun e he hq => hp ((h f (by simp) e he).symm.trans hq)]
        rfl

section Front

variable (hf : FrontOk st s changes source ex fx files) (hex : ex.PerFile) (hno : ex.NoOverlay)
  (hunmixed : ex.Unmixed) (hinside : ex.TargetsInside) (hs : Reflects ex prev L s)
include hf hex hs

/-- No prior reference edge leaves the reference sites and is still carried. -/
theorem refEdges_carried (e : Edge) (he : e ∈ s.refEdges)
    (hkeep : keepPriorEdge (refSites (refs (step fx.changes.touched files L))) none
      (frontLink s source fx).droppedIds (frontLink s source fx).priorProjectNodeIds e = true) :
    e.site ∈ refSites (refs (step fx.changes.touched files L)) := by
  obtain ⟨nr, hnr, hsite⟩ := mem_refSites.mp (of_decide_eq_true (List.mem_filter.mp he).2)
  rw [hs.reverse] at hnr
  obtain ⟨f, hmem, hrefs, hsource⟩ := source_mem_of_pairs hex hs.ok hnr
  have hsame : nr.2.source = e.source := congrArg (fun site => (ofLex site).1) hsite
  have huntouched : f.1 ∉ fx.changes.touched := fun h => by
    have hdropped := (mem_droppedIds_iff hf hex hs.toListed hmem hsource).mpr h
    simp [keepPriorEdge, hsame ▸ hdropped] at hkeep
  exact mem_refSites.mpr ⟨nr, mem_pairs_refs.mpr ⟨f, mem_step.mpr (Or.inl ⟨hmem, huntouched⟩),
    hrefs⟩, hsite⟩

include hno

/-- No prior overlay edge is carried. -/
theorem overlay_not_carried {impact : Option ImpactReport} {sites : List Site} (e : Edge)
    (he : e ∈ overlayEdges L s.workspace) :
    keepPriorEdge sites impact (frontLink s source fx).droppedIds
      (frontLink s source fx).priorProjectNodeIds e = false := by
  obtain ⟨hmem, hpresent⟩ := List.mem_filter.mp he
  obtain ⟨root, hroot⟩ := source_of_mem_overlay hmem
  obtain ⟨n, hn, hid⟩ := List.mem_map.mp (source_of_present hpresent)
  have hproject : e.source ∈ (frontLink s source fx).priorProjectNodeIds := by
    rw [mem_projectIds hf hex hs.toListed hno]
    rcases List.mem_append.mp hn with hn | hn
    · obtain ⟨f, hmem, hn⟩ := mem_nodes.mp hn
      exact absurd (hid.trans hroot) (hno.ids (hs.ok.yields hmem) hn root)
    · exact hid ▸ List.mem_map_of_mem hn
  simp [keepPriorEdge, hproject]

include hunmixed hinside

/-- A structural edge is carried, off the reference sites, exactly when its file is untouched. -/
theorem structural_carried (f : Contribution) (hmem : f ∈ L) (e : Edge) (he : e ∈ f.2.structural) :
    (keepPriorEdge (refSites (refs (step fx.changes.touched files L))) none
        (frontLink s source fx).droppedIds (frontLink s source fx).priorProjectNodeIds e
      && decide (e.site ∉ refSites (refs (step fx.changes.touched files L))))
        = decide (f.1 ∉ fx.changes.touched) := by
  obtain ⟨hedge, hnode⟩ := List.mem_filter.mp he
  have hy := hs.ok.yields hmem
  have hsource := mem_droppedIds_iff hf hex hs.toListed hmem (hex.sources hy hedge)
  have hproject : e.source ∉ (frontLink s source fx).priorProjectNodeIds := fun h => by
    rw [mem_projectIds hf hex hs.toListed hno] at h
    obtain ⟨n, hn, hid⟩ := List.mem_map.mp (hex.sources hy hedge)
    obtain ⟨m, hm, hid'⟩ := List.mem_map.mp h
    obtain ⟨root, hroot⟩ := (mem_overlayNodes hm).2.2
    exact hno.ids hy hn root (hid.trans (hid'.symm.trans hroot))
  by_cases htouched : f.1 ∈ fx.changes.touched
  · simp [keepPriorEdge, hsource.mpr htouched, htouched]
  · have hsite : e.site ∉ refSites (refs (step fx.changes.touched files L)) :=
      structural_not_refSite hex hunmixed (ok_step hf hs.ok)
        (mem_structural.mpr ⟨f, mem_step.mpr (Or.inl ⟨hmem, htouched⟩), hedge, hnode⟩)
    have htarget : ∀ t, e.target = .node t → t ∉ (frontLink s source fx).droppedIds :=
      fun t ht h => htouched
        ((mem_droppedIds_iff hf hex hs.toListed hmem (hinside hy hedge ht)).mp h)
    cases ht : e.target with
    | symbol r => simp [keepPriorEdge, hproject, hsource, htouched, hsite, ht]
    | node t => simp [keepPriorEdge, hproject, hsource, htouched, hsite, ht, htarget t ht]

/-- Off the reference sites, exactly the structural edges of untouched files are carried. -/
theorem carried_others
    (hothers : (s.graph.edges.filter fun e => e.site ∉ refSites s.reverse.refs).Perm
      (structural L ++ overlayEdges L s.workspace)) :
    ((edgeStage s fx (frontLink s source fx) .global).carried.filter fun e =>
        e.site ∉ refSites (refs (step fx.changes.touched files L))).Perm
      (structural (L.filter fun f => f.1 ∉ fx.changes.touched)) := by
  let q := fun e : Edge =>
    keepPriorEdge (refSites (refs (step fx.changes.touched files L))) none
        (frontLink s source fx).droppedIds (frontLink s source fx).priorProjectNodeIds e
      && decide (e.site ∉ refSites (refs (step fx.changes.touched files L)))
  have hcarried : (edgeStage s fx (frontLink s source fx) .global).carried.filter (fun e =>
      e.site ∉ refSites (refs (step fx.changes.touched files L))) = s.graph.edges.filter q := by
    rw [edgeStage_carried, List.filter_filter, refsByName_eq hf hex hs hno]
    exact List.filter_congr fun e _ => Bool.and_comm _ _
  have hsplit : s.graph.edges.Perm
      (s.refEdges ++ s.graph.edges.filter fun e => e.site ∉ refSites s.reverse.refs) := by
    have h := (List.filter_append_perm (fun e : Edge => decide (e.site ∈ refSites s.reverse.refs))
      s.graph.edges).symm
    simpa only [GraphState.refEdges, decide_not] using h
  have hrefs : s.refEdges.filter q = [] := List.filter_eq_nil_iff.mpr fun e he hq => by
    obtain ⟨hkeep, hsite⟩ := Bool.and_eq_true_iff.mp hq
    exact of_decide_eq_true hsite (refEdges_carried hf hex hs e he hkeep)
  have hoverlay : (overlayEdges L s.workspace).filter q = [] :=
    List.filter_eq_nil_iff.mpr fun e he hq => by
      have hkeep := (Bool.and_eq_true_iff.mp hq).1
      rw [overlay_not_carried hf hex hno hs e he] at hkeep
      cases hkeep
  have hstructural : (structural L).filter q
      = structural (L.filter fun f => f.1 ∉ fx.changes.touched) :=
    filter_structural fun f hmem e he =>
      structural_carried hf hex hno hunmixed hinside hs f hmem e he
  have hperm : (s.graph.edges.filter q).Perm
      ((structural L ++ overlayEdges L s.workspace).filter q) := by
    refine (hsplit.filter q).trans ?_
    rw [List.filter_append, hrefs, List.nil_append]
    exact hothers.filter q
  rw [List.filter_append, hoverlay, List.append_nil, hstructural] at hperm
  exact hcarried ▸ hperm

end Front

/-- Structural edges are never pruned. -/
theorem structural_present (hex : ex.PerFile) (hinside : ex.TargetsInside) (hL : Ok ex L)
    {ids : List NodeId} (hids : ∀ id ∈ (nodes L).map Node.id, id ∈ ids) {e : Edge}
    (he : e ∈ structural L) : e.present ids = true := by
  obtain ⟨f, hf, hedge, -⟩ := mem_structural.mp he
  have hmem : ∀ id ∈ f.2.nodes.map Node.id, id ∈ ids := fun id hid => by
    obtain ⟨n, hn, rfl⟩ := List.mem_map.mp hid
    exact hids _ (List.mem_map_of_mem (mem_nodes.mpr ⟨f, hf, hn⟩))
  have hsource := hmem _ (hex.sources (hL.yields hf) hedge)
  unfold Edge.present
  rw [decide_eq_true hsource, Bool.true_and]
  split
  · rename_i t ht; exact decide_eq_true (hmem _ (hinside (hL.yields hf) hedge ht))
  · rfl

/-- Off its reference sites, the world of a global apply has the structural edges of
the next ledger and the overlay. -/
theorem worldEdges_others (hf : FrontOk st s changes source ex fx files) (hex : ex.PerFile)
    (hno : ex.NoOverlay) (hunmixed : ex.Unmixed) (hinside : ex.TargetsInside)
    (hs : Reflects ex prev L s)
    (hothers : (s.graph.edges.filter fun e => e.site ∉ refSites s.reverse.refs).Perm
      (structural L ++ overlayEdges L s.workspace)) :
    ((worldEdges s fx (frontLink s source fx) .global).filter fun e =>
        e.site ∉ refSites (refs (step fx.changes.touched files L))).Perm
      (structural (step fx.changes.touched files L)
        ++ (projectOverlay fx.workspace (nodes (step fx.changes.touched files L))).2) := by
  have hok := ok_step hf hs.ok
  have hlinked : (linkStage s fx (frontLink s source fx) .global).1.filter (fun e =>
      e.site ∉ refSites (refs (step fx.changes.touched files L))) = [] := by
    rw [linkStage, resolveAll_eq hf hex hs hno]
    refine List.filter_eq_nil_iff.mpr fun e he hsite => ?_
    obtain ⟨nr, hnr, rfl⟩ := List.mem_map.mp he
    exact of_decide_eq_true hsite (mem_refSites.mpr ⟨nr, hnr, (linkRef_site ..).symm⟩)
  have hfresh : fx.extracted.structural.filter (fun e =>
      e.site ∉ refSites (refs (step fx.changes.touched files L))) = structural files := by
    rw [hf.extracted]
    refine List.filter_eq_self.mpr fun e he =>
      decide_eq_true (structural_not_refSite hex hunmixed hok ?_)
    rw [step, structural_append]
    exact List.mem_append_right _ he
  have hoverlay : (projectOverlay fx.workspace (frontLink s source fx).allNodes).2.filter (fun e =>
      e.site ∉ refSites (refs (step fx.changes.touched files L)))
        = (projectOverlay fx.workspace (nodes (step fx.changes.touched files L))).2 := by
    rw [allNodes_eq hf hex hs.toListed hno]
    refine List.filter_eq_self.mpr fun e he => decide_eq_true ?_
    obtain ⟨root, hroot⟩ := source_of_mem_overlay he
    exact pid_not_refSite hex hno hok hroot
  have hcarried := carried_others hf hex hno hunmixed hinside hs hothers
  have hgroups : worldEdges s fx (frontLink s source fx) .global
      = (edgeStage s fx (frontLink s source fx) .global).carried
        ++ (fx.extracted.structural ++ (linkStage s fx (frontLink s source fx) .global).1)
        ++ (projectOverlay fx.workspace (frontLink s source fx).allNodes).2 := rfl
  rw [hgroups, List.filter_append, List.filter_append, List.filter_append, hlinked, hfresh, hoverlay,
    List.append_nil, step, structural_append]
  exact (hcarried.append_right _).append_right _

/-- A global apply leaves the structural edges of its ledger and the overlay, off the
reference sites. -/
theorem others_step (hf : FrontOk st s changes source ex fx files) (hex : ex.PerFile)
    (hno : ex.NoOverlay) (hunmixed : ex.Unmixed) (hinside : ex.TargetsInside)
    (hs : Reflects ex prev L s)
    (hothers : (s.graph.edges.filter fun e => e.site ∉ refSites s.reverse.refs).Perm
      (structural L ++ overlayEdges L s.workspace)) (partition : Partition) :
    let s' := merge s (buildDelta s fx (frontLink s source fx)
      (edgeStage s fx (frontLink s source fx) .global) partition)
    (s'.graph.edges.filter fun e => e.site ∉ refSites s'.reverse.refs).Perm
      (structural (step fx.changes.touched files L)
        ++ overlayEdges (step fx.changes.touched files L) s'.workspace) := by
  intro s'
  have hok := ok_step hf hs.ok
  have hreflects := reflects_step_global hf hex hs hno hunmixed partition
  have hedges := Multiset.coe_eq_coe.mp
    (merge_edges s fx (frontLink s source fx) .global partition)
  have hpresent : (structural (step fx.changes.touched files L)).filter
      (Edge.present (s'.graph.nodes.map Node.id)) = structural (step fx.changes.touched files L) :=
    List.filter_eq_self.mpr fun e he => structural_present hex hinside hok (fun id hid => by
      rw [hreflects.nodes, List.map_append]
      exact List.mem_append_left _ hid) he
  have hworld := (worldEdges_others hf hex hno hunmixed hinside hs hothers).filter
    (Edge.present (s'.graph.nodes.map Node.id))
  rw [List.filter_append, hpresent, hreflects.nodes] at hworld
  rw [hreflects.reverse]
  refine (hedges.filter _).trans ?_
  rw [List.filter_comm, hreflects.nodes]
  exact hworld

/-- The whole state keeps to its ledger through a global apply. -/
theorem rebuilt_step (hex : ex.PerFile) (hno : ex.NoOverlay) (hunmixed : ex.Unmixed)
    (hinside : ex.TargetsInside) (hs : Rebuilt ex prev tree L s) (hnames : Names changes tree tree')
    (hindexes : Indexes source changes tree')
    (hfx : frontExtract st s changes source ex = .ok fx) (partition : Partition) :
    ∃ L', Rebuilt ex source tree' L' (merge s (buildDelta s fx (frontLink s source fx)
      (edgeStage s fx (frontLink s source fx) .global) partition)) := by
  obtain ⟨files, hf⟩ := frontExtract_ok hfx
  have hreflects := reflects_step_global hf hex hs.toReflects hno hunmixed partition
  have hidx := idx_eq hf hex hs.toListed hno
  refine ⟨step fx.changes.touched files L,
    { toReflects := hreflects
      of := of_step hf hnames hindexes hs.of
      others := ?_
      symbols := ?_
      symbolIndex := ?_
      keys := fun p => ?_ }⟩
  · exact others_step hf hex hno hunmixed hinside hs.toReflects hs.others partition
  · show symbolTable (frontLink s source fx).idx.candidates = _
    rw [hidx]; rfl
  · show buildSymbolIndex (frontLink s source fx).idx = _
    rw [hidx]; rfl
  · -- an existing path was listed or is indexed now, a missing one was unlisted or is removed
    have hentries : p ∈ (maintainManifest s.manifest fx.changes).entries ↔ p ∈ tree' := by
      have htree : p ∈ tree' ↔ tree'[p]?.isSome = true := Std.ExtTreeMap.mem_iff_isSome_getElem?
      rw [mem_maintainManifest, hf.changes, toIndex_foldVanished, removed_foldVanished,
        List.mem_append, List.mem_filter, List.mem_filter, hs.keys, htree,
        Std.ExtTreeMap.mem_iff_isSome_getElem?]
      by_cases htouched : p ∈ changes.touched
      · by_cases h : p ∈ changes.toIndex
        · rw [hindexes.exists p h]
          by_cases hsome : tree'[p]?.isSome = true
          · have hkept : p ∉ changes.removed := fun h' => by
              rw [hnames.removed p h'] at hsome; cases hsome
            simp [h, hsome, hkept]
          · simp [h, hsome]
        · have hremoved := (ChangeSet.mem_touched.mp htouched).resolve_left h
          simp [h, hremoved, hnames.removed p hremoved]
      · have hsame : tree[p]? = tree'[p]? := by
          by_contra h; exact htouched (hnames.changed p h)
        rw [ChangeSet.mem_touched, not_or] at htouched
        simp [htouched, hsame]
    exact hentries

/-- Every state of a tree run is rebuilt from the ledger of its tree. -/
theorem exists_rebuilt (hex : ex.PerFile) (hno : ex.NoOverlay) (hunmixed : ex.Unmixed)
    (hinside : ex.TargetsInside) (h : TreeRun st ex source tree s) :
    ∃ L, Rebuilt ex source tree L s := by
  induction h with
  | empty source => exact ⟨[], rebuilt_empty ex source⟩
  | apply _ hnames hholds happly ih =>
      obtain ⟨L, hs⟩ := ih
      obtain ⟨fx, partition, hfx, rfl⟩ := applyWith_ok happly
      exact rebuilt_step hex hno hunmixed hinside hs hnames (hholds.indexes _) hfx partition

end Ledger

/-! ### History independence -/

/-- Equality of states up to order: nodes as a set, edges as a multiset, the linked
indices outright, the manifest by its keys. -/
structure SameWorld (s s' : GraphState) : Prop where
  nodes : ∀ n, n ∈ s.graph.nodes ↔ n ∈ s'.graph.nodes
  edges : (s.graph.edges : Multiset Edge) = s'.graph.edges
  reverse : s.reverse = s'.reverse
  exports : s.exports = s'.exports
  symbols : s.symbols = s'.symbols
  symbolIndex : s.symbolIndex = s'.symbolIndex
  keys : ∀ p, p ∈ s.manifest.entries ↔ p ∈ s'.manifest.entries

namespace Ledger

variable {ex : Extractor C} {L L' : Ledger} {s s' : GraphState} {source : Source C}
  {tree tree' : Tree C}

theorem overlayEdges_perm (hperm : L.Perm L') (ws : Workspace) :
    (overlayEdges L ws).Perm (overlayEdges L' ws) := by
  have hnodes : (nodes L).Perm (nodes L') := hperm.flatMap_right _
  have hpresent : Edge.present ((nodes L ++ overlayNodes ws).map Node.id)
      = Edge.present ((nodes L' ++ overlayNodes ws).map Node.id) := by
    funext e
    have hids : ∀ id, id ∈ (nodes L ++ overlayNodes ws).map Node.id ↔
        id ∈ (nodes L' ++ overlayNodes ws).map Node.id := fun id =>
      ((hnodes.append_right _).map _).mem_iff
    simp only [Edge.present, hids]
  rw [overlayEdges, overlayEdges, hpresent]
  exact ((hnodes.filterMap _).append_left _).filter _

/-- Two states of one ledger up to order, in one workspace and linked alike, have the
same nodes and edges. -/
theorem sameGraph_of_rebuilt (hex : ex.PerFile) (h : Rebuilt ex source tree L s)
    (h' : Rebuilt ex source tree' L' s') (hperm : L.Perm L') (hws : s.workspace = s'.workspace) :
    (∀ n, n ∈ s.graph.nodes ↔ n ∈ s'.graph.nodes) ∧
      (s.graph.edges : Multiset Edge) = s'.graph.edges := by
  have hmem : ∀ f, f ∈ L ↔ f ∈ L' := fun f => hperm.mem_iff
  constructor
  · intro n
    rw [h.nodes, h'.nodes, List.mem_append, List.mem_append, mem_nodes_congr hmem, hws]
  · have hsplit : ∀ t : GraphState, (t.graph.edges : Multiset Edge) = t.refEdges
        + (t.graph.edges.filter fun e => e.site ∉ refSites t.reverse.refs : List Edge) := fun t => by
      rw [Multiset.coe_add, Multiset.coe_eq_coe, GraphState.refEdges]
      have hp := (List.filter_append_perm
        (fun e : Edge => decide (e.site ∈ refSites t.reverse.refs)) t.graph.edges).symm
      simpa only [decide_not] using hp
    have hstructural : (structural L).Perm (structural L') := hperm.flatMap_right _
    have hothers : (structural L ++ overlayEdges L s.workspace).Perm
        (structural L' ++ overlayEdges L' s'.workspace) :=
      hstructural.append (hws ▸ overlayEdges_perm hperm _)
    rw [hsplit s, hsplit s', h.linked, h'.linked, hws, linked_congr hex h.ok hmem,
      Multiset.coe_eq_coe.mpr (h.others.trans (hothers.trans h'.others.symm))]

/-- Two states rebuilt from one tree, in one workspace, are the same. -/
theorem sameWorld_of_rebuilt (hex : ex.PerFile) (h : Rebuilt ex source tree L s)
    (h' : Rebuilt ex source tree L' s') (hws : s.workspace = s'.workspace) : SameWorld s s' := by
  have hperm := of_perm h.of h'.of fun _ _ => rfl
  obtain ⟨hnodes, hedges⟩ := sameGraph_of_rebuilt hex h h' hperm hws
  have hmem : ∀ f, f ∈ L ↔ f ∈ L' := fun f => hperm.mem_iff
  have hrefs : s.reverse.refs = s'.reverse.refs := by
    rw [h.reverse, h'.reverse, refs_congr hmem]
  exact
    { nodes := hnodes
      edges := hedges
      reverse := congrArg ReverseIndex.mk hrefs
      exports := congrArg ExportIndex.mk
        (by rw [h.exports, h'.exports, exports_congr h.ok hmem])
      symbols := by rw [h.symbols, h'.symbols, hws, idx_congr hex h.ok hmem]
      symbolIndex := by rw [h.symbolIndex, h'.symbolIndex, hws, idx_congr hex h.ok hmem]
      keys := fun p => (h.keys p).trans (h'.keys p).symm }

end Ledger

/-- **Incremental equals cold.** A run of global applies that ends at a tree ends in
the state of one cold apply of that tree, as soon as it ends in its workspace. -/
theorem incremental_eq_cold {st : Stages C} {ex : Extractor C} {source : Source C} {tree : Tree C}
    {s : GraphState} {timing : ClusterTiming} {δ : GraphDelta} (hex : ex.PerFile)
    (hno : ex.NoOverlay) (hunmixed : ex.Unmixed) (hinside : ex.TargetsInside)
    (hrun : TreeRun st ex source tree s) (hholds : Holds source tree)
    (hcold : Engine.applyWith st .empty (coldChanges tree) source ex .global timing = .ok δ)
    (hws : s.workspace = (merge .empty δ).workspace) : SameWorld s (merge .empty δ) := by
  obtain ⟨L, h⟩ := Ledger.exists_rebuilt hex hno hunmixed hinside hrun
  obtain ⟨L', h'⟩ := Ledger.exists_rebuilt hex hno hunmixed hinside
    (TreeRun.apply (.empty source) (names_coldChanges tree) hholds hcold)
  exact Ledger.sameWorld_of_rebuilt hex h h' hws

/-! ### Sample trees -/

namespace Snippet

/-- One file, with one reference. -/
def single (r : String × String × List (String × String)) : List (String × Snippet) :=
  [("a.ts", ⟨"main", [], [r], []⟩)]

/-- Apply nothing to a cold build: is a node or a reference gone or new? -/
def idleDiffers (ex : Extractor Snippet) (files : List (String × Snippet)) : Except Error Bool := do
  let cold ← Engine.apply stages .empty (coldChanges (tree files)) (source files) ex
  let idle ← Engine.apply stages (merge .empty cold) ⟨[], [], []⟩ (source files) ex
  pure (decide ((merge (merge .empty cold) idle).workspace = (merge .empty cold).workspace)
    && ((merge .empty cold).graph.nodes.any (· ∉ (merge (merge .empty cold) idle).graph.nodes)
      || decide ((merge (merge .empty cold) idle).reverse ≠ (merge .empty cold).reverse)))

end Snippet

/-- `incremental_eq_cold` on a call whose definition is added later. -/
theorem incremental_eq_cold_sample : ∃ (s : GraphState) (δ : GraphDelta),
    Snippet.runGlobal Snippet.extractor .empty
        [(coldChanges (Snippet.tree (Snippet.single (calls, "f", []))),
            Snippet.single (calls, "f", [])),
          (⟨["b.ts"], [], []⟩, Snippet.single (calls, "f", []) ++ [("b.ts", .plain "f")])] = .ok s ∧
      Engine.apply Snippet.stages .empty
          (coldChanges (Snippet.tree (Snippet.single (calls, "f", []) ++ [("b.ts", .plain "f")])))
          (Snippet.source (Snippet.single (calls, "f", []) ++ [("b.ts", .plain "f")]))
          Snippet.extractor = .ok δ ∧
      SameWorld s (merge .empty δ) := by
  have hok : ((Snippet.runGlobal Snippet.extractor .empty
        [(coldChanges (Snippet.tree (Snippet.single (calls, "f", []))),
            Snippet.single (calls, "f", [])),
          (⟨["b.ts"], [], []⟩, Snippet.single (calls, "f", []) ++ [("b.ts", .plain "f")])]) >>=
      fun s => (Engine.apply Snippet.stages .empty
          (coldChanges (Snippet.tree (Snippet.single (calls, "f", []) ++ [("b.ts", .plain "f")])))
          (Snippet.source (Snippet.single (calls, "f", []) ++ [("b.ts", .plain "f")]))
          Snippet.extractor) >>=
        fun δ => pure (decide (s.workspace = (merge .empty δ).workspace))) = .ok true := by
    decide +kernel
  obtain ⟨s, hrun, hok⟩ := bind_eq_ok.mp hok
  obtain ⟨δ, hcold, hws⟩ := bind_eq_ok.mp hok
  refine ⟨s, δ, hrun, hcold, incremental_eq_cold Snippet.perFile Snippet.noOverlay Snippet.unmixed
    Snippet.targetsInside ?_ (Snippet.holds_source _) hcold (of_decide_eq_true (Except.ok.inj hws))⟩
  obtain ⟨first, hfirst, hrun⟩ := bind_eq_ok.mp hrun
  obtain ⟨second, hsecond, hrun⟩ := bind_eq_ok.mp hrun
  cases hrun
  exact .apply (.apply (.empty (Snippet.source [])) (names_coldChanges _) (Snippet.holds_source _)
    hfirst) (Snippet.names_add _ _ _) (Snippet.holds_source _) hsecond

/-- A well-behaved extractor by the letter (ids unique and file-local, sources and
structural targets inside the file) with a run that differs from its cold build. -/
def BreaksCold (ex : Extractor Snippet) : Prop :=
  ex.PerFile ∧ ex.UniqueIds ∧ ex.TargetsInside ∧ ∃ source tree s δ,
    TreeRun Snippet.stages ex source tree s ∧ Holds source tree ∧
    Engine.applyWith Snippet.stages .empty (coldChanges tree) source ex .global .inline = .ok δ ∧
    s.workspace = (merge .empty δ).workspace ∧ ¬ SameWorld s (merge .empty δ)

theorem breaksCold_of_idle {src : String → NodeId} {kind : String → String}
    (hsrc : ∀ p, src p = Snippet.defId p ∨ src p = Snippet.fileId p)
    (files : List (String × Snippet))
    (h : Snippet.idleDiffers (Snippet.extractorWith Snippet.defId src kind) files = .ok true) :
    BreaksCold (Snippet.extractorWith Snippet.defId src kind) := by
  obtain ⟨cold, hcold, h⟩ := bind_eq_ok.mp h
  obtain ⟨idle, hidle, h⟩ := bind_eq_ok.mp h
  obtain ⟨hws, hdiffers⟩ := Bool.and_eq_true_iff.mp (Except.ok.inj h)
  refine ⟨Snippet.extracts.perFile hsrc, Snippet.extracts.uniqueIds,
    Snippet.extracts.targetsInside, Snippet.source files,
    Snippet.tree files, merge (merge .empty cold) idle, cold,
    .apply (.apply (.empty (Snippet.source files)) (names_coldChanges _) (Snippet.holds_source _)
      hcold) (Snippet.names_nothing _) (Snippet.holds_source _) hidle,
    Snippet.holds_source _, hcold, of_decide_eq_true hws, fun hsame => ?_⟩
  rcases (Bool.or_eq_true_iff ..).mp hdiffers with hnode | hreverse
  · obtain ⟨n, hn, hgone⟩ := List.any_eq_true.mp hnode
    exact of_decide_eq_true hgone ((hsame.nodes n).mpr hn)
  · exact of_decide_eq_true hreverse hsame.reverse

/-- Incremental does not equal cold when a site carries a structural and a symbolic
edge (the next apply takes the structural edge for an unclaimed reference), nor when
a symbol node has the kind `project` (the next apply drops it with the overlay). -/
theorem incremental_ne_cold :
    BreaksCold (Snippet.extractorWith Snippet.defId Snippet.fileId fun _ => "function") ∧
      BreaksCold (Snippet.extractorWith Snippet.defId Snippet.defId fun _ => "project") :=
  ⟨breaksCold_of_idle (fun _ => Or.inr rfl) (Snippet.single (contains, "g", []))
      (by decide +kernel),
    breaksCold_of_idle (fun _ => Or.inl rfl) (Snippet.single (calls, "g", []))
      (by decide +kernel)⟩

end Filigrio
