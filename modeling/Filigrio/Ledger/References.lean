import Filigrio.Ledger.Run

/-!
# Filigrio.Ledger.References

References and edges stay in step. `Reflects` adds to `Listed` that the reverse
index and the export tables are the ledger's, and that the edges at reference
sites are the linked references, one each. An apply that links globally keeps it,
and under it the healing guard finds nothing to heal.
-/

namespace Filigrio

variable {C : Type}

/-! ### The link inputs of a state -/

namespace GraphState

variable (s : GraphState)

/-- The nodes of a state, its overlay left out. -/
def symbolNodes : List Node := s.graph.nodes.filter fun n => !n.isProject

def idx : LinkIndices := buildLinkIndices s.symbolNodes s.workspace

/-- The import scope of a state, with specifiers resolved in `source`. -/
def importScope (source : Source C) : ImportScope :=
  buildImportScope s.reverse.refs s.symbolNodes s.exports.byFile s.idx.fileOf
    (buildResolver source s.workspace)

def ctx (source : Source C) : LinkCtx where
  fileOf := s.idx.fileOf
  implOf := s.idx.implOf
  returnsOf := s.idx.returnsOf
  projectOf := s.idx.projectOf
  importScope := s.importScope source
  workspace := s.workspace

/-- What the link stage makes of a reference in this state. -/
def link (source : Source C) (nr : String × Reference) : Edge :=
  linkRef s.idx.candidates (s.ctx source) nr.1 nr.2

/-- The edges at reference sites. -/
def refEdges : List Edge := s.graph.edges.filter fun e => e.site ∈ refSites s.reverse.refs

end GraphState

theorem mem_refSites {refs : BTreeMap String (List Reference)} {site : Site} :
    site ∈ refSites refs ↔ ∃ nr ∈ BTreeMap.pairs refs, nr.2.site = site := List.mem_map

namespace Ledger

variable {st : Stages C} {ex : Extractor C} {L : Ledger} {s : GraphState} {changes : ChangeSet}
  {source prev : Source C} {fx : FrontExtract} {files : List Contribution}

/-! ### Which edges stand at reference sites -/

theorem source_mem_of_pairs (hex : ex.PerFile) (hL : Ok ex L) {nr : String × Reference}
    (h : nr ∈ BTreeMap.pairs (refs L)) :
    ∃ f ∈ L, nr ∈ f.2.refs ∧ nr.2.source ∈ f.2.nodes.map Node.id := by
  obtain ⟨f, hf, hnr⟩ := mem_pairs_refs.mp h
  exact ⟨f, hf, hnr, source_mem_of_refs hex (hL.yields hf) hnr⟩

/-- Structural edges stand at no reference site. -/
theorem structural_not_refSite (hex : ex.PerFile) (hunmixed : ex.Unmixed) (hL : Ok ex L) {e : Edge}
    (he : e ∈ structural L) : e.site ∉ refSites (refs L) := by
  intro hsite
  obtain ⟨f, hf, he, hnode⟩ := mem_structural.mp he
  obtain ⟨nr, hnr, hsite⟩ := mem_refSites.mp hsite
  obtain ⟨f', hf', hnr, hsource⟩ := source_mem_of_pairs hex hL hnr
  obtain ⟨n, hn, hid⟩ := List.mem_map.mp (hex.sources (hL.yields hf) he)
  obtain ⟨n', hn', hid'⟩ := List.mem_map.mp hsource
  have heq : nr.2.source = e.source := congrArg (fun site => (ofLex site).1) hsite
  have hfile : f'.1 = f.1 :=
    hex.ids (hL.yields hf') (hL.yields hf) hn' hn (hid'.trans (heq.trans hid.symm))
  obtain ⟨e', he', hsym, hsite', -⟩ := mem_refs hnr
  rw [hL.agree hf' hf hfile] at he'
  have hmixed := hunmixed (hL.yields hf) he' he (hsite'.trans hsite)
  rw [hsym, hnode] at hmixed
  cases hmixed

/-- Overlay edges start at project nodes. -/
theorem source_of_mem_overlay {ws : Workspace} {ns : List Node} {e : Edge}
    (he : e ∈ (projectOverlay ws ns).2) : ∃ root, e.source = pid root := by
  rcases List.mem_append.mp he with he | he
  · obtain ⟨rd, -, he⟩ := List.mem_flatMap.mp he
    obtain ⟨dep, -, rfl⟩ := List.mem_map.mp he
    exact ⟨rd.1, rfl⟩
  · obtain ⟨n, -, he⟩ := List.mem_filterMap.mp he
    unfold containsEdge at he
    split at he
    · obtain ⟨root, -, rfl⟩ := Option.map_eq_some_iff.mp he
      exact ⟨root, rfl⟩
    · cases he

/-- An edge of a project node stands at no reference site. -/
theorem pid_not_refSite (hex : ex.PerFile) (hno : ex.NoOverlay) (hL : Ok ex L) {e : Edge}
    {root : String} (he : e.source = pid root) : e.site ∉ refSites (refs L) := by
  intro hsite
  obtain ⟨nr, hnr, hsite⟩ := mem_refSites.mp hsite
  obtain ⟨f, hf, -, hsource⟩ := source_mem_of_pairs hex hL hnr
  obtain ⟨n, hn, hid⟩ := List.mem_map.mp hsource
  have heq : nr.2.source = e.source := congrArg (fun site => (ofLex site).1) hsite
  exact hno.ids (hL.yields hf) hn root (hid.trans (heq.trans he))

/-- A linked edge has both its endpoints among the ledger's nodes. -/
theorem link_present (hex : ex.PerFile) (hL : Ok ex L) {ws : Workspace} {nr : String × Reference}
    (hnr : nr ∈ BTreeMap.pairs (refs L)) {ids : List NodeId}
    (hids : ∀ id ∈ (nodes L).map Node.id, id ∈ ids) :
    (link L ws source nr).present ids = true := by
  obtain ⟨f, hf, -, hsource⟩ := source_mem_of_pairs hex hL hnr
  obtain ⟨n, hn, hid⟩ := List.mem_map.mp hsource
  have hsrc : (link L ws source nr).source ∈ ids := by
    refine hids _ (List.mem_map.mpr ⟨n, mem_nodes.mpr ⟨f, hf, hn⟩, ?_⟩)
    rw [link, linkRef_source, hid]
  have htarget : ∀ t, (link L ws source nr).target = .node t → t ∈ ids := fun t ht => by
    obtain ⟨m, hm, -, hid⟩ := link_target ht
    exact hids _ (List.mem_map.mpr ⟨m, hm, hid⟩)
  unfold Edge.present
  rw [decide_eq_true hsrc, Bool.true_and]
  split
  · rename_i t ht; exact decide_eq_true (htarget t ht)
  · rfl

/-! ### The invariant -/

/-- The state holds what its ledger says, its reference edges included; `source`
is the one the linked edges were resolved in. -/
structure Reflects (ex : Extractor C) (source : Source C) (L : Ledger) (s : GraphState) : Prop
    extends Listed ex L s where
  reverse : s.reverse.refs = refs L
  exports : s.exports.byFile = exports L
  present : ∀ e ∈ s.graph.edges, e.present (s.graph.nodes.map Node.id) = true
  linked : (s.refEdges : Multiset Edge) = linked L s.workspace source

theorem reflects_empty (ex : Extractor C) (source : Source C) :
    Reflects ex source [] GraphState.empty where
  toListed := listed_empty ex
  reverse := rfl
  exports := rfl
  present e he := by cases he
  linked := rfl

/-- Every edge of a state starts at one of its nodes. -/
theorem source_of_present {ids : List NodeId} {e : Edge} (h : e.present ids = true) :
    e.source ∈ ids := of_decide_eq_true (Bool.and_eq_true_iff.mp h).1

theorem symbolNodes_eq (hno : ex.NoOverlay) (hs : Listed ex L s) : s.symbolNodes = nodes L := by
  have hoverlay : ((overlayNodes s.workspace).filter fun n => !n.isProject) = [] :=
    List.filter_eq_nil_iff.mpr fun n hn h => by simp [(mem_overlayNodes hn).2.1] at h
  rw [GraphState.symbolNodes, hs.nodes, List.filter_append, hoverlay, List.append_nil]
  exact List.filter_eq_self.mpr fun n hn => by rw [isProject_of_mem_nodes hno hs.ok hn]; rfl

/-- A state links as its ledger does. -/
theorem state_link_eq (hno : ex.NoOverlay) (hs : Reflects ex prev L s) (source : Source C) :
    s.ctx source = ctx L s.workspace source ∧ s.link source = link L s.workspace source := by
  have hidx : s.idx = idx L s.workspace := by
    rw [GraphState.idx, symbolNodes_eq hno hs.toListed, idx]
  have hscope : s.importScope source = importScope L s.workspace source := by
    rw [GraphState.importScope, symbolNodes_eq hno hs.toListed, hidx, hs.reverse, hs.exports,
      importScope]
  have hctx : s.ctx source = ctx L s.workspace source := by
    rw [GraphState.ctx, hidx, hscope, ctx]
  refine ⟨hctx, funext fun nr => ?_⟩
  rw [GraphState.link, hctx, hidx, link]

/-- There are as many edges at a reference site as references. -/
theorem length_edges_at (hs : Reflects ex prev L s) {site : Site}
    (hsite : site ∈ refSites s.reverse.refs) :
    (s.graph.edges.filter fun e => e.site = site).length = refCount s.reverse.refs site := by
  have hat : (s.graph.edges.filter fun e => e.site = site)
      = s.refEdges.filter fun e => e.site = site := by
    rw [GraphState.refEdges, List.filter_filter]
    refine List.filter_congr fun e _ => ?_
    by_cases h : e.site = site
    · simp [h, hsite]
    · simp [h]
  have hperm : s.refEdges.Perm (linked L s.workspace prev) := Multiset.coe_eq_coe.mp hs.linked
  rw [hat, (hperm.filter _).length_eq, linked_eq, List.filter_map, List.length_map, ← hs.reverse,
    refCount]
  congr 2
  funext nr
  simp only [Function.comp_apply, link, linkRef_site]

/-- An edge at a reference site is the link of a reference. -/
theorem exists_link_eq (hs : Reflects ex source L s) (hno : ex.NoOverlay) {e : Edge}
    (he : e ∈ s.graph.edges) (hsite : e.site ∈ refSites s.reverse.refs) :
    ∃ nr ∈ BTreeMap.pairs s.reverse.refs, nr.2.site = e.site ∧ s.link source nr = e := by
  have hmem : e ∈ linked L s.workspace source := by
    rw [← Multiset.mem_coe, ← hs.linked, Multiset.mem_coe]
    exact List.mem_filter.mpr ⟨he, decide_eq_true hsite⟩
  obtain ⟨nr, hnr, rfl⟩ := List.mem_map.mp hmem
  refine ⟨nr, hs.reverse ▸ hnr, (linkRef_site ..).symm, ?_⟩
  rw [(state_link_eq hno hs source).2, link]

section Front

variable (hf : FrontOk st s changes source ex fx files) (hex : ex.PerFile)
  (hs : Reflects ex prev L s)
include hf hs

include hex in
/-- A reference of the ledger is kept exactly when its source is not dropped. -/
theorem rebuildRefs_eq :
    rebuildRefs s.reverse (frontLink s source fx).droppedIds fx.extracted.refs
      = refs (step fx.changes.touched files L) := by
  have hkept : ∀ f ∈ L, ∀ nr ∈ f.2.refs,
      nr.2.source ∈ (frontLink s source fx).droppedIds ↔ f.1 ∈ fx.changes.touched :=
    fun f hmem nr hnr => mem_droppedIds_iff hf hex hs.toListed hmem
      (source_mem_of_refs hex (hs.ok.yields hmem) hnr)
  refine BTreeMap.index_congr fun nr => ?_
  rw [hs.reverse, hf.extracted]
  simp only [List.mem_append, List.mem_filter, mem_pairs_refs, decide_eq_true_eq,
    Extracted.collect, List.mem_flatMap, mem_step]
  constructor
  · rintro (⟨⟨f, hmem, hnr⟩, hnot⟩ | ⟨f, hmem, hnr⟩)
    · exact ⟨f, Or.inl ⟨hmem, fun h => hnot ((hkept f hmem nr hnr).mpr h)⟩, hnr⟩
    · exact ⟨f, Or.inr hmem, hnr⟩
  · rintro ⟨f, ⟨hmem, hnot⟩ | hmem, hnr⟩
    · exact Or.inl ⟨⟨f, hmem, hnr⟩, fun h => hnot ((hkept f hmem nr hnr).mp h)⟩
    · exact Or.inr ⟨f, hmem, hnr⟩

theorem exportsByFile_eq :
    (frontLink s source fx).exportsByFile = Ledger.exports (step fx.changes.touched files L) := by
  have hmaintain : (frontLink s source fx).exportsByFile
      = maintainExports s.exports (Canon.canon fx.changes.touched) fx.extracted.exports := rfl
  have hfresh : fx.extracted.exports = Ledger.exports files := by rw [hf.extracted]; rfl
  refine BTreeMap.ext_get fun p => ?_
  rw [hmaintain, maintainExports, BTreeMap.get_insertAll_toList, BTreeMap.get_filter, hs.exports,
    hfresh, step, get_exports_append, get_exports_filter L (fun p => p ∉ fx.changes.touched)]
  simp only [Canon.mem_canon]

variable (hno : ex.NoOverlay)
include hex hno

/-- **Nothing to heal.** No site has more surviving edges than references. -/
theorem divergedSites_eq_nil :
    divergedSites (refs (step fx.changes.touched files L)) s (frontLink s source fx).droppedIds
      (frontLink s source fx).priorProjectNodeIds = [] := by
  refine List.filter_eq_nil_iff.mpr fun site hsite hlt => ?_
  obtain ⟨nr, hnr, rfl⟩ := List.mem_map.mp (Canon.mem_canon.mp hsite)
  rw [decide_eq_true_eq] at hlt
  refine absurd hlt (Nat.not_lt.mpr ?_)
  have hsource : ∀ e : Edge, e.site = nr.2.site → e.source = nr.2.source := fun e he =>
    congrArg (fun site => (ofLex site).1) he
  have hzero : ∀ (_ : ∀ e ∈ s.graph.edges, e.site = nr.2.site →
      e.source ∈ (frontLink s source fx).droppedIds),
      survivingEdgeCount s (frontLink s source fx).droppedIds
        (frontLink s source fx).priorProjectNodeIds nr.2.site = 0 := fun hall =>
    List.length_eq_zero_iff.mpr <| List.filter_eq_nil_iff.mpr fun e he hsurvives => by
      simp only [Bool.and_eq_true, Bool.not_eq_true', Bool.or_eq_false_iff, decide_eq_true_eq,
        decide_eq_false_iff_not] at hsurvives
      exact hsurvives.1.1 (hall e he hsurvives.2)
  by_cases hdropped : nr.2.source ∈ (frontLink s source fx).droppedIds
  · -- the source is retired, and every edge of the site with it
    rw [hzero fun e _ he => hsource e he ▸ hdropped]
    exact Nat.zero_le _
  · obtain ⟨f, hmem, hrefs⟩ := mem_pairs_refs.mp hnr
    rcases mem_step.mp hmem with ⟨hmem, huntouched⟩ | hmem
    · -- an untouched site: the prior edges are the prior references, all of them kept
      have hprior : nr.2.site ∈ refSites s.reverse.refs := by
        rw [hs.reverse]; exact mem_refSites.mpr ⟨nr, mem_pairs_refs.mpr ⟨f, hmem, hrefs⟩, rfl⟩
      calc survivingEdgeCount s (frontLink s source fx).droppedIds
            (frontLink s source fx).priorProjectNodeIds nr.2.site
          ≤ (s.graph.edges.filter fun e => e.site = nr.2.site).length := by
            refine List.Sublist.length_le ?_
            rw [← List.filter_filter]
            exact List.filter_sublist
        _ = refCount s.reverse.refs nr.2.site := length_edges_at hs hprior
        _ ≤ refCount (refs (step fx.changes.touched files L)) nr.2.site := by
            rw [hs.reverse]
            refine List.Subperm.length_le (List.subperm_of_subset
              ((BTreeMap.nodup_pairs_index _).filter _) fun nr' hnr' => ?_)
            obtain ⟨hmem', hsite'⟩ := List.mem_filter.mp hnr'
            obtain ⟨f', hf', hrefs'⟩ := mem_pairs_refs.mp hmem'
            refine List.mem_filter.mpr ⟨mem_pairs_refs.mpr ⟨f', mem_step.mpr (Or.inl ⟨hf', ?_⟩),
              hrefs'⟩, hsite'⟩
            intro htouched
            have hid := source_mem_of_refs hex (hs.ok.yields hf') hrefs'
            have heq : nr'.2.source = nr.2.source :=
              congrArg (fun site => (ofLex site).1) (of_decide_eq_true hsite')
            exact hdropped (heq ▸ (mem_droppedIds_iff hf hex hs.toListed hf' hid).mpr htouched)
    · -- a fresh id: no prior edge starts at it
      have hid := source_mem_of_refs hex ((ok_step hf hs.ok).yields (mem_step.mpr (Or.inr hmem))) hrefs
      rw [hzero fun e he hsite' => ?_]
      · exact Nat.zero_le _
      obtain ⟨n, hn, hn_id⟩ := List.mem_map.mp hid
      obtain ⟨m, hm, hm_id⟩ := List.mem_map.mp (source_of_present (hs.present e he))
      rw [hs.nodes] at hm
      rcases List.mem_append.mp hm with hm | hm
      · obtain ⟨f', hf', hm⟩ := mem_nodes.mp hm
        have hfile : f'.1 = f.1 := hex.ids (hs.ok.yields hf')
          ((ok_step hf hs.ok).yields (mem_step.mpr (Or.inr hmem))) hm hn
          (hm_id.trans ((hsource e hsite').trans hn_id.symm))
        exact (mem_droppedIds_iff hf hex hs.toListed hf'
          (hm_id ▸ List.mem_map_of_mem hm)).mpr (hfile ▸ touched_of_mem_files hf hmem)
      · obtain ⟨root, hroot⟩ := (mem_overlayNodes hm).2.2
        exact absurd (hn_id.trans ((hsource e hsite').symm.trans (hm_id.symm.trans hroot)))
          (hno.ids ((ok_step hf hs.ok).yields (mem_step.mpr (Or.inr hmem))) hn root)

theorem healed_eq : ((frontLink s source fx).refsByName, (frontLink s source fx).healedRefs)
    = (refs (step fx.changes.touched files L), []) := by
  rw [← frontLink_heal, rebuildRefs_eq hf hex hs, healDivergedRefs,
    divergedSites_eq_nil hf hex hs hno, List.flatMap_nil, List.foldl_nil]

theorem healedRefs_eq_nil : (frontLink s source fx).healedRefs = [] :=
  (Prod.mk.inj (healed_eq hf hex hs hno)).2

theorem refsByName_eq :
    (frontLink s source fx).refsByName = refs (step fx.changes.touched files L) :=
  (Prod.mk.inj (healed_eq hf hex hs hno)).1

theorem linkCtx_eq : linkCtx fx (frontLink s source fx)
    = ctx (step fx.changes.touched files L) fx.workspace source := by
  rw [linkCtx, frontLink_importScope, rebuildRefs_eq hf hex hs,
    allNodes_eq hf hex hs.toListed hno, exportsByFile_eq hf hs, idx_eq hf hex hs.toListed hno, ctx,
    importScope]

/-- Linking every reference of the apply links the next ledger. -/
theorem resolveAll_eq :
    resolveAll (frontLink s source fx).refsByName (frontLink s source fx).idx.candidates
        (linkCtx fx (frontLink s source fx))
      = linked (step fx.changes.touched files L) fx.workspace source := by
  rw [refsByName_eq hf hex hs hno, idx_eq hf hex hs.toListed hno, linkCtx_eq hf hex hs hno, linked]

/-- The merged state reflects the next ledger, as soon as what is carried at its
reference sites and what is linked again are together its linked references. -/
theorem reflects_step_of (hunmixed : ex.Unmixed) (scope : LinkScope) (partition : Partition)
    (hlink : (((edgeStage s fx (frontLink s source fx) scope).carried.filter fun e =>
          e.site ∈ refSites (refs (step fx.changes.touched files L)) : List Edge) : Multiset Edge)
        + (linkStage s fx (frontLink s source fx) scope).1
      = linked (step fx.changes.touched files L) fx.workspace source)
    (hsites : ∀ e ∈ (linkStage s fx (frontLink s source fx) scope).1,
      e.site ∈ refSites (refs (step fx.changes.touched files L))) :
    Reflects ex source (step fx.changes.touched files L)
      (merge s (buildDelta s fx (frontLink s source fx)
        (edgeStage s fx (frontLink s source fx) scope) partition)) := by
  have hok := ok_step hf hs.ok
  have hnodes := mergeNodes_eq hf hex hs.toListed hno
    (edgeStage s fx (frontLink s source fx) scope) partition
  have hreverse : (merge s (buildDelta s fx (frontLink s source fx)
      (edgeStage s fx (frontLink s source fx) scope) partition)).reverse.refs
        = refs (step fx.changes.touched files L) := by
    rw [← refsByName_eq hf hex hs hno]
    exact merge_reverse_eq (hs.reverse.trans rfl)
  refine
    { ok := hok
      nodes := hnodes
      reverse := hreverse
      exports := exportsByFile_eq hf hs
      present := fun e he => (List.mem_filter.mp he).2
      linked := ?_ }
  have hstructural : fx.extracted.structural.filter (fun e =>
      e.site ∈ refSites (refs (step fx.changes.touched files L))) = [] := by
    refine List.filter_eq_nil_iff.mpr fun e he hsite =>
      structural_not_refSite hex hunmixed hok ?_ (of_decide_eq_true hsite)
    rw [hf.extracted] at he
    rw [step, structural_append]
    exact List.mem_append_right _ he
  have hoverlay : (projectOverlay fx.workspace (frontLink s source fx).allNodes).2.filter (fun e =>
      e.site ∈ refSites (refs (step fx.changes.touched files L))) = [] :=
    List.filter_eq_nil_iff.mpr fun e he hsite => by
      obtain ⟨root, hroot⟩ := source_of_mem_overlay he
      exact pid_not_refSite hex hno hok hroot (of_decide_eq_true hsite)
  have hrelinked : (linkStage s fx (frontLink s source fx) scope).1.filter (fun e =>
      e.site ∈ refSites (refs (step fx.changes.touched files L)))
        = (linkStage s fx (frontLink s source fx) scope).1 :=
    List.filter_eq_self.mpr fun e he => decide_eq_true (hsites e he)
  -- at reference sites the world has the carried edges and the linked ones, all present
  have hworld : ((worldEdges s fx (frontLink s source fx) scope).filter fun e =>
      e.site ∈ refSites (refs (step fx.changes.touched files L))).Perm
        (linked (step fx.changes.touched files L) fx.workspace source) := by
    rw [← Multiset.coe_eq_coe, ← hlink, worldEdges, edgeStage]
    simp only [List.filter_append, hstructural, hoverlay, hrelinked, List.nil_append,
      List.append_nil, Multiset.coe_add]
  have hpresent : (linked (step fx.changes.touched files L) fx.workspace source).filter
      (Edge.present ((nodes (step fx.changes.touched files L)
        ++ overlayNodes fx.workspace).map Node.id))
        = linked (step fx.changes.touched files L) fx.workspace source := by
    refine List.filter_eq_self.mpr fun e he => ?_
    obtain ⟨nr, hnr, rfl⟩ := List.mem_map.mp he
    refine link_present hex hok hnr fun id hid => ?_
    rw [List.map_append]
    exact List.mem_append_left _ hid
  have hedges := Multiset.coe_eq_coe.mp
    (merge_edges s fx (frontLink s source fx) scope partition)
  rw [hnodes] at hedges
  refine Multiset.coe_eq_coe.mpr ?_
  rw [GraphState.refEdges, hreverse]
  refine (hedges.filter _).trans ?_
  rw [List.filter_comm]
  exact (hworld.filter _).trans (List.Perm.of_eq hpresent)

/-- A global apply re-links everything, and carries nothing at a reference site. -/
theorem reflects_step_global (hunmixed : ex.Unmixed) (partition : Partition) :
    Reflects ex source (step fx.changes.touched files L)
      (merge s (buildDelta s fx (frontLink s source fx)
        (edgeStage s fx (frontLink s source fx) .global) partition)) := by
  have hlinked : (linkStage s fx (frontLink s source fx) .global).1
      = linked (step fx.changes.touched files L) fx.workspace source := by
    rw [linkStage, resolveAll_eq hf hex hs hno]
  have hcarried : (edgeStage s fx (frontLink s source fx) .global).carried.filter (fun e =>
      e.site ∈ refSites (refs (step fx.changes.touched files L))) = [] := by
    refine List.filter_eq_nil_iff.mpr fun e he hsite => ?_
    rw [edgeStage_carried] at he
    have hkeep := (List.mem_filter.mp he).2
    rw [refsByName_eq hf hex hs hno] at hkeep
    simp [keepPriorEdge, linkStage, of_decide_eq_true hsite] at hkeep
  refine reflects_step_of hf hex hs hno hunmixed .global partition ?_ fun e he => ?_
  · rw [hcarried, hlinked, Multiset.coe_nil, Multiset.zero_add]
  · rw [hlinked] at he
    obtain ⟨nr, hnr, rfl⟩ := List.mem_map.mp he
    exact mem_refSites.mpr ⟨nr, hnr, (linkRef_site ..).symm⟩

end Front

/-- Every state reached by global applies reflects a ledger. -/
theorem exists_reflects (hex : ex.PerFile) (hno : ex.NoOverlay) (hunmixed : ex.Unmixed)
    (h : Reach st ex globalApply source s) : ∃ L, Reflects ex source L s := by
  induction h with
  | empty source => exact ⟨[], reflects_empty ex source⟩
  | @apply prev s a δ _ hglobal hrun ih =>
      obtain ⟨L, hs⟩ := ih
      obtain ⟨fx, partition, hfx, rfl⟩ := applyWith_ok hrun
      obtain ⟨files, hf⟩ := frontExtract_ok hfx
      have hscope : a.scope = .global := hglobal
      rw [hscope]
      exact ⟨_, reflects_step_global hf hex hs hno hunmixed partition⟩

end Ledger

/-! ### References and edges correspond -/

/-- The references and the edges of a state correspond, site by site. -/
structure SitesMatch (s : GraphState) (source : Source C) : Prop where
  counts : ∀ site ∈ refSites s.reverse.refs,
    refCount s.reverse.refs site = (s.graph.edges.filter fun e => e.site = site).length
  resolves : ∀ e ∈ s.graph.edges, e.site ∈ refSites s.reverse.refs →
    ∃ nr ∈ BTreeMap.pairs s.reverse.refs, nr.2.site = e.site ∧ s.link source nr = e

/-- **References and edges stay in one-to-one correspondence.** In every state
reached by global applies each reference site has as many edges as references,
each of them the resolution of one, and no next changeset finds anything to heal. -/
theorem references_match_edges {st : Stages C} {ex : Extractor C} {source : Source C}
    {s : GraphState} (hex : ex.PerFile) (hno : ex.NoOverlay) (hunmixed : ex.Unmixed)
    (h : Reach st ex globalApply source s) :
    SitesMatch s source ∧ ∀ changes source' fx, frontExtract st s changes source' ex = .ok fx →
      (frontLink s source' fx).healedRefs = [] := by
  obtain ⟨L, hs⟩ := Ledger.exists_reflects hex hno hunmixed h
  refine ⟨⟨fun site hsite => (Ledger.length_edges_at hs hsite).symm,
    fun e he hsite => Ledger.exists_link_eq hs hno he hsite⟩, fun changes source' fx hfx => ?_⟩
  obtain ⟨files, hf⟩ := frontExtract_ok hfx
  exact Ledger.healedRefs_eq_nil hf hex hs hno

/-! ### Sample runs -/

namespace Snippet

/-- Apply each changeset to its tree in turn, globally, and merge. -/
def runGlobal (ex : Extractor Snippet) :
    GraphState → List (ChangeSet × List (String × Snippet)) → Except Error GraphState
  | s, [] => pure s
  | s, (changes, tree) :: steps => do
    let δ ← Engine.apply stages s changes (source tree) ex
    runGlobal ex (merge s δ) steps

theorem reach_runGlobal {ex : Extractor Snippet} {steps : List (ChangeSet × List (String × Snippet))}
    {s s' : GraphState} {prev : Source Snippet} (hreach : Reach stages ex globalApply prev s)
    (h : runGlobal ex s steps = .ok s') : ∃ source, Reach stages ex globalApply source s' := by
  induction steps generalizing s prev with
  | nil => cases h; exact ⟨prev, hreach⟩
  | cons step steps ih =>
      obtain ⟨δ, hδ, h⟩ := bind_eq_ok.mp h
      exact ih (.apply (a := ⟨step.1, source step.2, .global, .inline⟩) hreach rfl hδ) h

/-- Is there a reference site whose edges are not as many as its references? -/
def mismatched (s : GraphState) : Bool :=
  (refSites s.reverse.refs).any fun site =>
    refCount s.reverse.refs site ≠ (s.graph.edges.filter fun e => e.site = site).length

end Snippet

/-- `references_match_edges` on a file that calls a definition of another. -/
theorem references_match_edges_sample :
    ∃ (source : Source Snippet) (s : GraphState), Snippet.runGlobal Snippet.extractor .empty
        [(.allAdded ["a.ts", "b.ts"], [("a.ts", .caller "f"), ("b.ts", .plain "f")])] = .ok s ∧
      SitesMatch s source := by
  have hok : (Snippet.runGlobal Snippet.extractor .empty
      [(.allAdded ["a.ts", "b.ts"], [("a.ts", .caller "f"), ("b.ts", .plain "f")])]).isOk = true := by
    decide +kernel
  cases hrun : Snippet.runGlobal Snippet.extractor .empty
      [(.allAdded ["a.ts", "b.ts"], [("a.ts", .caller "f"), ("b.ts", .plain "f")])] with
  | error e => rw [hrun] at hok; cases hok
  | ok s =>
      obtain ⟨source, hreach⟩ := Snippet.reach_runGlobal (.empty (Snippet.source [])) hrun
      exact ⟨source, s, rfl,
        (references_match_edges Snippet.perFile Snippet.noOverlay Snippet.unmixed hreach).1⟩

/-- An extractor with edge sources among the nodes of the file and no mixed site,
and a run of it that ends with a reference site short of an edge. -/
def BreaksSites (ex : Extractor Snippet) : Prop :=
  (∀ {p x e}, ex.Yields p x → e ∈ x.edges → e.source ∈ x.nodes.map Node.id) ∧ ex.Unmixed ∧
    ∃ source s, Reach Snippet.stages ex globalApply source s ∧ ¬ SitesMatch s source

theorem breaksSites_of_run {id : String → NodeId} {kind : String → String}
    (hid : ∀ p, id p ≠ Snippet.fileId p) (steps : List (ChangeSet × List (String × Snippet)))
    (h : (Snippet.runGlobal (Snippet.extractorWith id id kind) .empty steps).map Snippet.mismatched
      = .ok true) : BreaksSites (Snippet.extractorWith id id kind) := by
  refine ⟨fun hy he => Snippet.extracts.sourcesInside (fun _ => Or.inl rfl) hy he,
    Snippet.extracts.unmixed hid, ?_⟩
  cases hrun : Snippet.runGlobal (Snippet.extractorWith id id kind) .empty steps with
  | error e => rw [hrun] at h; cases h
  | ok s =>
      rw [hrun] at h
      obtain ⟨source, hreach⟩ := Snippet.reach_runGlobal (.empty (Snippet.source [])) hrun
      obtain ⟨site, hsite, hne⟩ := List.any_eq_true.mp (Except.ok.inj h)
      exact ⟨source, s, hreach, fun hmatch => of_decide_eq_true hne (hmatch.counts site hsite)⟩

/-- The id of a sample definition, the same in `a.ts` and `b.ts`. -/
def sharedId (p : String) : NodeId := if p = "c.ts" then ⟨"function:c"⟩ else ⟨"function:shared"⟩

/-- The correspondence needs file-local ids and an overlay of its own. When two
files share an id, removing one leaves the reference to the other without an edge;
a symbol node of the kind `project` loses its edges with the next apply. -/
theorem references_outnumber_edges :
    BreaksSites (Snippet.extractorWith sharedId sharedId fun _ => "function") ∧
      BreaksSites (Snippet.extractorWith Snippet.defId Snippet.defId fun _ => "project") := by
  refine ⟨breaksSites_of_run (fun p h => ?_)
      [(.allAdded ["a.ts", "b.ts", "c.ts"],
          [("a.ts", .plain "f"), ("b.ts", .plain "f"), ("c.ts", .caller "f")]),
        (⟨[], [], ["b.ts"]⟩, [("a.ts", .plain "f"), ("c.ts", .caller "f")])] (by decide +kernel),
    breaksSites_of_run (fun p => Snippet.defId_ne_fileId p p)
      [(.allAdded ["a.ts"], [("a.ts", .caller "f")]), (⟨[], [], []⟩, [("a.ts", .caller "f")])]
      (by decide +kernel)⟩
  have hval := congrArg (fun i => i.val.toList) h
  unfold sharedId Snippet.fileId at hval
  split at hval <;> simp [String.toList_append] at hval

end Filigrio
