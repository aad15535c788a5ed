import Filigrio.Ledger.Cold

/-!
# Filigrio.Ledger.Scoped

Scoped against global linking. The scoped apply carries the edges of every site
outside the impact set; that is right exactly as long as those references would be
linked as before. `Settled` says when the impact set can be trusted: the names a
reference left alone is looked up under are not defined or removed, and they have
the import bindings of before, none of them into a touched file.
-/

namespace Filigrio

variable {C : Type}

/-- The labels an apply defines or removes. -/
def FrontExtract.dirty (fx : FrontExtract) : List String :=
  dirtyNames fx.droppedNodes fx.extracted.nodes

/-- The impact set leaves the reference alone. -/
def LeftAlone (s : GraphState) (fx : FrontExtract) (nr : String × Reference) : Prop :=
  refImpacted fx.dirty (Canon.canon fx.changes.touched) s.workspace s.idx.fileOf nr.1 nr.2 = false

/-- The names of a reference are settled: none of them is dirty, and each is bound by
the imports as it was, to a node that is not dropped. -/
def Settled (s : GraphState) (prev source : Source C) (fx : FrontExtract)
    (nr : String × Reference) : Prop :=
  ∀ nm ∈ lookedUp s.idx.candidates s.workspace nr.1, nm ∉ fx.dirty ∧
    importedDef (linkCtx fx (frontLink s source fx)) nr.2.source nm
      = importedDef (s.ctx prev) nr.2.source nm ∧
    ∀ d, importedDef (s.ctx prev) nr.2.source nm = some d → d ∉ fx.droppedNodes.map Node.id

/-- The workspace or an export table changes, or every reference left alone is settled. -/
def ScopedSafe (s : GraphState) (prev source : Source C) (fx : FrontExtract) : Prop :=
  fullImpact (Canon.canon fx.changes.touched) s.exports (frontLink s source fx).exportsByFile
      s.workspace fx.workspace = true ∨
    ∀ nr ∈ BTreeMap.pairs s.reverse.refs, LeftAlone s fx nr → Settled s prev source fx nr

/-- The condition on the applies of a run: global, or safe to scope. -/
def safeApply (st : Stages C) (ex : Extractor C) (prev : Source C) (s : GraphState)
    (a : ApplyStep C) : Prop :=
  a.scope = .global ∨
    ∀ fx, frontExtract st s a.changes a.source ex = .ok fx → ScopedSafe s prev a.source fx

namespace Ledger

variable {st : Stages C} {ex : Extractor C} {L : Ledger} {s : GraphState} {changes : ChangeSet}
  {source prev : Source C} {fx : FrontExtract} {files : List Contribution}

/-- A site is impacted when one of its references is. -/
theorem siteImpacted_iff {droppedNodes newNodes : List Node}
    {refsByName : BTreeMap String (List Reference)} {touched : List String}
    {priorExports : ExportIndex} {exportsByFile : BTreeMap String (List Export)}
    {priorWs ws : Workspace} {fileOf : BTreeMap NodeId (Option String)}
    (hfull : fullImpact touched priorExports exportsByFile priorWs ws = false)
    {source : NodeId} {relation : String} :
    (computeImpact droppedNodes newNodes refsByName touched priorExports exportsByFile priorWs ws
        fileOf).siteImpacted source relation = true ↔
      ∃ nr ∈ BTreeMap.pairs refsByName, nr.2.source = source ∧ nr.2.relation = relation ∧
        refImpacted (dirtyNames droppedNodes newNodes) touched ws fileOf nr.1 nr.2 = true := by
  let l := ((BTreeMap.pairs refsByName).filter fun nr =>
    refImpacted (dirtyNames droppedNodes newNodes) touched ws fileOf nr.1 nr.2).map fun nr =>
      (nr.2.source, nr.2.relation)
  have hsites : (computeImpact droppedNodes newNodes refsByName touched priorExports exportsByFile
      priorWs ws fileOf).siteImpacted source relation
        = ((BTreeMap.index l)[source]?).any fun rels => rels.contains relation := by
    simp only [ImpactReport.siteImpacted, computeImpact, hfull, Bool.false_or, Bool.false_eq_true,
      if_false]
    rfl
  have hlist : (((BTreeMap.index l)[source]?).any fun rels => rels.contains relation) = true ↔
      (source, relation) ∈ l := by
    rw [← BTreeMap.mem_pairs_index (l := l), BTreeMap.mem_pairs, BTreeMap.list]
    cases (BTreeMap.index l)[source]? <;> simp
  rw [hsites, hlist]
  simp only [l, List.mem_map, List.mem_filter, Prod.mk.injEq]
  constructor
  · rintro ⟨nr, ⟨hmem, himpacted⟩, rfl, rfl⟩
    exact ⟨nr, hmem, rfl, rfl, himpacted⟩
  · rintro ⟨nr, hmem, rfl, rfl, himpacted⟩
    exact ⟨nr, ⟨hmem, himpacted⟩, rfl, rfl⟩

/-- Under a full impact every site is impacted. -/
theorem full_of_impact (hfull : fullImpact (Canon.canon fx.changes.touched) s.exports
    (frontLink s source fx).exportsByFile s.workspace fx.workspace = true) (source' : NodeId)
    (relation : String) :
    (impactOf s fx (frontLink s source fx)).siteImpacted source' relation = true := by
  have himpact : (impactOf s fx (frontLink s source fx)).full
      = fullImpact (Canon.canon fx.changes.touched) s.exports
        (frontLink s source fx).exportsByFile s.workspace fx.workspace := rfl
  rw [ImpactReport.siteImpacted, himpact, hfull, Bool.true_or]

/-- Short of a full impact the workspace is unchanged. -/
theorem workspace_of_not_full (hfull : fullImpact (Canon.canon fx.changes.touched) s.exports
    (frontLink s source fx).exportsByFile s.workspace fx.workspace = false) :
    fx.workspace = s.workspace := by
  have h := (Bool.or_eq_false_iff.mp hfull).1
  simpa using h

section Front

variable (hf : FrontOk st s changes source ex fx files) (hex : ex.PerFile) (hno : ex.NoOverlay)
  (hs : Reflects ex prev L s)
include hf hex hs

/-- The candidates of a clean name are the ones of before. -/
theorem candidates_clean {nm : String} (hclean : nm ∉ fx.dirty) :
    (buildCandidates (nodes L))[nm]?
      = (buildCandidates (nodes (step fx.changes.touched files L)))[nm]? := by
  have hdirty : ∀ n, n ∈ fx.droppedNodes ∨ n ∈ fx.extracted.nodes → isLinkable n = true →
      n.label ∈ fx.dirty := fun n hn hlink => by
    rw [FrontExtract.dirty, dirtyNames, Canon.mem_canon]
    exact List.mem_map_of_mem (List.mem_filter.mpr ⟨List.mem_append.mpr hn, hlink⟩)
  refine BTreeMap.get_index_congr fun id => ?_
  simp only [List.mem_map, List.mem_filter, Prod.mk.injEq, mem_nodes, mem_step]
  constructor
  · rintro ⟨n, ⟨⟨f, hmem, hn⟩, hlink⟩, rfl, rfl⟩
    refine ⟨n, ⟨⟨f, Or.inl ⟨hmem, fun htouched => hclean (hdirty n (Or.inl ?_) hlink)⟩, hn⟩,
      hlink⟩, rfl, rfl⟩
    rw [droppedNodes_eq hf hex hs.toListed]
    exact mem_nodes.mpr ⟨f, List.mem_filter.mpr ⟨hmem, decide_eq_true htouched⟩, hn⟩
  · rintro ⟨n, ⟨⟨f, ⟨hmem, -⟩ | hmem, hn⟩, hlink⟩, rfl, rfl⟩
    · exact ⟨n, ⟨⟨f, hmem, hn⟩, hlink⟩, rfl, rfl⟩
    · refine absurd (hdirty n (Or.inr ?_) hlink) hclean
      rw [hf.extracted]
      exact mem_nodes.mpr ⟨f, hmem, hn⟩

/-- A candidate of a clean name belongs to an untouched file. -/
theorem candidate_untouched {nm : String} (hclean : nm ∉ fx.dirty) {id : NodeId}
    (hid : id ∈ BTreeMap.list (buildCandidates (nodes L)) nm) :
    ∃ f ∈ L, f.1 ∉ fx.changes.touched ∧ id ∈ f.2.nodes.map Node.id := by
  rw [BTreeMap.list, candidates_clean hf hex hs hclean, ← BTreeMap.list] at hid
  obtain ⟨n, hn, hlink, rfl, rfl⟩ := mem_candidates.mp hid
  obtain ⟨f, hmem, hn⟩ := mem_nodes.mp hn
  rcases mem_step.mp hmem with ⟨hmem, huntouched⟩ | hmem
  · exact ⟨f, hmem, huntouched, List.mem_map_of_mem hn⟩
  · refine absurd ?_ hclean
    rw [FrontExtract.dirty, dirtyNames, Canon.mem_canon, hf.extracted]
    exact List.mem_map_of_mem (List.mem_filter.mpr
      ⟨List.mem_append_right _ (mem_nodes.mpr ⟨f, hmem, hn⟩), hlink⟩)

/-- Both ledgers know the same about a node of an untouched file. -/
theorem sameAttrs_untouched {ws : Workspace} {f : Contribution} (hmem : f ∈ L)
    (huntouched : f.1 ∉ fx.changes.touched) {id : NodeId} (hid : id ∈ f.2.nodes.map Node.id) :
    SameAttrs (ctx L ws prev) (ctx (step fx.changes.touched files L) ws source) id := by
  have hmem' : f ∈ step fx.changes.touched files L := mem_step.mpr (Or.inl ⟨hmem, huntouched⟩)
  have hlookup : ∀ g, lookup (indexBy g (nodes L)) id
      = lookup (indexBy g (nodes (step fx.changes.touched files L))) id := fun g => by
    rw [lookup, lookup, get_indexBy_nodes hex hs.ok g hmem hid,
      get_indexBy_nodes hex (ok_step hf hs.ok) g hmem' hid]
  exact ⟨hlookup _, hlookup _, hlookup _, hlookup _⟩

omit hf in
/-- A reference left alone belongs to an untouched file. -/
theorem leftAlone_untouched (hno : ex.NoOverlay) {nr : String × Reference}
    (hnr : nr ∈ BTreeMap.pairs (refs L)) (halone : LeftAlone s fx nr) :
    ∃ f ∈ L, f.1 ∉ fx.changes.touched ∧ nr.2.source ∈ f.2.nodes.map Node.id ∧ nr ∈ f.2.refs := by
  obtain ⟨f, hmem, hrefs, hsource⟩ := source_mem_of_pairs hex hs.ok hnr
  refine ⟨f, hmem, fun htouched => ?_, hsource, hrefs⟩
  have hfile : lookup s.idx.fileOf nr.2.source = some f.1 := by
    rw [GraphState.idx, symbolNodes_eq hno hs.toListed]
    exact lookup_sourceFile hex hs.ok hmem hsource
  simp [LeftAlone, refImpacted, hfile] at halone
  exact halone.1.2 htouched

include hno

/-- **A settled reference is linked as before**, to a node that is not dropped. -/
theorem link_settled (hws : fx.workspace = s.workspace) {nr : String × Reference}
    (hnr : nr ∈ BTreeMap.pairs (refs L)) (halone : LeftAlone s fx nr)
    (hsettled : Settled s prev source fx nr) :
    link (step fx.changes.touched files L) fx.workspace source nr = link L s.workspace prev nr ∧
      ∀ t, (link L s.workspace prev nr).target = .node t →
        t ∉ (frontLink s source fx).droppedIds := by
  have hctx := (state_link_eq hno hs prev).1
  have hidx : s.idx = idx L s.workspace := by
    rw [GraphState.idx, symbolNodes_eq hno hs.toListed, idx]
  have hctx' : linkCtx fx (frontLink s source fx)
      = ctx (step fx.changes.touched files L) s.workspace source := by
    rw [linkCtx_eq hf hex hs hno, hws]
  unfold Settled at hsettled
  rw [hctx, hctx', hidx] at hsettled
  have hcallee : ∀ callee, nr.2.recvReturns = some callee → callee ∉ fx.dirty := by
    intro callee hr hmem
    simp [LeftAlone, refImpacted, hr, hmem] at halone
  obtain ⟨f, hmem, huntouched, hsource, -⟩ := leftAlone_untouched hex hs hno hnr halone
  have hattrs : ∀ nm, nm ∉ fx.dirty → ∀ id ∈ BTreeMap.list (idx L s.workspace).candidates nm,
      SameAttrs (ctx L s.workspace prev)
        (ctx (step fx.changes.touched files L) s.workspace source) id := fun nm hnm id hid => by
    obtain ⟨f, hmem, huntouched, hid⟩ := candidate_untouched hf hex hs hnm hid
    exact sameAttrs_untouched hf hex hs hmem huntouched hid
  refine ⟨?_, fun t ht hdropped => ?_⟩
  · rw [hws]
    symm
    exact linkRef_congr rfl
      (fun nm hnm => candidates_clean hf hex hs (hsettled nm hnm).1)
      (fun nm hnm => ((hsettled nm hnm).2.1).symm)
      (fun callee hr => candidates_clean hf hex hs (hcallee callee hr))
      (sameAttrs_untouched hf hex hs hmem huntouched hsource)
      (fun nm hnm => hattrs nm (hsettled nm hnm).1)
      (fun callee hr => hattrs callee (hcallee callee hr))
  · obtain ⟨nm, hnm, himport | ⟨hcand, -⟩⟩ := linkRef_node ht
    · refine (hsettled nm hnm).2.2 t himport ?_
      have hids : (frontLink s source fx).droppedIds = Canon.canon (fx.droppedNodes.map Node.id) :=
        rfl
      rwa [hids, Canon.mem_canon] at hdropped
    · obtain ⟨f, hmem, huntouched, hid⟩ := candidate_untouched hf hex hs (hsettled nm hnm).1 hcand
      exact huntouched ((mem_droppedIds_iff hf hex hs.toListed hmem hid).mp hdropped)

/-! ### The carried edges -/

/-- A reference whose site is not impacted is a prior one that is left alone. -/
theorem leftAlone_of_not_impacted (hfull : fullImpact (Canon.canon fx.changes.touched) s.exports
    (frontLink s source fx).exportsByFile s.workspace fx.workspace = false)
    {nr : String × Reference}
    (hnr : nr ∈ BTreeMap.pairs (refs (step fx.changes.touched files L)))
    (hsite : (impactOf s fx (frontLink s source fx)).siteImpacted nr.2.source nr.2.relation
      = false) :
    nr ∈ BTreeMap.pairs (refs L) ∧ LeftAlone s fx nr := by
  have hws := workspace_of_not_full hfull
  have hclean : refImpacted fx.dirty (Canon.canon fx.changes.touched) fx.workspace
      (frontLink s source fx).idx.fileOf nr.1 nr.2 = false := by
    by_contra himpacted
    have hmem : nr ∈ BTreeMap.pairs (frontLink s source fx).refsByName := by
      rwa [refsByName_eq hf hex hs hno]
    have h := (siteImpacted_iff hfull).mpr
      ⟨nr, hmem, rfl, rfl, Bool.not_eq_false _ ▸ himpacted⟩
    exact absurd h (by rw [Bool.not_eq_true]; exact hsite)
  obtain ⟨f, hmem, hrefs, hsource⟩ := source_mem_of_pairs hex (ok_step hf hs.ok) hnr
  have hfile' : lookup (frontLink s source fx).idx.fileOf nr.2.source = some f.1 := by
    rw [idx_eq hf hex hs.toListed hno]
    exact lookup_sourceFile hex (ok_step hf hs.ok) hmem hsource
  have huntouched : f.1 ∉ fx.changes.touched := fun htouched => by
    simp [refImpacted, hfile'] at hclean
    exact hclean.1.2 htouched
  rcases mem_step.mp hmem with ⟨hmem, -⟩ | hmem
  · have hfile : lookup s.idx.fileOf nr.2.source = some f.1 := by
      rw [GraphState.idx, symbolNodes_eq hno hs.toListed]
      exact lookup_sourceFile hex hs.ok hmem hsource
    refine ⟨mem_pairs_refs.mpr ⟨f, hmem, hrefs⟩, ?_⟩
    rw [refImpacted, hfile', hws] at hclean
    rw [LeftAlone, refImpacted, hfile]
    exact hclean
  · exact absurd (touched_of_mem_files hf hmem) huntouched

/-- The carried test on the old link of a reference, at the next reference sites. -/
theorem keep_link_iff (hfull : fullImpact (Canon.canon fx.changes.touched) s.exports
    (frontLink s source fx).exportsByFile s.workspace fx.workspace = false)
    (hsettled : ∀ nr ∈ BTreeMap.pairs s.reverse.refs, LeftAlone s fx nr →
      Settled s prev source fx nr)
    {nr : String × Reference} (hnr : nr ∈ BTreeMap.pairs (refs L)) :
    (keepPriorEdge (refSites (refs (step fx.changes.touched files L)))
          (some (impactOf s fx (frontLink s source fx))) (frontLink s source fx).droppedIds
          (frontLink s source fx).priorProjectNodeIds (link L s.workspace prev nr) = true ∧
        nr.2.site ∈ refSites (refs (step fx.changes.touched files L))) ↔
      nr ∈ BTreeMap.pairs (refs (step fx.changes.touched files L)) ∧
        (impactOf s fx (frontLink s source fx)).siteImpacted nr.2.source nr.2.relation = false := by
  have hsite : (link L s.workspace prev nr).site = nr.2.site := linkRef_site ..
  have hsource : (link L s.workspace prev nr).source = nr.2.source := linkRef_source ..
  have hrelation : (link L s.workspace prev nr).relation = nr.2.relation := linkRef_relation ..
  obtain ⟨f, hmem, hrefs, hid⟩ := source_mem_of_pairs hex hs.ok hnr
  constructor
  · rintro ⟨hkeep, hsites⟩
    have himpact : (impactOf s fx (frontLink s source fx)).siteImpacted nr.2.source nr.2.relation
        = false := by
      simp only [keepPriorEdge, Bool.and_eq_true, Bool.not_eq_true', Bool.and_eq_false_iff,
        hsite, hsource, hrelation, Option.all_some, decide_eq_false_iff_not] at hkeep
      exact hkeep.2.resolve_left fun h => h hsites
    refine ⟨?_, himpact⟩
    -- another reference of the site survives, so the file of the source is untouched
    obtain ⟨nr', hnr', hsame⟩ := mem_refSites.mp hsites
    have hkey := Prod.mk.inj (toLex.injective hsame)
    obtain ⟨hold, halone⟩ := leftAlone_of_not_impacted hf hex hno hs hfull hnr'
      (by rw [hkey.1, hkey.2]; exact himpact)
    obtain ⟨f', hmem', huntouched, hid', -⟩ := leftAlone_untouched hex hs hno hold halone
    obtain ⟨n, hn, hn_id⟩ := List.mem_map.mp hid
    obtain ⟨n', hn', hn_id'⟩ := List.mem_map.mp hid'
    have hfile : f.1 = f'.1 := hex.ids (hs.ok.yields hmem) (hs.ok.yields hmem') hn hn'
      (hn_id.trans (hkey.1.symm.trans hn_id'.symm))
    exact mem_pairs_refs.mpr ⟨f, mem_step.mpr (Or.inl ⟨hmem, hfile ▸ huntouched⟩), hrefs⟩
  · rintro ⟨hnr', himpact⟩
    obtain ⟨-, halone⟩ := leftAlone_of_not_impacted hf hex hno hs hfull hnr' himpact
    obtain ⟨f', hmem', huntouched, hid', -⟩ := leftAlone_untouched hex hs hno hnr halone
    have hdropped : nr.2.source ∉ (frontLink s source fx).droppedIds := fun h =>
      huntouched ((mem_droppedIds_iff hf hex hs.toListed hmem' hid').mp h)
    have hproject : nr.2.source ∉ (frontLink s source fx).priorProjectNodeIds := fun h => by
      rw [mem_projectIds hf hex hs.toListed hno] at h
      obtain ⟨n, hn, hn_id⟩ := List.mem_map.mp hid
      obtain ⟨m, hm, hm_id⟩ := List.mem_map.mp h
      obtain ⟨root, hroot⟩ := (mem_overlayNodes hm).2.2
      exact hno.ids (hs.ok.yields hmem) hn root (hn_id.trans (hm_id.symm.trans hroot))
    have htarget := (link_settled hf hex hno hs (workspace_of_not_full hfull) hnr halone
      (hsettled nr (hs.reverse ▸ hnr) halone)).2
    refine ⟨?_, mem_refSites.mpr ⟨nr, hnr', rfl⟩⟩
    unfold keepPriorEdge
    rw [hsource, hrelation]
    cases ht : (link L s.workspace prev nr).target with
    | symbol r => simp [hdropped, hproject, himpact]
    | node t => simp [hdropped, hproject, himpact, htarget t ht]

/-- The reference edges a scoped apply carries are those of the next references whose
site is not impacted. -/
theorem carried_scoped (hsafe : ScopedSafe s prev source fx) :
    ((edgeStage s fx (frontLink s source fx) .scoped).carried.filter fun e =>
        e.site ∈ refSites (refs (step fx.changes.touched files L))).Perm
      (((BTreeMap.pairs (refs (step fx.changes.touched files L))).filter fun nr =>
        !(impactOf s fx (frontLink s source fx)).siteImpacted nr.2.source nr.2.relation).map
          (link (step fx.changes.touched files L) fx.workspace source)) := by
  let keep := keepPriorEdge (refSites (refs (step fx.changes.touched files L)))
    (some (impactOf s fx (frontLink s source fx))) (frontLink s source fx).droppedIds
    (frontLink s source fx).priorProjectNodeIds
  let q := fun e : Edge =>
    keep e && decide (e.site ∈ refSites (refs (step fx.changes.touched files L)))
  have hcarried : (edgeStage s fx (frontLink s source fx) .scoped).carried.filter (fun e =>
      e.site ∈ refSites (refs (step fx.changes.touched files L))) = s.graph.edges.filter q := by
    rw [edgeStage_carried, List.filter_filter, refsByName_eq hf hex hs hno]
    exact List.filter_congr fun e _ => Bool.and_comm _ _
  rw [hcarried]
  by_cases hfull : fullImpact (Canon.canon fx.changes.touched) s.exports
      (frontLink s source fx).exportsByFile s.workspace fx.workspace = true
  · -- everything is impacted: nothing is carried, nothing is expected
    have himpact := full_of_impact hfull
    have hnone : s.graph.edges.filter q = [] := List.filter_eq_nil_iff.mpr fun e _ hq => by
      obtain ⟨hkeep, hsite⟩ := Bool.and_eq_true_iff.mp hq
      simp [keep, keepPriorEdge, of_decide_eq_true hsite, himpact] at hkeep
    rw [hnone]
    simp [himpact]
  · rw [Bool.not_eq_true] at hfull
    have hsettled := hsafe.resolve_left (by rw [hfull]; decide)
    have hws := workspace_of_not_full hfull
    -- the carried edges are prior reference edges, hence old links
    have hrefEdges : s.graph.edges.filter q = s.refEdges.filter q := by
      rw [GraphState.refEdges, List.filter_filter]
      refine List.filter_congr fun e _ => ?_
      by_cases hq : q e = true
      · obtain ⟨hkeep, hsite⟩ := Bool.and_eq_true_iff.mp hq
        obtain ⟨nr, hnr, hsame⟩ := mem_refSites.mp (of_decide_eq_true hsite)
        have hkey := Prod.mk.inj (toLex.injective hsame)
        have himpact : (impactOf s fx (frontLink s source fx)).siteImpacted nr.2.source
            nr.2.relation = false := by
          simp only [keep, keepPriorEdge, Bool.and_eq_true, Bool.not_eq_true',
            Bool.and_eq_false_iff, Option.all_some, decide_eq_false_iff_not] at hkeep
          rw [hkey.1, hkey.2]
          exact hkeep.2.resolve_left fun h => h (of_decide_eq_true hsite)
        obtain ⟨hold, -⟩ := leftAlone_of_not_impacted hf hex hno hs hfull hnr himpact
        have hprior : e.site ∈ refSites s.reverse.refs := by
          rw [hs.reverse]; exact mem_refSites.mpr ⟨nr, hold, hsame⟩
        simp [hq, hprior]
      · simp [Bool.not_eq_true _ ▸ hq]
    have hlinks : s.refEdges.Perm ((BTreeMap.pairs (refs L)).map (link L s.workspace prev)) :=
      Multiset.coe_eq_coe.mp hs.linked
    have hkept : ∀ nr ∈ BTreeMap.pairs (refs L), (q ∘ link L s.workspace prev) nr
        = (decide (nr ∈ BTreeMap.pairs (refs (step fx.changes.touched files L))) &&
          !(impactOf s fx (frontLink s source fx)).siteImpacted nr.2.source nr.2.relation) := by
      intro nr hnr
      rw [Bool.eq_iff_iff]
      simp only [q, keep, Function.comp_apply, Bool.and_eq_true, decide_eq_true_eq,
        Bool.not_eq_true']
      have hsite : (link L s.workspace prev nr).site = nr.2.site := linkRef_site ..
      rw [hsite]
      exact keep_link_iff hf hex hno hs hfull hsettled hnr
    rw [hrefEdges]
    refine (hlinks.filter q).trans ?_
    rw [List.filter_map, List.filter_congr hkept]
    have hpairs : ((BTreeMap.pairs (refs L)).filter fun nr =>
        decide (nr ∈ BTreeMap.pairs (refs (step fx.changes.touched files L))) &&
          !(impactOf s fx (frontLink s source fx)).siteImpacted nr.2.source nr.2.relation).Perm
        ((BTreeMap.pairs (refs (step fx.changes.touched files L))).filter fun nr =>
          !(impactOf s fx (frontLink s source fx)).siteImpacted nr.2.source nr.2.relation) := by
      refine (List.perm_ext_iff_of_nodup ((BTreeMap.nodup_pairs_index _).filter _)
        ((BTreeMap.nodup_pairs_index _).filter _)).mpr fun nr => ?_
      simp only [List.mem_filter, Bool.and_eq_true, decide_eq_true_eq, Bool.not_eq_true']
      constructor
      · intro h
        exact h.2
      · intro h
        exact ⟨(leftAlone_of_not_impacted hf hex hno hs hfull h.1 h.2).1, h⟩
    refine (hpairs.map _).trans (List.Perm.of_eq (List.map_congr_left fun nr hnr => ?_))
    obtain ⟨hnr, himpact⟩ := List.mem_filter.mp hnr
    obtain ⟨hold, halone⟩ := leftAlone_of_not_impacted hf hex hno hs hfull hnr (by simpa using himpact)
    exact (link_settled hf hex hno hs hws hold halone
      (hsettled nr (hs.reverse ▸ hold) halone)).1.symm

/-- What a scoped apply links again: the references of the impacted sites. -/
theorem linkStage_scoped :
    (linkStage s fx (frontLink s source fx) .scoped).1
      = ((BTreeMap.pairs (refs (step fx.changes.touched files L))).filter fun nr =>
          (impactOf s fx (frontLink s source fx)).siteImpacted nr.2.source nr.2.relation).map
            (link (step fx.changes.touched files L) fx.workspace source) := by
  simp only [linkStage]
  rw [resolveImpacted, refsByName_eq hf hex hs hno, idx_eq hf hex hs.toListed hno,
    linkCtx_eq hf hex hs hno]
  rfl

/-- Carried and re-linked together are all the links of the next ledger. -/
theorem links_scoped (hsafe : ScopedSafe s prev source fx) :
    (((edgeStage s fx (frontLink s source fx) .scoped).carried.filter fun e =>
          e.site ∈ refSites (refs (step fx.changes.touched files L))) ++
        (linkStage s fx (frontLink s source fx) .scoped).1).Perm
      (linked (step fx.changes.touched files L) fx.workspace source) := by
  rw [linkStage_scoped hf hex hno hs]
  refine ((carried_scoped hf hex hno hs hsafe).append_right _).trans ?_
  rw [← List.map_append, linked_eq]
  refine (List.perm_append_comm.trans ?_).map _
  exact List.filter_append_perm _ _

/-- A safe scoped apply keeps the state to its ledger. -/
theorem reflects_step_scoped (hunmixed : ex.Unmixed) (hsafe : ScopedSafe s prev source fx)
    (partition : Partition) :
    Reflects ex source (step fx.changes.touched files L)
      (merge s (buildDelta s fx (frontLink s source fx)
        (edgeStage s fx (frontLink s source fx) .scoped) partition)) := by
  refine reflects_step_of hf hex hs hno hunmixed .scoped partition ?_ fun e he => ?_
  · rw [Multiset.coe_add, Multiset.coe_eq_coe]
    exact links_scoped hf hex hno hs hsafe
  · rw [linkStage_scoped hf hex hno hs] at he
    obtain ⟨nr, hnr, rfl⟩ := List.mem_map.mp he
    exact mem_refSites.mpr ⟨nr, (List.mem_filter.mp hnr).1, (linkRef_site ..).symm⟩

/-- **The two scopes compute one world.** -/
theorem worldEdges_scoped (hsafe : ScopedSafe s prev source fx) :
    (worldEdges s fx (frontLink s source fx) .scoped).Perm
      (worldEdges s fx (frontLink s source fx) .global) := by
  let atRef := fun e : Edge => decide (e.site ∈ refSites (refs (step fx.changes.touched files L)))
  have hsplit : ∀ l : List Edge, l.Perm (l.filter atRef ++ l.filter fun e => !atRef e) :=
    fun l => (List.filter_append_perm atRef l).symm
  -- off the reference sites both scopes carry the same edges
  have hothers : (edgeStage s fx (frontLink s source fx) .scoped).carried.filter (fun e => !atRef e)
      = (edgeStage s fx (frontLink s source fx) .global).carried.filter fun e => !atRef e := by
    rw [edgeStage_carried, edgeStage_carried, List.filter_filter, List.filter_filter,
      refsByName_eq hf hex hs hno]
    refine List.filter_congr fun e _ => ?_
    by_cases h : e.site ∈ refSites (refs (step fx.changes.touched files L))
    · simp [atRef, h]
    · simp [keepPriorEdge, h]
  have hglobal : (edgeStage s fx (frontLink s source fx) .global).carried.filter atRef = [] := by
    refine List.filter_eq_nil_iff.mpr fun e he hsite => ?_
    rw [edgeStage_carried, refsByName_eq hf hex hs hno] at he
    have hkeep := (List.mem_filter.mp he).2
    simp [keepPriorEdge, linkStage, of_decide_eq_true hsite] at hkeep
  have hlinked : (linkStage s fx (frontLink s source fx) .global).1
      = linked (step fx.changes.touched files L) fx.workspace source := by
    rw [linkStage, resolveAll_eq hf hex hs hno]
  have hlinks : ((edgeStage s fx (frontLink s source fx) .scoped).carried.filter atRef
      ++ (linkStage s fx (frontLink s source fx) .scoped).1).Perm
      (linkStage s fx (frontLink s source fx) .global).1 := by
    rw [hlinked]
    exact links_scoped hf hex hno hs hsafe
  have hworld : ∀ scope, worldEdges s fx (frontLink s source fx) scope
      = (edgeStage s fx (frontLink s source fx) scope).carried
        ++ (fx.extracted.structural ++ (linkStage s fx (frontLink s source fx) scope).1)
        ++ (projectOverlay fx.workspace (frontLink s source fx).allNodes).2 := fun _ => rfl
  rw [hworld, hworld]
  refine List.Perm.append_right _ ?_
  have hg := hsplit (edgeStage s fx (frontLink s source fx) .global).carried
  have hs' := hsplit (edgeStage s fx (frontLink s source fx) .scoped).carried
  rw [hglobal, List.nil_append] at hg
  rw [hothers] at hs'
  rw [← Multiset.coe_eq_coe] at hg hs' hlinks ⊢
  simp only [← Multiset.coe_add] at hg hs' hlinks ⊢
  rw [hg, hs', ← hlinks]
  ext e
  simp only [Multiset.count_add]
  omega

end Front

/-- Every state of a run whose scoped applies are safe reflects a ledger. -/
theorem exists_reflects_safe (hex : ex.PerFile) (hno : ex.NoOverlay) (hunmixed : ex.Unmixed)
    (h : Reach st ex (safeApply st ex) source s) : ∃ L, Reflects ex source L s := by
  induction h with
  | empty source => exact ⟨[], reflects_empty ex source⟩
  | @apply prev s a δ _ hsafe hrun ih =>
      obtain ⟨L, hs⟩ := ih
      obtain ⟨fx, partition, hfx, rfl⟩ := applyWith_ok hrun
      obtain ⟨files, hf⟩ := frontExtract_ok hfx
      rcases hsafe with hglobal | hscoped
      · rw [hglobal]
        exact ⟨_, reflects_step_global hf hex hs hno hunmixed partition⟩
      · cases hscope : a.scope with
        | global => exact ⟨_, reflects_step_global hf hex hs hno hunmixed partition⟩
        | «scoped» =>
            exact ⟨_, reflects_step_scoped hf hex hno hs hunmixed (hscoped fx hfx) partition⟩

end Ledger

/-! ### The delta of either scope -/

/-- Two deltas onto `s` with the same nodes, edges and references, up to the order
of the edges. -/
structure DeltasAgree (s : GraphState) (δ δ' : GraphDelta) : Prop where
  nodesAdded : δ.nodesAdded = δ'.nodesAdded
  nodesRemoved : δ.nodesRemoved = δ'.nodesRemoved
  edgesAdded : δ.edgesAdded.Perm δ'.edgesAdded
  edgesRemoved : δ.edgesRemoved.Perm δ'.edgesRemoved
  reverseDropped : δ.reverseDropped = δ'.reverseDropped
  reverseAdded : δ.reverseAdded = δ'.reverseAdded
  nodes : (merge s δ).graph.nodes = (merge s δ').graph.nodes
  edges : (merge s δ).graph.edges.Perm (merge s δ').graph.edges
  reverse : (merge s δ).reverse = (merge s δ').reverse

/-- The emitted patch is the difference of the next edges and the prior ones,
wherever the line between carried and retired edges is drawn. -/
theorem diffEdges_eq_sub {prior carried retired : List Edge} (emitted : List Edge)
    (hprior : (prior : Multiset Edge) = carried + retired) :
    ((diffEdges retired emitted).1 : Multiset Edge) = (carried ++ emitted : List Edge) - prior ∧
      ((diffEdges retired emitted).2 : Multiset Edge)
        = (prior : Multiset Edge) - (carried ++ emitted : List Edge) := by
  have hdiff : ((diffEdges retired emitted).1 : Multiset Edge) = (emitted : Multiset Edge) - retired ∧
      ((diffEdges retired emitted).2 : Multiset Edge) = (retired : Multiset Edge) - emitted := by
    unfold diffEdges
    split
    · rename_i hnil
      subst hnil
      exact ⟨(Multiset.sub_zero _).symm, (Multiset.zero_sub _).symm⟩
    · exact ⟨Patch.diff_added _ _, Patch.diff_removed _ _⟩
  rw [hdiff.1, hdiff.2, hprior, ← Multiset.coe_add]
  constructor
  · ext e
    simp only [Multiset.count_sub, Multiset.count_add]
    omega
  · ext e
    simp only [Multiset.count_sub, Multiset.count_add]
    omega

/-- Deltas of one apply whose worlds have the same edges agree. -/
theorem deltasAgree_of_worldEdges {s : GraphState} {fx : FrontExtract} {fl : FrontLink}
    {scope scope' : LinkScope} {partition partition' : Partition}
    (h : (worldEdges s fx fl scope).Perm (worldEdges s fx fl scope')) :
    DeltasAgree s (buildDelta s fx fl (edgeStage s fx fl scope) partition)
      (buildDelta s fx fl (edgeStage s fx fl scope') partition') := by
  have hpatch : ∀ scope partition,
      ((buildDelta s fx fl (edgeStage s fx fl scope) partition).edgesAdded : Multiset Edge)
          = (worldEdges s fx fl scope : List Edge) - s.graph.edges ∧
        ((buildDelta s fx fl (edgeStage s fx fl scope) partition).edgesRemoved : Multiset Edge)
          = (s.graph.edges : Multiset Edge) - (worldEdges s fx fl scope : List Edge) := by
    intro scope partition
    have hprior : (s.graph.edges : Multiset Edge) = (edgeStage s fx fl scope).carried
        + (edgeStage s fx fl scope).retired :=
      carry_add_retired s fl.refsByName (linkStage s fx fl scope).2 fl.droppedIds
        fl.priorProjectNodeIds
    rw [worldEdges, List.append_assoc]
    exact diffEdges_eq_sub _ hprior
  have hworld : (worldEdges s fx fl scope : Multiset Edge) = worldEdges s fx fl scope' :=
    Multiset.coe_eq_coe.mpr h
  refine
    { nodesAdded := rfl
      nodesRemoved := rfl
      edgesAdded := ?_
      edgesRemoved := ?_
      reverseDropped := rfl
      reverseAdded := rfl
      nodes := rfl
      edges := ?_
      reverse := rfl }
  · rw [← Multiset.coe_eq_coe, (hpatch _ _).1, (hpatch _ _).1, hworld]
  · rw [← Multiset.coe_eq_coe, (hpatch _ _).2, (hpatch _ _).2, hworld]
  · rw [← Multiset.coe_eq_coe, merge_edges, merge_edges, Multiset.coe_eq_coe]
    exact h.filter _

/-- **Scoped linking equals global linking** on every run whose scoped applies are
safe to scope: the deltas of the next apply agree, and so do the merged states. -/
theorem scoped_eq_global {st : Stages C} {ex : Extractor C} {prev source : Source C}
    {s : GraphState} {changes : ChangeSet} {timing : ClusterTiming} {δ δ' : GraphDelta}
    (hex : ex.PerFile) (hno : ex.NoOverlay) (hunmixed : ex.Unmixed)
    (hreach : Reach st ex (safeApply st ex) prev s)
    (hsafe : safeApply st ex prev s ⟨changes, source, .scoped, timing⟩)
    (hscoped : Engine.applyWith st s changes source ex .scoped timing = .ok δ)
    (hglobal : Engine.applyWith st s changes source ex .global timing = .ok δ') :
    DeltasAgree s δ δ' := by
  obtain ⟨L, hs⟩ := Ledger.exists_reflects_safe hex hno hunmixed hreach
  obtain ⟨fx, partition, hfx, rfl⟩ := applyWith_ok hscoped
  obtain ⟨fx', partition', hfx', rfl⟩ := applyWith_ok hglobal
  cases hfx.symm.trans hfx'
  obtain ⟨files, hf⟩ := frontExtract_ok hfx
  rcases hsafe with hscope | hsafe
  · cases hscope
  · exact deltasAgree_of_worldEdges (Ledger.worldEdges_scoped hf hex hno hs (hsafe fx hfx))

/-! ### Sample edits -/

instance (s : GraphState) (prev source : Source C) (fx : FrontExtract) (nr : String × Reference) :
    Decidable (Settled s prev source fx nr) :=
  inferInstanceAs (Decidable (∀ nm ∈ lookedUp s.idx.candidates s.workspace nr.1, nm ∉ fx.dirty ∧
    importedDef (linkCtx fx (frontLink s source fx)) nr.2.source nm
      = importedDef (s.ctx prev) nr.2.source nm ∧
    ∀ d ∈ importedDef (s.ctx prev) nr.2.source nm, d ∉ fx.droppedNodes.map Node.id))

instance (s : GraphState) (prev source : Source C) (fx : FrontExtract) :
    Decidable (ScopedSafe s prev source fx) := by
  unfold ScopedSafe LeftAlone
  infer_instance

namespace Snippet

/-- The cold build of `before`, and the deltas either scope emits for the change to
`after`. -/
def scopedAndGlobal (before after : List (String × Snippet)) (changes : ChangeSet) :
    Except Error (GraphDelta × GraphDelta × GraphDelta) := do
  let cold ← Engine.apply stages .empty (coldChanges (tree before)) (source before) extractor
  let δ ← Engine.applyWith stages (merge .empty cold) changes (source after) extractor .scoped .inline
  let δ' ← Engine.applyWith stages (merge .empty cold) changes (source after) extractor .global .inline
  pure (cold, δ, δ')

theorem reach_cold {files : List (String × Snippet)} {δ : GraphDelta}
    {P : Source Snippet → GraphState → ApplyStep Snippet → Prop}
    (hP : P (source []) .empty ⟨coldChanges (tree files), source files, .global, .inline⟩)
    (h : Engine.apply stages .empty (coldChanges (tree files)) (source files) extractor = .ok δ) :
    Reach stages extractor P (source files) (merge .empty δ) :=
  .apply (a := ⟨coldChanges (tree files), source files, .global, .inline⟩)
    (.empty (source [])) hP h

/-- Two files that call, two that define. -/
def calling (attrs : List (String × String)) : List (String × Snippet) :=
  [("a.ts", caller "f"), ("c.ts", caller "g"), ("d.ts", plain "g")]
    ++ [("b.ts", ⟨"f", attrs, [], []⟩)]

/-- An import under an alias, of a definition with the given attributes. -/
def aliased (attrs : List (String × String)) : List (String × Snippet) :=
  [("a.ts", ⟨"main", [], [(imports, "g", [("specifier", "./b"), ("imported", "greet")])], []⟩)]
    ++ [("b.ts", ⟨"greet", attrs, [], [.local "greet"]⟩)]

/-- A crate, and a call qualified by it with a module in between. -/
def qualified : List (String × Snippet) :=
  [("Cargo.toml", plain "core"), ("a.rs", caller "core::util::f")]

end Snippet

/-- `scoped_eq_global` on the edit of a definition that one of two calls names. -/
theorem scoped_eq_global_sample : ∃ cold δ δ',
    Snippet.scopedAndGlobal (Snippet.calling []) (Snippet.calling [("returns", "T")])
      ⟨[], ["b.ts"], []⟩ = .ok (cold, δ, δ') ∧ DeltasAgree (merge .empty cold) δ δ' := by
  have hok : (Snippet.scopedAndGlobal (Snippet.calling []) (Snippet.calling [("returns", "T")])
      ⟨[], ["b.ts"], []⟩).isOk = true := by decide +kernel
  have hsafe : ((Engine.apply Snippet.stages .empty (coldChanges (Snippet.tree (Snippet.calling [])))
      (Snippet.source (Snippet.calling [])) Snippet.extractor) >>= fun cold =>
        (frontExtract Snippet.stages (merge .empty cold) ⟨[], ["b.ts"], []⟩
          (Snippet.source (Snippet.calling [("returns", "T")])) Snippet.extractor) >>= fun fx =>
            pure (decide (ScopedSafe (merge .empty cold) (Snippet.source (Snippet.calling []))
              (Snippet.source (Snippet.calling [("returns", "T")])) fx))) = .ok true := by
    decide +kernel
  obtain ⟨cold, hcold, hsafe⟩ := bind_eq_ok.mp hsafe
  obtain ⟨fx, hfx, hsafe⟩ := bind_eq_ok.mp hsafe
  cases hrun : Snippet.scopedAndGlobal (Snippet.calling []) (Snippet.calling [("returns", "T")])
      ⟨[], ["b.ts"], []⟩ with
  | error e => rw [hrun] at hok; cases hok
  | ok r =>
      obtain ⟨cold', hcold', hrun⟩ := bind_eq_ok.mp hrun
      obtain ⟨δ, hδ, hrun⟩ := bind_eq_ok.mp hrun
      obtain ⟨δ', hδ', hrun⟩ := bind_eq_ok.mp hrun
      cases hrun
      cases hcold.symm.trans hcold'
      refine ⟨cold, δ, δ', rfl, scoped_eq_global Snippet.perFile Snippet.noOverlay Snippet.unmixed
        (Snippet.reach_cold (Or.inl rfl) hcold) (Or.inr fun fx' hfx' => ?_) hδ hδ'⟩
      cases hfx.symm.trans hfx'
      exact of_decide_eq_true (Except.ok.inj hsafe)

/-- A cold build and a change that names exactly the files it changes, for which the
two scopes emit different patches. -/
def BreaksScoped (before after : List (String × Snippet)) (changes : ChangeSet) : Prop :=
  ∃ s δ δ', Reach Snippet.stages Snippet.extractor anyApply (Snippet.source before) s ∧
    Names changes (Snippet.tree before) (Snippet.tree after) ∧
    (∀ p ∈ changes.touched, (Snippet.tree before)[p]? ≠ (Snippet.tree after)[p]?) ∧
    Engine.applyWith Snippet.stages s changes (Snippet.source after) Snippet.extractor .scoped
      .inline = .ok δ ∧
    Engine.applyWith Snippet.stages s changes (Snippet.source after) Snippet.extractor .global
      .inline = .ok δ' ∧
    ¬ DeltasAgree s δ δ'

theorem breaksScoped_of_run {before after : List (String × Snippet)} {changes : ChangeSet}
    (hnames : Names changes (Snippet.tree before) (Snippet.tree after))
    (hchanged : ∀ p ∈ changes.touched, (Snippet.tree before)[p]? ≠ (Snippet.tree after)[p]?)
    (h : (Snippet.scopedAndGlobal before after changes).map (fun r =>
      decide (r.2.1.edgesRemoved.length ≠ r.2.2.edgesRemoved.length)) = .ok true) :
    BreaksScoped before after changes := by
  cases hrun : Snippet.scopedAndGlobal before after changes with
  | error e => rw [hrun] at h; cases h
  | ok r =>
      rw [hrun] at h
      obtain ⟨cold, hcold, hrun⟩ := bind_eq_ok.mp hrun
      obtain ⟨δ, hδ, hrun⟩ := bind_eq_ok.mp hrun
      obtain ⟨δ', hδ', hrun⟩ := bind_eq_ok.mp hrun
      cases hrun
      exact ⟨merge .empty cold, δ, δ', Snippet.reach_cold trivial hcold, hnames, hchanged, hδ, hδ',
        fun hagree => of_decide_eq_true (Except.ok.inj h) hagree.edgesRemoved.length_eq⟩

/-- Scoped linking loses edges: the edge of an aliased import when the imported
definition is edited, and a call through a crate and a module when its definition
appears. The sample extractor is per-file, unmixed and leaves the overlay alone. -/
theorem scoped_ne_global :
    Snippet.extractor.PerFile ∧ Snippet.extractor.NoOverlay ∧ Snippet.extractor.Unmixed ∧
      BreaksScoped (Snippet.aliased []) (Snippet.aliased [("returns", "T")]) ⟨[], ["b.ts"], []⟩ ∧
      BreaksScoped Snippet.qualified (Snippet.qualified ++ [("b.rs", .plain "f")])
        ⟨["b.rs"], [], []⟩ := by
  refine ⟨Snippet.perFile, Snippet.noOverlay, Snippet.unmixed,
    breaksScoped_of_run (Snippet.names_edit _ _ _ _) (fun p hp h => ?_) (by decide +kernel),
    breaksScoped_of_run (Snippet.names_add _ _ _) (fun p hp h => ?_) (by decide +kernel)⟩
  · cases List.mem_singleton.mp hp
    rw [Snippet.get_tree, Snippet.get_tree] at h
    have hattrs := congrArg (Option.map fun s => s.attrs.length) h
    revert hattrs
    decide
  · cases List.mem_singleton.mp hp
    rw [Snippet.get_tree, Snippet.get_tree] at h
    have hfile := congrArg Option.isSome h
    revert hfile
    decide

end Filigrio
