import Filigrio.Resolve.Front
import Filigrio.Lib.Patch

/-!
# Filigrio.Resolve.Apply

One apply of the engine: the front half, the link stage under a `LinkScope`
(every reference, or those in the change's impact set), the carry of the prior
edges that are not re-emitted, clustering, the project overlay, and the patch
delta that comes out.
-/

namespace Filigrio

variable {C : Type}

/-! ### The impact set -/

/-- The export table kept for a file, empty when there is none. -/
def exportSlice (m : BTreeMap String (List Export)) (f : String) : List Export := m[f]?.getD []

/-- A workspace change, or a change of a touched file's export table. -/
def fullImpact (touchedFiles : List String) (priorExports : ExportIndex)
    (exportsByFile : BTreeMap String (List Export)) (priorWorkspace workspace : Workspace) : Bool :=
  workspace ≠ priorWorkspace ||
    touchedFiles.any fun f => exportSlice priorExports.byFile f ≠ exportSlice exportsByFile f

/-- The labels defined or removed in touched files. -/
def dirtyNames (droppedNodes newNodes : List Node) : List String :=
  Canon.canon (((droppedNodes ++ newNodes).filter isLinkable).map Node.label)

/-- Is a reference under `name` to be resolved again: its name (or the stripped
name) is dirty, its source was touched, or its deferred callee is dirty? -/
def refImpacted (dirty touchedFiles : List String) (workspace : Workspace)
    (fileOf : BTreeMap NodeId (Option String)) (name : String) (r : Reference) : Bool :=
  dirty.contains name
    || (stripWorkspaceQualifier name workspace).any (fun q => dirty.contains q.1)
    || (lookup fileOf r.source).any (fun f => touchedFiles.contains f)
    || r.recvReturns.any (fun callee => dirty.contains callee)

/-- Compute the `ImpactReport` for one apply. -/
def computeImpact (droppedNodes newNodes : List Node)
    (refsByName : BTreeMap String (List Reference)) (touchedFiles : List String)
    (priorExports : ExportIndex) (exportsByFile : BTreeMap String (List Export))
    (priorWorkspace workspace : Workspace) (fileOf : BTreeMap NodeId (Option String)) :
    ImpactReport :=
  let full := fullImpact touchedFiles priorExports exportsByFile priorWorkspace workspace
  let dirty := dirtyNames droppedNodes newNodes
  { full := full
    sites := if full then ∅ else
      Std.ExtTreeMap.map (fun _ rels => Canon.canon rels) (BTreeMap.pushAll ∅
        (((BTreeMap.pairs refsByName).filter fun nr =>
          refImpacted dirty touchedFiles workspace fileOf nr.1 nr.2).map fun nr =>
            (nr.2.source, nr.2.relation)))
    dirtyNames := dirty }

/-- The impact set of an apply, from the outputs of its front half. -/
def impactOf (prior : GraphState) (fx : FrontExtract) (fl : FrontLink) : ImpactReport :=
  computeImpact fx.droppedNodes fx.extracted.nodes fl.refsByName fl.droppedFiles prior.exports
    fl.exportsByFile prior.workspace fx.workspace fl.idx.fileOf

/-! ### Carrying prior edges -/

/-- Every site a reference stands at. -/
def refSites (refsByName : BTreeMap String (List Reference)) : List Site :=
  (BTreeMap.pairs refsByName).map fun nr => nr.2.site

/-- Is a prior edge healthy, and not about to be re-emitted? -/
def keepPriorEdge (sites : List Site) (impact : Option ImpactReport)
    (droppedIds projectIds : List NodeId) (e : Edge) : Bool :=
  e.source ∉ projectIds && e.source ∉ droppedIds
    && (match e.target with
        | .node t => decide (t ∉ droppedIds)
        | .symbol _ => true)
    && !(decide (e.site ∈ sites) && impact.all fun i => i.siteImpacted e.source e.relation)

/-- Split the prior edges into those carried and those retired. -/
def carryPriorEdges (prior : GraphState) (refsByName : BTreeMap String (List Reference))
    (impact : Option ImpactReport) (droppedIds projectIds : List NodeId) : List Edge × List Edge :=
  prior.graph.edges.partition
    (keepPriorEdge (refSites refsByName) impact droppedIds projectIds)

/-- The minimal multiset diff between what is retired and what is emitted. -/
def diffEdges (retired emitted : List Edge) : List Edge × List Edge :=
  if retired = [] then (emitted, []) else Patch.diff retired emitted

/-! ### Derived indices -/

/-- symbol name → its first candidate. -/
def symbolTable (candidates : BTreeMap String (List NodeId)) : SymbolTable :=
  ⟨BTreeMap.insertAll ∅ (candidates.toList.filterMap fun c => c.2.head?.map fun id => (c.1, id))⟩

/-- symbol name → its candidates and the modules that define them. -/
def buildSymbolIndex (idx : LinkIndices) : SymbolIndex :=
  ⟨Std.ExtTreeMap.map (fun _ ids =>
    { nodes := ids
      modules := Canon.canon ((ids.filterMap (lookup idx.fileOf)).map moduleOf) }) idx.candidates⟩

/-- The prior partition without the nodes that are gone. -/
def carryPartition (prior : Partition) (dropped : List NodeId) (newNodes : List Node) : Partition :=
  { prior with
    nodeCommunity := (dropped.filter fun id => id ∉ newNodes.map Node.id).foldl
      (fun m id => m.erase id) prior.nodeCommunity }

/-- The delta's `affected` telemetry. -/
def computeAffected (droppedNodes newNodes survivingNodes : List Node) (reverse : ReverseIndex)
    (removed : ℕ) : ℕ :=
  let names := dirtyNames droppedNodes newNodes
  let relinked := Canon.canon ((((BTreeMap.pairs reverse.refs).filter fun nr =>
    names.contains nr.1).map fun nr => nr.2.source).filter fun src =>
      src ∈ survivingNodes.map Node.id)
  newNodes.length + removed + relinked.length

/-! ### The engine -/

/-- Which linking strategy the re-resolution stage uses. -/
inductive LinkScope
  | global
  | scoped
  deriving DecidableEq, Repr

/-- When an apply runs community detection. -/
inductive ClusterTiming
  | inline
  | deferred
  deriving DecidableEq, Repr

/-- The resolution context of an apply. -/
def linkCtx (fx : FrontExtract) (fl : FrontLink) : LinkCtx where
  fileOf := fl.idx.fileOf
  implOf := fl.idx.implOf
  returnsOf := fl.idx.returnsOf
  projectOf := fl.idx.projectOf
  importScope := fl.importScope
  workspace := fx.workspace

/-- The link stage: the resolved edges, and the impact set when there is one. -/
def linkStage (prior : GraphState) (fx : FrontExtract) (fl : FrontLink) :
    LinkScope → List Edge × Option ImpactReport
  | .global => (resolveAll fl.refsByName fl.idx.candidates (linkCtx fx fl), none)
  | .scoped =>
    let impact := impactOf prior fx fl
    (resolveImpacted fl.refsByName fl.idx.candidates (linkCtx fx fl) impact, some impact)

/-- The edges an apply ends with, in four groups: the carried and the retired
prior edges, the structural and linked ones it emits, the project overlay. -/
structure EdgeStage where
  carried : List Edge
  retired : List Edge
  emitted : List Edge
  overlay : List Edge

def edgeStage (prior : GraphState) (fx : FrontExtract) (fl : FrontLink) (scope : LinkScope) :
    EdgeStage :=
  let link := linkStage prior fx fl scope
  let carry := carryPriorEdges prior fl.refsByName link.2 fl.droppedIds fl.priorProjectNodeIds
  { carried := carry.1
    retired := carry.2
    emitted := fx.extracted.structural ++ link.1
    overlay := (projectOverlay fx.workspace fl.allNodes).2 }

@[simp] theorem edgeStage_carried (prior : GraphState) (fx : FrontExtract) (fl : FrontLink)
    (scope : LinkScope) : (edgeStage prior fx fl scope).carried
      = prior.graph.edges.filter (keepPriorEdge (refSites fl.refsByName)
          (linkStage prior fx fl scope).2 fl.droppedIds fl.priorProjectNodeIds) := by
  simp only [edgeStage, carryPriorEdges, List.partition_eq_filter_filter]

/-- Carried, structural, linked and overlay edges. -/
def worldEdges (prior : GraphState) (fx : FrontExtract) (fl : FrontLink) (scope : LinkScope) :
    List Edge :=
  let es := edgeStage prior fx fl scope
  es.carried ++ es.emitted ++ es.overlay

/-- The delta of one apply, from the outputs of its stages. -/
def buildDelta (prior : GraphState) (fx : FrontExtract) (fl : FrontLink) (es : EdgeStage)
    (partition : Partition) : GraphDelta :=
  let diff := diffEdges es.retired (es.emitted ++ es.overlay)
  let nodesRemoved := fl.droppedIds ++ fx.priorProjectNodes.map Node.id
  { nodesAdded := fx.extracted.nodes ++ (projectOverlay fx.workspace fl.allNodes).1
    nodesRemoved := nodesRemoved
    edgesAdded := diff.1
    edgesRemoved := diff.2
    dirtyFiles := Canon.canon fx.changes.touched
    partition := partition
    symbols := symbolTable fl.idx.candidates
    reverseDropped := fl.droppedIds
    reverseAdded := fx.extracted.refs ++ fl.healedRefs
    manifest := maintainManifest prior.manifest fx.changes
    workspace := fx.workspace
    exports := ⟨fl.exportsByFile⟩
    symbolIndex := buildSymbolIndex fl.idx
    affected := computeAffected fx.droppedNodes fx.extracted.nodes fx.survivingNodes
      ⟨fl.refsByName⟩ nodesRemoved.length
    vanished := fx.vanished }

/-- The partition of an apply: clustered inline, or carried until a recluster. -/
def partitionStage (st : Stages C) (prior : GraphState) (fx : FrontExtract) (fl : FrontLink)
    (es : EdgeStage) : ClusterTiming → Except Error Partition
  | .inline => st.clusterWith fl.allNodes (es.carried ++ es.emitted) prior.partition
  | .deferred => pure (carryPartition prior.partition fl.droppedIds fx.extracted.nodes)

namespace Engine

/-- `Engine::apply_with`: one apply under an explicit scope and timing. -/
def applyWith (st : Stages C) (prior : GraphState) (changes : ChangeSet) (source : Source C)
    (extractor : Extractor C) (scope : LinkScope) (timing : ClusterTiming) :
    Except Error GraphDelta := do
  let fx ← frontExtract st prior changes source extractor
  let fl := frontLink prior source fx
  let es := edgeStage prior fx fl scope
  let partition ← partitionStage st prior fx fl es timing
  pure (buildDelta prior fx fl es partition)

/-- `Engine::apply_with_scope`: clustering inline. -/
def applyWithScope (st : Stages C) (prior : GraphState) (changes : ChangeSet) (source : Source C)
    (extractor : Extractor C) (scope : LinkScope) : Except Error GraphDelta :=
  applyWith st prior changes source extractor scope .inline

/-- `Engine::apply`: every reference re-resolved, clustering inline. -/
def apply (st : Stages C) (prior : GraphState) (changes : ChangeSet) (source : Source C)
    (extractor : Extractor C) : Except Error GraphDelta :=
  applyWithScope st prior changes source extractor .global

/-- `Engine::recluster`: the clustering a deferred apply skipped. -/
def recluster (st : Stages C) (state : GraphState) : Except Error Partition :=
  st.clusterWith (state.graph.nodes.filter fun n => !n.isProject) state.graph.edges state.partition

end Engine

end Filigrio
