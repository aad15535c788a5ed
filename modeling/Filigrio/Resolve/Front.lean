import Filigrio.Resolve.Projects

/-!
# Filigrio.Resolve.Front

The front half of an apply, `fold_vanished … heal_diverged_refs`: reconcile the
changeset with the source, split the prior nodes, maintain the workspace, extract
the changed files (`frontExtract`), then build the link indices, the reference
universe, the export index and the import scope (`frontLink`).
-/

namespace Filigrio

variable {C : Type}

/-- Fold the `added`/`modified` paths that are gone from the source into `removed`. -/
def foldVanished (changes : ChangeSet) (source : Source C) : ChangeSet × ℕ :=
  let gone := fun p => !source.exists p
  if changes.toIndex.any gone then
    ({ added := changes.added.filter source.exists
       modified := changes.modified.filter source.exists
       removed := changes.removed ++ changes.toIndex.filter gone },
      (changes.toIndex.filter gone).length)
  else (changes, 0)

/-! ### Extraction -/

/-- The reference an unresolved edge stands for: its name and everything its
hints say about the receiver and the import. -/
def referenceOf (e : Edge) : Option (String × Reference) :=
  match e.target with
  | .node _ => none
  | .symbol reff => some (reff.name,
      { source := e.source
        relation := e.relation
        typeHint := reff.hints["type"]?
        specifier := reff.hints["specifier"]?
        imported := reff.hints["imported"]?
        recvOpaque := reff.hints["recv"]? = some "opaque"
        recvReturns := reff.hints["recv_returns"]?
        recvReturnsOwner := reff.hints["recv_returns_owner"]? })

/-- The already-resolved edges of an extraction. -/
def Extraction.structural (x : Extraction) : List Edge := x.edges.filter fun e => e.target.isNode

/-- The references of an extraction. -/
def Extraction.refs (x : Extraction) : List (String × Reference) := x.edges.filterMap referenceOf

/-- What one extracted file contributes to the graph. -/
abbrev Contribution := String × Extraction

/-- Extract the handled files of `paths`, in order; the first failure ends it. -/
def extractFiles (source : Source C) (extractor : Extractor C) :
    List String → Except Error (List Contribution)
  | [] => pure []
  | path :: paths =>
    if extractor.handles (classify path) then do
      let bytes ← source.read path
      let extraction ← extractor.extract (classify path) bytes
      let rest ← extractFiles source extractor paths
      pure ((path, extraction) :: rest)
    else extractFiles source extractor paths

/-- Raw per-file facts from the extract stage, before any linking. -/
structure Extracted where
  nodes : List Node
  structural : List Edge
  refs : List (String × Reference)
  exports : BTreeMap String (List Export)

/-- Collect the per-file facts; a file with no exports has no table. -/
def Extracted.collect (files : List Contribution) : Extracted where
  nodes := files.flatMap fun f => f.2.nodes
  structural := files.flatMap fun f => f.2.structural
  refs := files.flatMap fun f => f.2.refs
  exports := BTreeMap.insertAll ∅
    ((files.filter fun f => !f.2.exports.isEmpty).map fun f => (f.1, f.2.exports))

/-- Index the changed files (added, then modified) into raw facts. -/
def extractChanged (changes : ChangeSet) (source : Source C) (extractor : Extractor C) :
    Except Error Extracted := do
  let files ← extractFiles source extractor changes.toIndex
  pure (Extracted.collect files)

/-- The owned half of the front sequence. -/
structure FrontExtract where
  changes : ChangeSet
  vanished : ℕ
  droppedNodes : List Node
  survivingNodes : List Node
  priorProjectNodes : List Node
  workspace : Workspace
  extracted : Extracted

/-- Is the node's file among `files`? -/
def Node.inFiles (files : List String) (n : Node) : Bool := n.sourceFile.any (· ∈ files)

/-- Is the node part of the project overlay? -/
def Node.isProject (n : Node) : Bool := n.kind = "project"

def frontExtract (st : Stages C) (prior : GraphState) (changes : ChangeSet) (source : Source C)
    (extractor : Extractor C) : Except Error FrontExtract := do
  let (changes, vanished) := foldVanished changes source
  let surviving := prior.graph.nodes.filter fun n => !n.inFiles changes.touched
  let workspace ← maintainWorkspace st prior.workspace changes source
  let extracted ← extractChanged changes source extractor
  pure
    { changes := changes
      vanished := vanished
      droppedNodes := prior.graph.nodes.filter fun n => n.inFiles changes.touched
      survivingNodes := surviving.filter fun n => !n.isProject
      priorProjectNodes := surviving.filter Node.isProject
      workspace := workspace
      extracted := extracted }

/-! ### The maintained indices -/

/-- Rebuild the reference universe: keep the prior references whose source
survived, add the fresh ones, sort and dedup each list. -/
def rebuildRefs (prior : ReverseIndex) (droppedIds : List NodeId)
    (newRefs : List (String × Reference)) : BTreeMap String (List Reference) :=
  Std.ExtTreeMap.map (fun _ list => Canon.canon list)
    (BTreeMap.pushAll ∅
      ((BTreeMap.pairs prior.refs).filter (fun nr => nr.2.source ∉ droppedIds) ++ newRefs))

/-- Carry the untouched files' export tables, replace the freshly extracted ones. -/
def maintainExports (prior : ExportIndex) (droppedFiles : List String)
    (newExports : BTreeMap String (List Export)) : BTreeMap String (List Export) :=
  BTreeMap.insertAll (Std.ExtTreeMap.filter (fun f _ => f ∉ droppedFiles) prior.byFile)
    newExports.toList

/-- Every indexed path gets a stub entry, every removed path loses its entry. -/
def maintainManifest (prior : Manifest) (changes : ChangeSet) : Manifest :=
  ⟨changes.removed.foldl (fun m path => m.erase path)
    (BTreeMap.insertAll prior.entries (changes.toIndex.map fun path => (path, ⟨0, none, none⟩)))⟩

/-! ### Healing a diverged reverse index -/

/-- How many references stand at `site`. -/
def refCount (refsByName : BTreeMap String (List Reference)) (site : Site) : ℕ :=
  ((BTreeMap.pairs refsByName).filter fun nr => nr.2.site = site).length

/-- How many prior edges at `site` have a source that survives this apply. -/
def survivingEdgeCount (prior : GraphState) (droppedIds projectIds : List NodeId) (site : Site) :
    ℕ :=
  (prior.graph.edges.filter fun e =>
    !(e.source ∈ droppedIds || e.source ∈ projectIds) && e.site = site).length

/-- Pass 1: the reference sites whose prior edges outnumber their references. -/
def divergedSites (refsByName : BTreeMap String (List Reference)) (prior : GraphState)
    (droppedIds projectIds : List NodeId) : List Site :=
  (Canon.canon ((BTreeMap.pairs refsByName).map fun nr => nr.2.site)).filter fun site =>
    refCount refsByName site < survivingEdgeCount prior droppedIds projectIds site

/-- The name (and opaque mark) an unclaimed prior edge is healed under, if no
reference of its site claims it by name or through the import scope. -/
def unclaimedName (labelOf : BTreeMap NodeId String) (names : List String)
    (importClaims : List NodeId) (e : Edge) : Option (String ×ₗ Bool) :=
  match e.target with
  | .node t => (labelOf[t]?).bind fun l =>
      if l ∈ names ∨ t ∈ importClaims then none else some (toLex (l, false))
  | .symbol r =>
      if r.name ∈ names then none
      else some (toLex (r.name, decide (r.hints["recv"]? = some "opaque")))

/-- Pass 2, one diverged site: reconstruct at most the deficit. -/
def healSite (refsByName : BTreeMap String (List Reference)) (prior : GraphState)
    (fileOf : BTreeMap NodeId (Option String)) (importScope : ImportScope) (site : Site) :
    List (String × Reference) :=
  let labelOf := BTreeMap.insertAll ∅ (prior.graph.nodes.map fun n => (n.id, n.label))
  let atSite := (BTreeMap.pairs refsByName).filter fun nr => nr.2.site = site
  let names := atSite.map Prod.fst
  let importClaims := atSite.filterMap fun nr =>
    (lookup fileOf nr.2.source).bind fun f => importScope[toLex (f, nr.1)]?
  let edges := prior.graph.edges.filter fun e => e.site = site
  let unclaimed := Canon.canon (edges.filterMap (unclaimedName labelOf names importClaims))
  (unclaimed.take (edges.length - names.length)).map fun nb => ((ofLex nb).1,
    { source := (ofLex site).1
      relation := (ofLex site).2
      typeHint := none
      specifier := none
      imported := none
      recvOpaque := (ofLex nb).2
      recvReturns := none
      recvReturnsOwner := none })

/-- Enter one healed reference, re-canonicalizing its list. -/
def addHealed (refsByName : BTreeMap String (List Reference)) (nr : String × Reference) :
    BTreeMap String (List Reference) :=
  refsByName.alter nr.1 fun o => some (Canon.canon (o.getD [] ++ [nr.2]))

/-- Guard the `reverse` ↔ `graph.edges` consistency invariant: the healed
reference universe and the references it had to reconstruct. -/
def healDivergedRefs (refsByName : BTreeMap String (List Reference)) (prior : GraphState)
    (droppedIds projectIds : List NodeId) (fileOf : BTreeMap NodeId (Option String))
    (importScope : ImportScope) : BTreeMap String (List Reference) × List (String × Reference) :=
  let diverged := divergedSites refsByName prior droppedIds projectIds
  let healed := diverged.flatMap (healSite refsByName prior fileOf importScope)
  (healed.foldl addHealed refsByName, healed)

/-- The borrowed half of the front sequence. -/
structure FrontLink where
  droppedFiles : List String
  droppedIds : List NodeId
  priorProjectNodeIds : List NodeId
  allNodes : List Node
  idx : LinkIndices
  refsByName : BTreeMap String (List Reference)
  exportsByFile : BTreeMap String (List Export)
  importScope : ImportScope
  healedRefs : List (String × Reference)

def frontLink (prior : GraphState) (source : Source C) (fx : FrontExtract) : FrontLink :=
  let droppedFiles := Canon.canon fx.changes.touched
  let droppedIds := Canon.canon (fx.droppedNodes.map Node.id)
  let projectIds := Canon.canon (fx.priorProjectNodes.map Node.id)
  let allNodes := fx.survivingNodes ++ fx.extracted.nodes
  let idx := buildLinkIndices allNodes fx.workspace
  let refs := rebuildRefs prior.reverse droppedIds fx.extracted.refs
  let exportsByFile := maintainExports prior.exports droppedFiles fx.extracted.exports
  let importScope := buildImportScope refs allNodes exportsByFile idx.fileOf
    (buildResolver source fx.workspace)
  let healed := healDivergedRefs refs prior droppedIds projectIds idx.fileOf importScope
  { droppedFiles := droppedFiles
    droppedIds := droppedIds
    priorProjectNodeIds := projectIds
    allNodes := allNodes
    idx := idx
    refsByName := healed.1
    exportsByFile := exportsByFile
    importScope := importScope
    healedRefs := healed.2 }

/-- The references an apply links, and those it had to reconstruct. -/
theorem frontLink_heal (prior : GraphState) (source : Source C) (fx : FrontExtract) :
    healDivergedRefs
        (rebuildRefs prior.reverse (frontLink prior source fx).droppedIds fx.extracted.refs) prior
        (frontLink prior source fx).droppedIds (frontLink prior source fx).priorProjectNodeIds
        (frontLink prior source fx).idx.fileOf (frontLink prior source fx).importScope
      = ((frontLink prior source fx).refsByName, (frontLink prior source fx).healedRefs) := by
  simp only [frontLink]

/-- The import scope of an apply, over its own nodes, exports and rebuilt references. -/
theorem frontLink_importScope (prior : GraphState) (source : Source C) (fx : FrontExtract) :
    (frontLink prior source fx).importScope = buildImportScope
      (rebuildRefs prior.reverse (frontLink prior source fx).droppedIds fx.extracted.refs)
      (frontLink prior source fx).allNodes (frontLink prior source fx).exportsByFile
      (frontLink prior source fx).idx.fileOf (buildResolver source fx.workspace) := by
  simp only [frontLink]

/-- The reference universe of an apply is the rebuilt one with the healed references entered. -/
theorem frontLink_refsByName (prior : GraphState) (source : Source C) (fx : FrontExtract) :
    (frontLink prior source fx).refsByName
      = (frontLink prior source fx).healedRefs.foldl addHealed
          (rebuildRefs prior.reverse (frontLink prior source fx).droppedIds fx.extracted.refs) := by
  simp only [frontLink, healDivergedRefs]

end Filigrio
