import Filigrio.Resolve.ModRes
import Filigrio.Resolve.ExportGraph

/-!
# Filigrio.Resolve.Link

The link stage: the node-keyed lookup maps, the per-file import scope, and the
rules that bind one reference to a definition (`resolve` and the fallbacks around
it). `resolveAll` links every reference, `resolveImpacted` only those whose site
is in a change's impact set; both run the same body, `linkRef`.
-/

namespace Filigrio

/-- Node kinds that define a linkable symbol (files are not linkable). -/
def linkable : List String :=
  ["function", "struct", "enum", "trait", "class", "interface", "type_alias"]

/-- Whether `n` defines a symbol other references can bind to. -/
def isLinkable (n : Node) : Bool := n.kind ∈ linkable

/-- The node-keyed lookup maps the link stage resolves through. -/
structure LinkIndices where
  fileOf : BTreeMap NodeId (Option String)
  implOf : BTreeMap NodeId (Option String)
  returnsOf : BTreeMap NodeId (Option String)
  /-- node id → its project root, derived from the `Workspace`. -/
  projectOf : BTreeMap NodeId (Option String)
  /-- symbol name → its defining node ids, sorted. -/
  candidates : BTreeMap String (List NodeId)

/-- Collect `f` of every node under its id. -/
def indexBy (f : Node → Option String) (allNodes : List Node) : BTreeMap NodeId (Option String) :=
  BTreeMap.insertAll ∅ (allNodes.map fun n => (n.id, f n))

/-- symbol name → the ids of the linkable nodes with that label. -/
def buildCandidates (allNodes : List Node) : BTreeMap String (List NodeId) :=
  Std.ExtTreeMap.map (fun _ ids => Canon.canon ids)
    (BTreeMap.pushAll ∅ ((allNodes.filter isLinkable).map fun n => (n.label, n.id)))

/-- The project root of a node's file. -/
def Node.projectRoot (ws : Workspace) (n : Node) : Option String := n.sourceFile.bind ws.rootOf

def buildLinkIndices (allNodes : List Node) (ws : Workspace) : LinkIndices where
  fileOf := indexBy Node.sourceFile allNodes
  implOf := indexBy (fun n => n.attrs[attrImpl]?) allNodes
  returnsOf := indexBy (fun n => n.attrs[attrReturns]?) allNodes
  projectOf := indexBy (Node.projectRoot ws) allNodes
  candidates := buildCandidates allNodes

/-- `map.get(id).copied().flatten()`. -/
def lookup (m : BTreeMap NodeId (Option String)) (id : NodeId) : Option String := (m[id]?).join

/-- `(importing file, bound name)` → definition node. -/
abbrev ImportScope := BTreeMap (String ×ₗ String) NodeId

/-- Per-apply resolution context. -/
structure LinkCtx where
  fileOf : BTreeMap NodeId (Option String)
  implOf : BTreeMap NodeId (Option String)
  returnsOf : BTreeMap NodeId (Option String)
  projectOf : BTreeMap NodeId (Option String)
  importScope : ImportScope
  workspace : Workspace

/-- The first definition of each `(file, label)` in node order. -/
def buildLocalDef (allNodes : List Node) : LocalDef :=
  BTreeMap.insertNew ∅ ((allNodes.filter isLinkable).filterMap fun n =>
    n.sourceFile.map fun f => (toLex (moduleOf f, n.label), n.id))

/-- The import-scope binding one reference licenses, if any. -/
def importBinding (fileOf : BTreeMap NodeId (Option String)) (g : ExportGraph)
    (resolver : ModuleResolver) (name : String) (r : Reference) :
    Option ((String ×ₗ String) × NodeId) :=
  if r.relation ≠ imports then none
  else r.specifier.bind fun spec => (lookup fileOf r.source).bind fun importing =>
    (resolver importing spec).bind fun entry =>
      (g.resolveImport (moduleOf entry) (r.imported.getD name)).map fun d =>
        (toLex (importing, name), d)

/-- Build the per-file import scope: every `imports` reference is walked through
the export graph to a definition; the last binding of a `(file, name)` stays. -/
def buildImportScope (refsByName : BTreeMap String (List Reference)) (allNodes : List Node)
    (exportsByFile : BTreeMap String (List Export)) (fileOf : BTreeMap NodeId (Option String))
    (resolver : ModuleResolver) : ImportScope :=
  let g := ExportGraph.build exportsByFile (buildLocalDef allNodes) resolver
  BTreeMap.insertAll ∅
    ((BTreeMap.pairs refsByName).filterMap fun nr => importBinding fileOf g resolver nr.1 nr.2)

/-! ### Workspace-qualified names -/

/-- `_` and `-` are one letter in a crate name. -/
def normalizeCrate (s : String) : String := Text.replaceChar s '_' '-'

/-- The first project whose package name is `head`, up to `-`/`_`. -/
def findCrate (head : String) (ws : Workspace) : Option Project :=
  ws.values.find? fun p => p.name.any fun c => normalizeCrate head = normalizeCrate c

/-- Strip the head of a `::`-qualified name if it names a workspace crate: the
rest of the name, and the crate name as written. -/
def stripWorkspaceQualifier (name : String) (ws : Workspace) : Option (String × String) :=
  if !Text.contains name "::" then none
  else
    let head := Text.before name "::"
    (findCrate head ws).bind fun _ =>
      (Text.stripPrefix name (head ++ "::")).map fun stripped => (stripped, head)

/-- The root of the project a crate name denotes. -/
def findCrateProjectRoot (crateName : String) (ws : Workspace) : Option String :=
  (findCrate crateName ws).map Project.root

/-- Windows separators read as `/`. -/
def slashed (s : String) : String := Text.replaceChar s '\\' '/'

/-- The candidates that live in the named crate, or `none` when there are none. -/
def disambiguateByCrate (candidates : List NodeId) (crateName : String) (ctx : LinkCtx) :
    Option (List NodeId) :=
  (findCrateProjectRoot crateName ctx.workspace).bind fun root =>
    let crateCandidates := candidates.filter fun id =>
      (lookup ctx.projectOf id).any fun p => slashed p = slashed root
    if crateCandidates = [] then none else some crateCandidates

/-! ### Binding one reference -/

/-- The base type name for hint/owner comparison: generics and path dropped. -/
def normType (s : String) : String := Text.trim (Text.afterLast (Text.before s "<") "::")

/-- Does the node's `impl` owner equal `want`, up to generics and path? -/
def ownerIs (ctx : LinkCtx) (want : String) (id : NodeId) : Bool :=
  (lookup ctx.implOf id).any fun owner => normType owner = want

/-- Is `id` in the project of `source`? -/
def sameProject (ctx : LinkCtx) (source id : NodeId) : Bool :=
  lookup ctx.projectOf id = lookup ctx.projectOf source

/-- An unresolved reference stays a `symbol`. -/
def unresolved (name : String) : EdgeTarget × Confidence :=
  (.symbol (TargetRef.new name), .extracted)

/-- The concrete return type of `callee`: the single distinct `returns` among the
candidates of the source's project (narrowed by `owner` when given). -/
def returnTypeOf (callee : String) (owner : Option String) (source : NodeId)
    (candidates : BTreeMap String (List NodeId)) (ctx : LinkCtx) : Option String :=
  (candidates[callee]?).bind fun ids =>
    let pool := ids.filter (sameProject ctx source)
    let pool := match owner with
      | some o => pool.filter (ownerIs ctx (normType o))
      | none => pool
    match Canon.canon (pool.filterMap (lookup ctx.returnsOf)) with
    | [only] => some (normType only)
    | _ => none

/-- The import-scope binding of `name` in the file of `source`. -/
def importedDef (ctx : LinkCtx) (source : NodeId) (name : String) : Option NodeId :=
  (lookup ctx.fileOf source).bind fun f => ctx.importScope[toLex (f, name)]?

/-- Is `id` defined in the file of `source`? -/
def sameFile (ctx : LinkCtx) (source id : NodeId) : Bool :=
  (lookup ctx.fileOf source).isSome && lookup ctx.fileOf id = lookup ctx.fileOf source

/-- The type-directed rule: only a method of type `ty` will do. -/
def resolveTyped (name : String) (ids : List NodeId) (ty : String) (ctx : LinkCtx) :
    EdgeTarget × Confidence :=
  match ids.filter (ownerIs ctx (normType ty)) with
  | [] => unresolved name
  | [only] => (.node only, .extracted)
  | first :: _ => (.node first, .ambiguous)

/-- Name deduction: a same-file definition first, then a cross-file one unless
the receiver is opaque. -/
def resolveNamed (name : String) (source : NodeId) (ids : List NodeId) (recvOpaque : Bool)
    (ctx : LinkCtx) : EdgeTarget × Confidence :=
  match ids.filter (sameFile ctx source), ids with
  | [only], _ => (.node only, .extracted)
  | first :: _, _ => (.node first, .ambiguous)
  | [], _ => if recvOpaque then unresolved name else
    match ids with
    | [only] => (.node only, .inferred)
    | first :: _ => (.node first, .ambiguous)
    | [] => unresolved name

/-- Resolve one reference `name` of `source` against its candidates: import
scope, then project scope, then the type-directed or the name rule. -/
def resolve (name : String) (source : NodeId) (candidates : Option (List NodeId))
    (typeHint : Option String) (recvOpaque allowCrossProject : Bool) (ctx : LinkCtx) :
    EdgeTarget × Confidence :=
  match importedDef ctx source name with
  | some d => (.node d, .extracted)
  | none =>
    let allIds := candidates.getD []
    let ids := if allowCrossProject then allIds else allIds.filter (sameProject ctx source)
    if ids = [] then unresolved name
    else match typeHint with
      | some ty => resolveTyped name ids ty ctx
      | none => resolveNamed name source ids recvOpaque ctx

/-- `resolve`, with several candidates of a workspace-qualified name narrowed to
the crate the qualifier names. -/
def resolveP0c (name : String) (source : NodeId) (candidates : Option (List NodeId))
    (typeHint : Option String) (recvOpaque allowCrossProject : Bool) (ctx : LinkCtx)
    (workspaceQualifier : Option String) : EdgeTarget × Confidence :=
  match workspaceQualifier, candidates with
  | some crateName, some cands =>
    if 1 < cands.length then
      match disambiguateByCrate cands crateName ctx with
      | some narrowed =>
        resolve name source (some narrowed) typeHint recvOpaque allowCrossProject ctx
      | none => unresolved name
    else resolve name source candidates typeHint recvOpaque allowCrossProject ctx
  | _, _ => resolve name source candidates typeHint recvOpaque allowCrossProject ctx

/-- The receiver type a reference resolves under and whether its receiver is
opaque: a deferred callee is read through its return type. -/
def receiver (candidates : BTreeMap String (List NodeId)) (ctx : LinkCtx) (r : Reference) :
    Option String × Bool :=
  match r.recvReturns with
  | some callee =>
    match returnTypeOf callee r.recvReturnsOwner r.source candidates ctx with
    | some ty => (some ty, false)
    | none => (none, true)
  | none => (r.typeHint, r.recvOpaque)

/-- The decline marker an opaque receiver leaves on an unresolved target. -/
def markOpaque (recvOpaque : Bool) : EdgeTarget → EdgeTarget
  | .symbol tref =>
      .symbol (if recvOpaque then { tref with hints := tref.hints.insert "recv" "opaque" } else tref)
  | .node id => .node id

/-- Resolve a single reference under one of its names to its linked edge. -/
def resolveRef (name : String) (r : Reference) (cands : Option (List NodeId))
    (candidates : BTreeMap String (List NodeId)) (allowCrossProject : Bool) (ctx : LinkCtx)
    (workspaceQualifier : Option String) : Edge :=
  let recv := receiver candidates ctx r
  let bound := resolveP0c name r.source cands recv.1 recv.2 allowCrossProject ctx workspaceQualifier
  { source := r.source
    relation := r.relation
    confidence := bound.2
    target := markOpaque recv.2 bound.1 }

/-- `name.split("::").last()`. -/
def lastSegment (name : String) : String := (Text.split name "::").getLast?.getD name

/-- Link one reference: under its own name when that has candidates, else, when
the name is workspace-qualified, under the stripped name, then its last segment,
then unqualified again. -/
def linkRef (candidates : BTreeMap String (List NodeId)) (ctx : LinkCtx) (name : String)
    (r : Reference) : Edge :=
  let cands := candidates[name]?
  let qualified := stripWorkspaceQualifier name ctx.workspace
  let plain := resolveRef name r cands candidates false ctx none
  match cands, qualified with
  | some _, _ => resolveRef name r cands candidates false ctx (qualified.map Prod.snd)
  | none, none => plain
  | none, some (stripped, crateName) =>
    let edge := resolveRef stripped r candidates[stripped]? candidates true ctx (some crateName)
    if edge.target.isNode then edge
    else if Text.contains stripped "::" then
      let last := lastSegment stripped
      let lastEdge := resolveRef last r candidates[last]? candidates true ctx none
      if lastEdge.target.isNode then lastEdge else plain
    else plain

/-- Resolve every reference, in name order and then list order. -/
def resolveAll (refsByName : BTreeMap String (List Reference))
    (candidates : BTreeMap String (List NodeId)) (ctx : LinkCtx) : List Edge :=
  (BTreeMap.pairs refsByName).map fun nr => linkRef candidates ctx nr.1 nr.2

/-! ### The impact set -/

/-- Which reference sites the scoped linker must re-resolve. -/
structure ImpactReport where
  full : Bool
  sites : BTreeMap NodeId (List String)
  dirtyNames : List String

/-- Is the reference site impacted (or is the whole apply full-impact)? -/
def ImpactReport.siteImpacted (i : ImpactReport) (source : NodeId) (relation : String) : Bool :=
  i.full || (i.sites[source]?).any fun rels => rels.contains relation

/-- Resolve the references whose site is in the impact set. -/
def resolveImpacted (refsByName : BTreeMap String (List Reference))
    (candidates : BTreeMap String (List NodeId)) (ctx : LinkCtx) (impact : ImpactReport) :
    List Edge :=
  ((BTreeMap.pairs refsByName).filter fun nr =>
    impact.siteImpacted nr.2.source nr.2.relation).map fun nr =>
      linkRef candidates ctx nr.1 nr.2

end Filigrio
