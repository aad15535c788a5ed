import Filigrio.Resolve.Link

/-!
# Filigrio.Resolve.Projects

The physical stage: `maintainWorkspace` carries the prior projects and applies
the manifest changes of a changeset; `projectOverlay` projects the workspace into
visible graph nodes and edges.
-/

namespace Filigrio

variable {C : Type}

/-- The project a manifest declares: keyed by the manifest's directory. -/
def projectFrom (st : Stages C) (path base : String) (bytes : C) : Project :=
  let m := st.parse base bytes
  { root := dirOf path, manifest := base, name := m.name, entry := m.entry, deps := m.deps }

/-- Drop the project of every touched manifest. -/
def dropManifests (projects : BTreeMap String Project) (paths : List String) :
    BTreeMap String Project :=
  paths.foldl (fun m path =>
    if (manifestBasename path).isSome then m.erase (dirOf path) else m) projects

/-- Parse every manifest of `paths` and insert its project, from left to right. -/
def insertManifests (st : Stages C) (source : Source C) (projects : BTreeMap String Project)
    (paths : List String) : Except Error (BTreeMap String Project) :=
  paths.foldlM (fun m path =>
    match manifestBasename path with
    | none => pure m
    | some base => do
      let bytes ← source.read path
      pure (m.insert (dirOf path) (projectFrom st path base bytes))) projects

/-- Maintain the `Workspace` incrementally: a touched manifest drops its project,
an added or modified one re-parses it. -/
def maintainWorkspace (st : Stages C) (prior : Workspace) (changes : ChangeSet)
    (source : Source C) : Except Error Workspace := do
  let projects ← insertManifests st source (dropManifests prior.projects changes.touched)
    changes.toIndex
  pure ⟨projects⟩

/-- The id of a project's overlay node. -/
def pid (root : String) : NodeId := ⟨"project:" ++ root⟩

/-- The overlay node of one project. -/
def overlayNode (root : String) (p : Project) : Node :=
  let attrs : BTreeMap String String := BTreeMap.insertAll ∅
    ([("root", root), ("manifest", p.manifest)] ++ (p.name.map fun n => ("name", n)).toList)
  { id := pid root
    label := p.name.getD (if root = "" then "<root>" else root)
    kind := "project"
    sourceFile := none
    sourceSpan := none
    attrs := attrs }

/-- One `project` node per project. -/
def overlayNodes (ws : Workspace) : List Node :=
  ws.projects.toList.map fun rp => overlayNode rp.1 rp.2

/-- The project dependency graph. -/
def dependsOnEdges (ws : Workspace) : List Edge :=
  ws.dependsOn.toList.flatMap fun rd => rd.2.map fun dep =>
    { source := pid rd.1, relation := dependsOn, confidence := .extracted, target := .node (pid dep) }

/-- The `contains` edge from a file node's project to the file. -/
def containsEdge (ws : Workspace) (n : Node) : Option Edge :=
  if n.kind = "file" then
    (n.projectRoot ws).map fun root =>
      { source := pid root, relation := contains, confidence := .extracted, target := .node n.id }
  else none

/-- Project the `Workspace` into visible graph nodes and edges. -/
def projectOverlay (ws : Workspace) (symbolNodes : List Node) : List Node × List Edge :=
  (overlayNodes ws, dependsOnEdges ws ++ symbolNodes.filterMap (containsEdge ws))

end Filigrio
