import Filigrio.Ledger.Basic

/-!
# Filigrio.Ledger.Sample

A concrete tree to run the engine on: every code file holds one definition, with
the references and exports its content lists. The extractor follows the shape of
the real ones (a `file` node that `contains` the definition, ids made of a kind
and the path) and has all the properties the engine relies on.
-/

namespace Filigrio

/-- The content of a sample file: one labelled definition. -/
structure Snippet where
  label : String
  attrs : List (String × String)
  /-- `(relation, name, hints)` of each reference. -/
  refs : List (String × String × List (String × String))
  exports : List Export

namespace Snippet

/-- The id of a sample file's definition. -/
def defId (path : String) : NodeId := ⟨"function:" ++ path⟩

/-- The id of a sample file. -/
def fileId (path : String) : NodeId := ⟨"file:" ++ path⟩

/-- The definition of a file, under a given id and kind. -/
def defNode (id : String → NodeId) (kind : String → String) (path : String) (s : Snippet) :
    Node where
  id := id path
  label := s.label
  kind := kind path
  sourceFile := some path
  sourceSpan := none
  attrs := BTreeMap.insertAll ∅ s.attrs

def fileNode (path : String) : Node where
  id := fileId path
  label := path
  kind := "file"
  sourceFile := some path
  sourceSpan := none
  attrs := ∅

/-- A reference, from the node `src`. -/
def refEdge (src : String → NodeId) (path : String)
    (r : String × String × List (String × String)) : Edge where
  source := src path
  relation := r.1
  confidence := .extracted
  target := .symbol ⟨r.2.1, BTreeMap.insertAll ∅ r.2.2⟩

/-- The `contains` edge from a file to its definition. -/
def containsDef (id : String → NodeId) (path : String) : Edge :=
  { source := fileId path, relation := contains, confidence := .extracted, target := .node (id path) }

/-- The extraction of a sample file. -/
def extraction (id src : String → NodeId) (kind : String → String) (path : String) (s : Snippet) :
    Extraction where
  nodes := [fileNode path, defNode id kind path s]
  edges := containsDef id path :: s.refs.map (refEdge src path)
  exports := s.exports

/-- The extractor of sample files: `id` and `kind` are those of the definitions,
`src` is the node a file's references start at. -/
def extractorWith (id src : String → NodeId) (kind : String → String) : Extractor Snippet where
  handles a := a.kind = .code
  extract a s := .ok (extraction id src kind a.path s)

def extractor : Extractor Snippet := extractorWith defId defId fun _ => "function"

/-- A source that holds exactly the listed files. -/
def source (tree : List (String × Snippet)) : Source Snippet where
  «exists» p := (tree.lookup p).isSome
  read p := match tree.lookup p with
    | some s => .ok s
    | none => .error (.notFound p)
  inScope _ := true
  oxc := none

/-- A definition without references or exports. -/
def plain (label : String) : Snippet := ⟨label, [], [], []⟩

/-- A definition that calls one name. -/
def caller (name : String) : Snippet := ⟨"main", [], [(calls, name, [])], []⟩

/-- A manifest's package name is its label; clustering keeps the partition. -/
def stages : Stages Snippet where
  parse _ s := ⟨some s.label, none, []⟩
  clusterWith _ _ p := .ok p

/-! ### The sample extractor has the properties the engine relies on -/

theorem defId_injective : Function.Injective defId := fun p p' h => by
  have hval : "function:" ++ p = "function:" ++ p' := congrArg NodeId.val h
  simpa using hval

theorem fileId_injective : Function.Injective fileId := fun p p' h => by
  have hval : "file:" ++ p = "file:" ++ p' := congrArg NodeId.val h
  simpa using hval

/-- Ids with different first letters differ. -/
theorem defId_ne_fileId (p p' : String) : defId p ≠ fileId p' := fun h => by
  have hval : ("function:" ++ p).toList = ("file:" ++ p').toList :=
    congrArg (fun i => i.val.toList) h
  simp [String.toList_append] at hval

theorem ne_pid (p root : String) : defId p ≠ pid root ∧ fileId p ≠ pid root := by
  refine ⟨fun h => ?_, fun h => ?_⟩ <;>
  · have hval := congrArg (fun i => i.val.toList) h
    simp [defId, fileId, pid, String.toList_append] at hval

/-- The extractor yields extractions of sample files only. -/
def Extracts {D : Type} (ex : Extractor D) (id src : String → NodeId) (kind : String → String) :
    Prop :=
  ∀ {p x}, ex.Yields p x → ∃ s, x = extraction id src kind p s

theorem extracts {id src : String → NodeId} {kind : String → String} :
    Extracts (extractorWith id src kind) id src kind := by
  rintro p x ⟨-, s, hs⟩
  exact ⟨s, (Except.ok.inj hs).symm⟩

section Properties

variable {D : Type} {ex : Extractor D} {id src : String → NodeId} {kind : String → String}
  {p : String} {x : Extraction} {s : Snippet}

theorem mem_nodes {n : Node} :
    n ∈ (extraction id src kind p s).nodes ↔ n = fileNode p ∨ n = defNode id kind p s := by
  simp only [extraction, List.mem_cons, List.not_mem_nil, or_false]

theorem mem_edges {e : Edge} : e ∈ (extraction id src kind p s).edges ↔
    e = containsDef id p ∨ ∃ r ∈ s.refs, refEdge src p r = e := by
  simp only [extraction, List.mem_cons, List.mem_map]

theorem Extracts.sourcesInside (h : Extracts ex id src kind)
    (hsrc : ∀ p, src p = id p ∨ src p = fileId p) (hy : ex.Yields p x) {e : Edge}
    (he : e ∈ x.edges) : e.source ∈ x.nodes.map Node.id := by
  obtain ⟨s, rfl⟩ := h hy
  rcases mem_edges.mp he with rfl | ⟨r, -, rfl⟩
  · exact List.mem_map.mpr ⟨_, mem_nodes.mpr (Or.inl rfl), rfl⟩
  · rcases hsrc p with h | h
    · exact List.mem_map.mpr ⟨_, mem_nodes.mpr (Or.inr rfl), h.symm⟩
    · exact List.mem_map.mpr ⟨_, mem_nodes.mpr (Or.inl rfl), h.symm⟩

theorem Extracts.unmixed (h : Extracts ex id src kind) (hsrc : ∀ p, src p ≠ fileId p) :
    ex.Unmixed := by
  intro p x e e' hy he he' hsite
  have hsource : e.source = e'.source := congrArg (fun s => (ofLex s).1) hsite
  obtain ⟨s, rfl⟩ := h hy
  rcases mem_edges.mp he with rfl | ⟨r, -, rfl⟩ <;> rcases mem_edges.mp he' with rfl | ⟨r', -, rfl⟩
  · rfl
  · exact absurd hsource.symm (hsrc p)
  · exact absurd hsource (hsrc p)
  · rfl

/-- Definitions with ids of their own keep the extractor per-file. -/
theorem Extracts.perFile (h : Extracts ex defId src kind)
    (hsrc : ∀ p, src p = defId p ∨ src p = fileId p) : ex.PerFile where
  sourceFile hy hn := by
    obtain ⟨s, rfl⟩ := h hy
    rcases mem_nodes.mp hn with rfl | rfl <;> rfl
  ids hy hy' hn hn' hid := by
    obtain ⟨s, rfl⟩ := h hy
    obtain ⟨s', rfl⟩ := h hy'
    rcases mem_nodes.mp hn with rfl | rfl <;> rcases mem_nodes.mp hn' with rfl | rfl
    · exact fileId_injective hid
    · exact absurd hid.symm (defId_ne_fileId _ _)
    · exact absurd hid (defId_ne_fileId _ _)
    · exact defId_injective hid
  sources hy he := h.sourcesInside hsrc hy he

theorem Extracts.noOverlay (h : Extracts ex defId src fun _ => "function") : ex.NoOverlay where
  kind hy hn := by
    obtain ⟨s, rfl⟩ := h hy
    rcases mem_nodes.mp hn with rfl | rfl <;> rfl
  ids {p} _ _ hy hn root := by
    obtain ⟨s, rfl⟩ := h hy
    rcases mem_nodes.mp hn with rfl | rfl
    · exact (ne_pid p root).2
    · exact (ne_pid p root).1

theorem Extracts.uniqueIds (h : Extracts ex defId src kind) : ex.UniqueIds := by
  intro p x hy
  obtain ⟨s, rfl⟩ := h hy
  have hne : fileId p ≠ defId p := (defId_ne_fileId p p).symm
  simpa [extraction, fileNode, defNode] using hne

theorem Extracts.targetsInside (h : Extracts ex id src kind) : ex.TargetsInside := by
  intro p x e t hy he htarget
  obtain ⟨s, rfl⟩ := h hy
  rcases mem_edges.mp he with rfl | ⟨r, -, rfl⟩
  · cases htarget
    exact List.mem_map.mpr ⟨_, mem_nodes.mpr (Or.inr rfl), rfl⟩
  · cases htarget

end Properties

theorem perFile : extractor.PerFile := extracts.perFile fun _ => Or.inl rfl

theorem noOverlay : extractor.NoOverlay := extracts.noOverlay

theorem unmixed : extractor.Unmixed := extracts.unmixed fun p => defId_ne_fileId p p

theorem uniqueIds : extractor.UniqueIds := extracts.uniqueIds

theorem targetsInside : extractor.TargetsInside := extracts.targetsInside

end Snippet

end Filigrio
