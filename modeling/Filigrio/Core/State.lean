import Filigrio.Core.Model

/-!
# Filigrio.Core.State

The incremental engine state: `GraphState` is what a store keeps between
applies, `GraphDelta` is the patch one apply emits. The indices beside the graph
(reverse index, exports, symbol table, workspace, manifest) are ordered maps.
-/

namespace Filigrio

/-- `{ added, modified, removed }` paths: the input to the engine. -/
structure ChangeSet where
  added : List String
  modified : List String
  removed : List String
  deriving DecidableEq, Repr

namespace ChangeSet

/-- The cold-build shape: the whole tree as all-added. -/
def allAdded (paths : List String) : ChangeSet := ⟨paths, [], []⟩

/-- Paths that must be (re)indexed: added, then modified. -/
def toIndex (c : ChangeSet) : List String := c.added ++ c.modified

/-- Every path named in the changeset. -/
def touched (c : ChangeSet) : List String := c.added ++ c.modified ++ c.removed

/-- `added`, `modified` and `removed` are all empty. -/
def isEmpty (c : ChangeSet) : Bool := c.added.isEmpty && c.modified.isEmpty && c.removed.isEmpty

theorem mem_touched {c : ChangeSet} {p : String} :
    p ∈ c.touched ↔ p ∈ c.toIndex ∨ p ∈ c.removed := by
  simp only [touched, toIndex, List.mem_append]

end ChangeSet

/-- What the manifest keeps per file. The engine writes `revision := none` always. -/
structure ManifestEntry where
  hash : ℕ
  lastModified : Option ℕ
  revision : Option String
  deriving DecidableEq, Repr

/-- path → content hash and last processed revision; drives change detection. -/
structure Manifest where
  entries : BTreeMap String ManifestEntry
  deriving DecidableEq

structure CommunityMeta where
  id : ℕ
  label : String
  size : ℕ
  cohesionPermille : ℕ
  deriving DecidableEq, Repr

/-- node → community assignment plus community metadata. -/
structure Partition where
  nodeCommunity : BTreeMap NodeId ℕ
  communities : BTreeMap ℕ CommunityMeta
  deriving DecidableEq

/-- symbol name → defining node. -/
structure SymbolTable where
  defs : BTreeMap String NodeId
  deriving DecidableEq

/-- One project: the directory of a package or module manifest. -/
structure Project where
  root : String
  manifest : String
  name : Option String
  entry : Option String
  deps : List String
  deriving DecidableEq, Repr

/-- The repository structure: the set of projects, keyed by root. -/
structure Workspace where
  projects : BTreeMap String Project
  deriving DecidableEq

/-- One reference: the `source` node that names a symbol via `relation`, with
everything needed to resolve it again. -/
structure Reference where
  source : NodeId
  relation : String
  typeHint : Option String
  specifier : Option String
  imported : Option String
  recvOpaque : Bool
  recvReturns : Option String
  recvReturnsOwner : Option String
  deriving DecidableEq, Repr

namespace Reference

/-- The site a reference stands at. -/
def site (r : Reference) : Site := toLex (r.source, r.relation)

/-- The fields in declaration order, compared lexicographically (`None` before `Some`). -/
def key (r : Reference) :
    NodeId ×ₗ String ×ₗ WithBot String ×ₗ WithBot String ×ₗ WithBot String ×ₗ Bool ×ₗ
      WithBot String ×ₗ WithBot String :=
  toLex (r.source, toLex (r.relation, toLex (r.typeHint, toLex (r.specifier,
    toLex (r.imported, toLex (r.recvOpaque, toLex (r.recvReturns, r.recvReturnsOwner)))))))

theorem key_injective : Function.Injective key := by
  rintro ⟨⟩ ⟨⟩ h
  obtain ⟨h1, h⟩ := Prod.mk.inj (toLex.injective h)
  obtain ⟨h2, h⟩ := Prod.mk.inj (toLex.injective h)
  obtain ⟨h3, h⟩ := Prod.mk.inj (toLex.injective h)
  obtain ⟨h4, h⟩ := Prod.mk.inj (toLex.injective h)
  obtain ⟨h5, h⟩ := Prod.mk.inj (toLex.injective h)
  obtain ⟨h6, h⟩ := Prod.mk.inj (toLex.injective h)
  obtain ⟨h7, h8⟩ := Prod.mk.inj (toLex.injective h)
  simp only [Reference.mk.injEq]
  exact ⟨h1, h2, h3, h4, h5, h6, h7, h8⟩

/-- `derive(Ord)`. -/
instance : LinearOrder Reference := LinearOrder.lift' key key_injective

end Reference

/-- symbol name → every reference to it. -/
structure ReverseIndex where
  refs : BTreeMap String (List Reference)
  deriving DecidableEq

/-- file path → the file's export table. -/
structure ExportIndex where
  byFile : BTreeMap String (List Export)
  deriving DecidableEq

/-- The candidate definitions a symbol name resolves against. -/
structure SymbolDefs where
  nodes : List NodeId
  modules : List String
  deriving DecidableEq, Repr

/-- symbol name → its candidate definitions and defining modules. -/
structure SymbolIndex where
  byName : BTreeMap String SymbolDefs
  deriving DecidableEq

structure Graph where
  nodes : List Node
  edges : List Edge
  deriving DecidableEq

/-- The full persisted bundle. -/
structure GraphState where
  graph : Graph
  partition : Partition
  symbols : SymbolTable
  reverse : ReverseIndex
  manifest : Manifest
  workspace : Workspace
  exports : ExportIndex
  symbolIndex : SymbolIndex
  deriving DecidableEq

/-- `GraphState::default()`: the state of a project that was never indexed. -/
def GraphState.empty : GraphState where
  graph := ⟨[], []⟩
  partition := ⟨∅, ∅⟩
  symbols := ⟨∅⟩
  reverse := ⟨∅⟩
  manifest := ⟨∅⟩
  workspace := ⟨∅⟩
  exports := ⟨∅⟩
  symbolIndex := ⟨∅⟩

/-- The patch one apply emits: nodes, edges and `reverse` as remove-then-append,
the remaining facets wholesale. -/
structure GraphDelta where
  nodesAdded : List Node
  nodesRemoved : List NodeId
  edgesAdded : List Edge
  edgesRemoved : List Edge
  dirtyFiles : List String
  partition : Partition
  symbols : SymbolTable
  reverseDropped : List NodeId
  reverseAdded : List (String × Reference)
  manifest : Manifest
  workspace : Workspace
  exports : ExportIndex
  symbolIndex : SymbolIndex
  affected : ℕ
  vanished : ℕ
  deriving DecidableEq

end Filigrio
