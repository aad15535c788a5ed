import Filigrio.Lib.Tally
import Filigrio.Core.Model

/-!
# Filigrio.Index.Driver

The extractor driver as far as node ids go: `mintId` gives every definition a provisional
id, `finalizeCollisions` rewrites the ids of definitions that share a name, in the nodes and
at both ends of the edges. A definition is described by what the syntax tree says of it, its
lines and its declaration text.
-/

namespace Filigrio.Index

/-! ### Ids -/

/-- FNV-1a, 32 bits of it as 8 hex digits. -/
def shortHash (s : String) : String :=
  let h : UInt64 := s.toUTF8.toList.foldl (fun h b => (h ^^^ b.toUInt64) * 0x100000001b3)
    0xcbf29ce484222325
  String.ofList ((Nat.toDigits 16 h.toUInt32.toNat).leftpad 8 '0')

example : shortHash "a" = "8601ec8c" := by decide +kernel

/-- A definition's id name: owner-qualified for a method, else the bare name. -/
def qualify (name : String) (owner : Option String) : String :=
  match owner with
  | some o => o ++ "::" ++ name
  | none => name

/-- The first part of an id. The extractors pass `fn`, `type`, `type_alias` and `variant`. -/
structure IdPrefix where
  text : String
  noColon : ':' ∉ text.toList
  notFile : text ≠ "file"

def variantPrefix : IdPrefix := ⟨"variant", by decide, by decide⟩

/-- The collision base `<prefix>:<path>:<name>`. -/
def baseOf (idPrefix : IdPrefix) (path name : String) : String :=
  idPrefix.text ++ ":" ++ path ++ ":" ++ name

/-- What is kept of a definition for the final pass, under its provisional id. -/
structure IdMeta where
  base : String
  decl : String
  deriving DecidableEq

/-! ### The driver -/

structure Driver where
  path : String
  fileId : NodeId
  nodes : List Node
  edges : List Edge
  exports : List Export
  seen : BTreeMap String ℕ
  idMeta : BTreeMap String IdMeta

/-- What the syntax tree says of a definition. -/
structure Decl where
  startLine : ℕ
  endLine : ℕ
  text : String

namespace Driver

/-- Start a fresh extraction: the `file` node, with its language. -/
def new (path language : String) : Driver where
  path := path
  fileId := ⟨"file:" ++ path⟩
  nodes :=
    [{ id := ⟨"file:" ++ path⟩
       label := path
       kind := "file"
       sourceFile := some path
       sourceSpan := none
       attrs := BTreeMap.insertAll ∅ [("language", language)] }]
  edges := []
  exports := []
  seen := ∅
  idMeta := ∅

/-- Mint a provisional id that is unique in the file. -/
def mintId (d : Driver) (idPrefix : IdPrefix) (name : String) : Driver × String :=
  let base := baseOf idPrefix d.path name
  let n := (d.seen[base]?).getD 0
  let id := if n = 0 then base else base ++ "~" ++ toString n
  ({ d with seen := d.seen.insert base (n + 1) }, id)

/-- A definition node, and the edge from `source` to it. -/
def addNode (d : Driver) (idPrefix : IdPrefix) (kind label qualified : String)
    (owner : Option String) (node : Decl) (source : NodeId) (relation : String) :
    Driver × NodeId :=
  let minted := d.mintId idPrefix qualified
  let d := minted.1
  let id := minted.2
  let n : Node :=
    { id := ⟨id⟩
      label := label
      kind := kind
      sourceFile := some d.path
      sourceSpan := some ⟨node.startLine, node.endLine⟩
      attrs := BTreeMap.insertAll ∅ (owner.toList.map fun o => ("impl", o)) }
  ({ d with
      idMeta := d.idMeta.insert id ⟨baseOf idPrefix d.path qualified, node.text⟩
      edges := d.edges ++
        [{ source := source, relation := relation, confidence := .extracted
           target := .node ⟨id⟩ }]
      nodes := d.nodes ++ [n] },
    ⟨id⟩)

/-- A definition and its `contains` edge. -/
def addDef (d : Driver) (idPrefix : IdPrefix) (kind name : String) (node : Decl)
    (container : NodeId) (owner : Option String) : Driver × NodeId :=
  d.addNode idPrefix kind name (qualify name owner) owner node container "contains"

/-- An enum variant and its `has_variant` edge. -/
def addVariant (d : Driver) (enumId : NodeId) (enumName variant : String) (node : Decl) :
    Driver × NodeId :=
  d.addNode variantPrefix "enum_variant" variant (qualify variant (some enumName)) (some enumName)
    node enumId "has_variant"

end Driver

/-! ### Collisions -/

/-- How many definitions have each base. -/
def countBases (idMeta : BTreeMap String IdMeta) : BTreeMap String ℕ :=
  BTreeMap.addAll ∅ (idMeta.values.map fun m => (m.base, 1))

/-- `while used.contains(&candidate)`: the hashed id, or the first free one of its ordinals. -/
def freeCandidate (used : Finset String) (hashed : String) : ℕ → ℕ → String → String
  | 0, _, candidate => candidate
  | fuel + 1, k, candidate =>
      if candidate ∈ used then
        freeCandidate used hashed fuel (k + 1) (hashed ++ "~" ++ toString k)
      else candidate

/-- The state of the loop over the nodes: new ids under the provisional ones. -/
structure Remap where
  remap : BTreeMap String String
  used : Finset String

/-- One node: a definition whose base is shared gets a hashed id. -/
def remapNode (idMeta : BTreeMap String IdMeta) (st : Remap) (n : Node) : Remap :=
  match idMeta[n.id.val]? with
  | none => st
  | some m =>
      if ((countBases idMeta)[m.base]?).getD 0 ≤ 1 then st
      else
        let hashed := m.base ++ "#" ++ shortHash m.decl
        let candidate := freeCandidate st.used hashed st.used.card 1 hashed
        { remap := st.remap.insert n.id.val candidate, used := insert candidate st.used }

/-- The new id of a node, where it has one. -/
def rename (remap : BTreeMap String String) (id : NodeId) : NodeId :=
  match remap[id.val]? with
  | some new => ⟨new⟩
  | none => id

def renameNode (remap : BTreeMap String String) (n : Node) : Node :=
  { n with id := rename remap n.id }

/-- Both ends of an edge. -/
def renameEdge (remap : BTreeMap String String) (e : Edge) : Edge :=
  { e with
    source := rename remap e.source
    target := match e.target with
      | .node t => .node (rename remap t)
      | .symbol s => .symbol s }

/-- Rewrite the ids of definitions that share their base. -/
def finalizeCollisions (nodes : List Node) (edges : List Edge)
    (idMeta : BTreeMap String IdMeta) : List Node × List Edge :=
  let remap := (nodes.foldl (remapNode idMeta) ⟨∅, ∅⟩).remap
  if remap.isEmpty then (nodes, edges)
  else (nodes.map (renameNode remap), edges.map (renameEdge remap))

/-- Finalize ids and assemble the extraction. -/
def Driver.finish (d : Driver) : Extraction :=
  let final := finalizeCollisions d.nodes d.edges d.idMeta
  { nodes := final.1, edges := final.2, exports := d.exports }

/-! ### A walk -/

/-- What a walk adds to the driver: definitions, variants, and other edges. -/
inductive Emit
  | definition (idPrefix : IdPrefix) (kind name : String) (node : Decl) (container : NodeId)
      (owner : Option String)
  | variant (enumId : NodeId) (enumName name : String) (node : Decl)
  | edge (e : Edge)

def Driver.emit (d : Driver) : Emit → Driver
  | .definition idPrefix kind name node container owner =>
      (d.addDef idPrefix kind name node container owner).1
  | .variant enumId enumName name node => (d.addVariant enumId enumName name node).1
  | .edge e => { d with edges := d.edges ++ [e] }

/-- The driver after a walk. -/
def walk (path language : String) (emits : List Emit) : Driver :=
  emits.foldl Driver.emit (Driver.new path language)

end Filigrio.Index
