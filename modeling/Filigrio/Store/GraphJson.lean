import Filigrio.Core.Ports
import Filigrio.Core.Span
import Filigrio.Core.State
import Filigrio.Lib.Json
import Filigrio.Lib.Utf8

/-!
# Filigrio.Store.GraphJson

`graph.json`, the interchange format: `export` writes the graph as nodes and edges, `import`
takes such a document, its own or a foreign one. What is exported is imported as it was; a
foreign document is imported as what its export says, unless a location in it reads as a span
that ends before it starts (`interchange_iff`).
-/

namespace Filigrio.GraphJson

open Json (Members)

/-- Reserved top-level node keys: everything else round-trips through `attrs`. -/
def coreKeys : List String :=
  ["id", "label", "kind", "source_file", "source_location", "community"]

/-! ### Export -/

def coreMembers (n : Node) (partition : Partition) : Members :=
  let m := IndexMap.insert [] "id" (.string n.id.val)
  let m := IndexMap.insert m "label" (.string n.label)
  let m := IndexMap.insert m "kind" (.string n.kind)
  let m := match n.sourceFile with
    | some f => IndexMap.insert m "source_file" (.string f)
    | none => m
  let m := if n.sourceSpan.isSome then IndexMap.insert m "source_location" (.string n.loc) else m
  match partition.nodeCommunity[n.id]? with
  | some c => IndexMap.insert m "community" (.number (.posInt c))
  | none => m

def attrMembers (n : Node) : Members := n.attrs.toList.map fun kv => (kv.1, .string kv.2)

def nodeToJson (n : Node) (partition : Partition) : Json :=
  .object ((attrMembers n).foldl (fun m kv => IndexMap.insertIfNew m kv.1 kv.2)
    (coreMembers n partition))

def confidenceToJson : Confidence → Json
  | .extracted => .string "EXTRACTED"
  | .inferred => .string "INFERRED"
  | .ambiguous => .string "AMBIGUOUS"

/-- A still unresolved edge carries the name of its symbol. -/
def edgeToJson (e : Edge) : Json :=
  let target := match e.target with
    | .node t => t.val
    | .symbol r => r.name
  .object [("source", .string e.source.val), ("target", .string target),
    ("relation", .string e.relation), ("confidence", confidenceToJson e.confidence)]

def «export» (state : GraphState) : Json :=
  .object [("nodes", .array (state.graph.nodes.map fun n => nodeToJson n state.partition)),
    ("edges", .array (state.graph.edges.map edgeToJson))]

/-! ### Import -/

/-- `from_value::<Confidence>`: the name, or an object with null under the name. -/
def confidenceOf : Json → Option Confidence
  | .string s | .object [(s, .null)] =>
      if s = "EXTRACTED" then some .extracted
      else if s = "INFERRED" then some .inferred
      else if s = "AMBIGUOUS" then some .ambiguous
      else none
  | _ => none

def requireStr (v : Json) (key message : String) : Except Error String :=
  match (v.index key).asStr with
  | some s => .ok s
  | none => .error (.parse message)

/-- The string members that are no core key. -/
def attrsOf : Json → List (String × String)
  | .object m => m.filterMap fun kv =>
      if kv.1 ∈ coreKeys then none else kv.2.asStr.map fun s => (kv.1, s)
  | _ => []

def importNode (nv : Json) : Except Error (Node × Option ℕ) := do
  let id ← requireStr nv "id" "graph.json: node without `id`"
  return (
    { id := ⟨id⟩
      label := (nv.index "label").asStr.getD id
      kind := (nv.index "kind").asStr.getD "concept"
      sourceFile := (nv.index "source_file").asStr
      sourceSpan := (nv.index "source_location").asStr.bind Span.parse
      attrs := BTreeMap.insertAll ∅ (attrsOf nv) },
    (nv.index "community").asU64)

def importEdge (ev : Json) : Except Error Edge := do
  let source ← requireStr ev "source" "graph.json: edge without `source`"
  let target ← requireStr ev "target" "graph.json: edge without `target`"
  return {
    source := ⟨source⟩
    relation := (ev.index "relation").asStr.getD "relates"
    confidence := ((ev.get? "confidence").bind confidenceOf).getD .extracted
    target := .node ⟨target⟩ }

def nodeValues (v : Json) : Except Error (List Json) :=
  match (v.index "nodes").asArray with
  | some items => .ok items
  | none => .error (.parse "graph.json: missing `nodes` array")

/-- Under `edges`, or else under `links`. -/
def edgeValues (v : Json) : List Json :=
  (((v.get? "edges").or (v.get? "links")).bind Json.asArray).getD []

/-- The communities, where a node has one; the last of an id wins. -/
def communities (read : List (Node × Option ℕ)) : BTreeMap NodeId ℕ :=
  BTreeMap.insertAll ∅ (read.filterMap fun nc => nc.2.map fun c => (nc.1.id, c))

def importValue (v : Json) : Except Error GraphState := do
  let items ← nodeValues v
  let read ← items.mapM importNode
  let edges ← (edgeValues v).mapM importEdge
  return { GraphState.empty with
    graph := ⟨read.map Prod.fst, edges⟩
    partition := ⟨communities read, ∅⟩ }

/-- `serde_json`: bytes as a value, with the message of an error, and a value as bytes. -/
structure Serde where
  fromSlice : List UInt8 → Except String Json
  toVec : Json → List UInt8

/-- What is written is read back. -/
def Serde.ReadsBack (serde : Serde) (v : Json) : Prop := serde.fromSlice (serde.toVec v) = .ok v

def «import» (serde : Serde) (bytes : List UInt8) : Except Error GraphState :=
  match serde.fromSlice bytes with
  | .error message => .error (.parse message)
  | .ok v => importValue v

/-! ### Reading lists -/

theorem mapM_ok {α β : Type} {f : α → Except Error β} {g : α → β} {l : List α}
    (h : ∀ a ∈ l, f a = .ok (g a)) : l.mapM f = .ok (l.map g) := by
  induction l with
  | nil => rfl
  | cons a l ih =>
      rw [List.mapM_cons, h a List.mem_cons_self, ih fun b hb => h b (List.mem_cons_of_mem a hb)]
      rfl

/-- What is read, is read from an item, and every item is read. -/
theorem mapM_eq_ok {α β : Type} {f : α → Except Error β} {l : List α} {out : List β}
    (h : l.mapM f = .ok out) :
    (∀ b ∈ out, ∃ a ∈ l, f a = .ok b) ∧ ∀ a ∈ l, ∃ b ∈ out, f a = .ok b := by
  induction l generalizing out with
  | nil =>
      cases h
      simp
  | cons a l ih =>
      rw [List.mapM_cons] at h
      obtain ⟨b, hb, h⟩ := bind_eq_ok.mp h
      obtain ⟨rest, hrest, h⟩ := bind_eq_ok.mp h
      cases h
      obtain ⟨hout, hin⟩ := ih hrest
      constructor
      · intro b' hb'
        rcases List.mem_cons.mp hb' with rfl | hb'
        · exact ⟨a, List.mem_cons_self, hb⟩
        · obtain ⟨a', ha', hread⟩ := hout b' hb'
          exact ⟨a', List.mem_cons_of_mem a ha', hread⟩
      · intro a' ha'
        rcases List.mem_cons.mp ha' with rfl | ha'
        · exact ⟨b, List.mem_cons_self, hb⟩
        · obtain ⟨b', hb', hread⟩ := hin a' ha'
          exact ⟨b', List.mem_cons_of_mem b hb', hread⟩

/-! ### One node -/

section Node

variable {n : Node} {partition : Partition}

/-- No attribute is named like a core key. -/
def PlainAttrs (n : Node) : Prop := ∀ k ∈ coreKeys, n.attrs[k]? = none

/-- The numbers of a span are 32-bit ones. -/
def SpanInRange (n : Node) : Prop :=
  ∀ sp, n.sourceSpan = some sp → sp.start < 2 ^ 32 ∧ sp.stop < 2 ^ 32

/-- A node as it is imported again: a span does not end before it starts. -/
def readBack (n : Node) : Node :=
  { n with sourceSpan := n.sourceSpan.map fun sp => ⟨sp.start, max sp.start sp.stop⟩ }

theorem coreMembers_eq (n : Node) (partition : Partition) :
    coreMembers n partition =
      [("id", .string n.id.val), ("label", .string n.label), ("kind", .string n.kind)]
      ++ (n.sourceFile.map fun f => ("source_file", Json.string f)).toList
      ++ (n.sourceSpan.map fun _ => ("source_location", Json.string n.loc)).toList
      ++ (partition.nodeCommunity[n.id]?.map fun c =>
          ("community", Json.number (.posInt c))).toList := by
  unfold coreMembers
  cases n.sourceFile <;> cases n.sourceSpan <;> cases partition.nodeCommunity[n.id]? <;> rfl

theorem keys_coreMembers (n : Node) (partition : Partition) :
    ∀ k ∈ IndexMap.keys (coreMembers n partition), k ∈ coreKeys := by
  rw [coreMembers_eq]
  cases n.sourceFile <;> cases n.sourceSpan <;> cases partition.nodeCommunity[n.id]? <;>
    simp [coreKeys]

theorem keys_attrMembers (n : Node) : IndexMap.keys (attrMembers n) = n.attrs.keys := by
  rw [IndexMap.keys, attrMembers, List.map_map, ← Std.ExtTreeMap.map_fst_toList_eq_keys]
  rfl

theorem PlainAttrs.notMem_keys (h : PlainAttrs n) {k : String} (hk : k ∈ coreKeys) :
    k ∉ n.attrs.keys := by
  rw [Std.ExtTreeMap.mem_keys, ← Std.ExtTreeMap.isSome_getElem?_iff_mem, h k hk]
  simp

theorem foldl_attrMembers (h : PlainAttrs n) :
    (attrMembers n).foldl (fun m kv => IndexMap.insertIfNew m kv.1 kv.2)
      (coreMembers n partition) = coreMembers n partition ++ attrMembers n := by
  refine IndexMap.foldl_insertIfNew ?_ fun k hk hcore => ?_
  · rw [keys_attrMembers]
    exact Std.ExtTreeMap.nodup_keys
  · rw [keys_attrMembers] at hk
    exact h.notMem_keys (keys_coreMembers n partition k hcore) hk

/-- At a core key stands the core member. -/
theorem get?_nodeToJson (h : PlainAttrs n) {k : String} (hk : k ∈ coreKeys) :
    (nodeToJson n partition).get? k = IndexMap.get (coreMembers n partition) k := by
  have hattr : IndexMap.get (attrMembers n) k = none := by
    rw [IndexMap.get_eq_none_iff, keys_attrMembers]
    exact h.notMem_keys hk
  rw [nodeToJson, foldl_attrMembers h, Json.get?, IndexMap.get_append, hattr, Option.or_none]

theorem attrsOf_nodeToJson (h : PlainAttrs n) :
    attrsOf (nodeToJson n partition) = n.attrs.toList := by
  rw [nodeToJson, foldl_attrMembers h, attrsOf, List.filterMap_append]
  have hcore : (coreMembers n partition).filterMap (fun kv =>
      if kv.1 ∈ coreKeys then none else kv.2.asStr.map fun s => (kv.1, s)) = [] := by
    refine List.filterMap_eq_nil_iff.mpr fun kv hkv => ?_
    rw [if_pos (keys_coreMembers n partition kv.1 (List.mem_map_of_mem hkv))]
  rw [hcore, List.nil_append, attrMembers, List.filterMap_map]
  refine (List.filterMap_congr (g := some) fun kv hkv => ?_).trans List.filterMap_some
  have hkey : kv.1 ∉ coreKeys := by
    intro hmem
    refine h.notMem_keys hmem ?_
    rw [← Std.ExtTreeMap.map_fst_toList_eq_keys]
    exact List.mem_map_of_mem hkv
  simp [hkey, Json.asStr]

theorem insertAll_toList (m : BTreeMap String String) : BTreeMap.insertAll ∅ m.toList = m := by
  refine BTreeMap.ext_get fun k => ?_
  rw [BTreeMap.get_insertAll_toList, Std.ExtTreeMap.getElem?_empty, Option.or_none]

/-- An exported node is imported as it was, but for a span that ends before it starts. -/
theorem importNode_nodeToJson (h : PlainAttrs n) (hspan : SpanInRange n) :
    importNode (nodeToJson n partition) = .ok (readBack n, partition.nodeCommunity[n.id]?) := by
  have hindex : ∀ k ∈ coreKeys, (nodeToJson n partition).index k
      = (IndexMap.get (coreMembers n partition) k).getD .null := by
    intro k hk
    rw [Json.index, get?_nodeToJson h hk]
  have hloc : ∀ sp, n.sourceSpan = some sp →
      Span.parse n.loc = some ⟨sp.start, max sp.start sp.stop⟩ := by
    intro sp hsp
    rw [Node.loc, hsp]
    exact Span.parse_render (hspan sp hsp).1 (hspan sp hsp).2
  rw [importNode, requireStr, hindex "id" (by decide), hindex "label" (by decide),
    hindex "kind" (by decide), hindex "source_file" (by decide),
    hindex "source_location" (by decide), hindex "community" (by decide),
    attrsOf_nodeToJson h, insertAll_toList, coreMembers_eq, readBack]
  cases hfile : n.sourceFile <;> cases hsp : n.sourceSpan <;>
    cases hcomm : partition.nodeCommunity[n.id]? <;>
    simp [IndexMap.get_cons, Json.asStr, Json.asU64, pure, Except.pure, bind, Except.bind,
      hloc, hsp]

theorem readBack_eq_iff :
    readBack n = n ↔ ∀ sp, n.sourceSpan = some sp → sp.start ≤ sp.stop := by
  obtain ⟨id, label, kind, file, span, attrs⟩ := n
  cases span with
  | none => simp [readBack]
  | some sp =>
      obtain ⟨start, stop⟩ := sp
      simp [readBack]

end Node

theorem importEdge_edgeToJson {e : Edge} (h : e.target.isNode) :
    importEdge (edgeToJson e) = .ok e := by
  obtain ⟨source, relation, confidence, target⟩ := e
  cases target with
  | symbol ref => cases h
  | node id => cases confidence <;> rfl

/-! ### A whole state -/

section State

variable {state : GraphState}

/-- What the format keeps of a state. -/
structure Exportable (state : GraphState) : Prop where
  attrs : ∀ n ∈ state.graph.nodes, PlainAttrs n
  spans : ∀ n ∈ state.graph.nodes, SpanInRange n
  resolved : ∀ e ∈ state.graph.edges, e.target.isNode

/-- What is imported is the nodes and the edges that are read, and nothing else. -/
theorem importValue_eq_ok {v : Json} {s : GraphState} : importValue v = .ok s
    ↔ ∃ items read edges, nodeValues v = .ok items ∧ items.mapM importNode = .ok read
      ∧ (edgeValues v).mapM importEdge = .ok edges
      ∧ s = { GraphState.empty with
          graph := ⟨read.map Prod.fst, edges⟩
          partition := ⟨communities read, ∅⟩ } := by
  constructor
  · intro h
    obtain ⟨items, hitems, h⟩ := bind_eq_ok.mp h
    obtain ⟨read, hread, h⟩ := bind_eq_ok.mp h
    obtain ⟨edges, hedges, h⟩ := bind_eq_ok.mp h
    exact ⟨items, read, edges, hitems, hread, hedges, (Except.ok.inj h).symm⟩
  · intro ⟨items, read, edges, hitems, hread, hedges, hs⟩
    rw [hs]
    exact bind_eq_ok.mpr ⟨items, hitems, bind_eq_ok.mpr ⟨read, hread,
      bind_eq_ok.mpr ⟨edges, hedges, rfl⟩⟩⟩

/-- The communities of the nodes, as a map of its own. -/
def nodeCommunities (state : GraphState) : BTreeMap NodeId ℕ :=
  communities (state.graph.nodes.map fun n => (readBack n, state.partition.nodeCommunity[n.id]?))

theorem importValue_export (h : Exportable state) :
    importValue («export» state) = .ok { GraphState.empty with
      graph := ⟨state.graph.nodes.map readBack, state.graph.edges⟩
      partition := ⟨nodeCommunities state, ∅⟩ } := by
  have hnodes : (state.graph.nodes.map fun n => nodeToJson n state.partition).mapM importNode
      = .ok (state.graph.nodes.map fun n =>
          (readBack n, state.partition.nodeCommunity[n.id]?)) := by
    rw [List.mapM_map]
    exact mapM_ok fun n hn => importNode_nodeToJson (h.attrs n hn) (h.spans n hn)
  have hedges : (state.graph.edges.map edgeToJson).mapM importEdge
      = .ok (state.graph.edges.map id) := by
    rw [List.mapM_map]
    exact mapM_ok fun e he => importEdge_edgeToJson (h.resolved e he)
  rw [List.map_id] at hedges
  refine importValue_eq_ok.mpr ⟨_, _, _, rfl, hnodes, hedges, ?_⟩
  rw [List.map_map]
  rfl

theorem get_communities {read : List (Node × Option ℕ)} {m : BTreeMap NodeId ℕ}
    (h : ∀ nc ∈ read, nc.2 = m[nc.1.id]?) (k : NodeId) :
    (communities read)[k]? = if k ∈ read.map (fun nc => nc.1.id) then m[k]? else none := by
  have hpairs : ∀ p ∈ read.filterMap (fun nc => nc.2.map fun c => (nc.1.id, c)),
      m[p.1]? = some p.2 := by
    intro p hp
    obtain ⟨nc, hnc, hp⟩ := List.mem_filterMap.mp hp
    obtain ⟨c, hc, rfl⟩ := Option.map_eq_some_iff.mp hp
    rw [← h nc hnc, hc]
  rw [communities, BTreeMap.get_insertAll_of_agree hpairs]
  by_cases hk : k ∈ read.map fun nc => nc.1.id
  · rw [if_pos hk]
    split
    · rfl
    · rename_i hnot
      obtain ⟨nc, hnc, rfl⟩ := List.mem_map.mp hk
      cases hm : m[nc.1.id]? with
      | none => rfl
      | some c =>
          refine absurd (List.mem_map.mpr ⟨(nc.1.id, c), ?_, rfl⟩) hnot
          exact List.mem_filterMap.mpr ⟨nc, hnc, by rw [h nc hnc, hm]; rfl⟩
  · rw [if_neg hk, if_neg]
    intro hmem
    obtain ⟨p, hp, rfl⟩ := List.mem_map.mp hmem
    obtain ⟨nc, hnc, hp⟩ := List.mem_filterMap.mp hp
    obtain ⟨c, hc, rfl⟩ := Option.map_eq_some_iff.mp hp
    exact hk (List.mem_map.mpr ⟨nc, hnc, rfl⟩)

theorem get_nodeCommunities (k : NodeId) : (nodeCommunities state)[k]?
    = if k ∈ state.graph.nodes.map Node.id then state.partition.nodeCommunity[k]? else none := by
  rw [nodeCommunities, get_communities (m := state.partition.nodeCommunity), List.map_map]
  · rfl
  · intro nc hnc
    obtain ⟨n, -, rfl⟩ := List.mem_map.mp hnc
    rfl

end State

/-! ### What was imported -/

/-- No location in the document reads as a span that ends before it starts. -/
def LocationsForward (v : Json) : Prop :=
  ∀ items, (v.index "nodes").asArray = some items → ∀ nv ∈ items, ∀ text sp,
    (nv.index "source_location").asStr = some text → Span.parse text = some sp →
    sp.start ≤ sp.stop

section Imported

variable {v : Json} {state : GraphState}

theorem importNode_spec {nv : Json} {nc : Node × Option ℕ} (h : importNode nv = .ok nc) :
    PlainAttrs nc.1 ∧ SpanInRange nc.1
      ∧ nc.1.sourceSpan = (nv.index "source_location").asStr.bind Span.parse := by
  obtain ⟨id, -, h⟩ := bind_eq_ok.mp h
  obtain rfl := Except.ok.inj h
  refine ⟨?_, ?_, rfl⟩
  · intro k hk
    have hmem : k ∉ BTreeMap.insertAll ∅ (attrsOf nv) := by
      rw [BTreeMap.mem_insertAll]
      rintro (hmem | hmem)
      · obtain ⟨kv, hkv, rfl⟩ := List.mem_map.mp hmem
        cases nv with
        | object m =>
            obtain ⟨kv', -, hkv'⟩ := List.mem_filterMap.mp hkv
            split at hkv'
            · cases hkv'
            · rename_i hcore
              obtain ⟨s, -, rfl⟩ := Option.map_eq_some_iff.mp hkv'
              exact hcore hk
        | _ => cases hkv
      · exact Std.ExtTreeMap.not_mem_empty hmem
    exact Std.ExtTreeMap.getElem?_eq_none hmem
  · intro sp hsp
    obtain ⟨text, -, hparse⟩ := Option.bind_eq_some_iff.mp hsp
    exact Span.parse_lt hparse

theorem importEdge_spec {ev : Json} {e : Edge} (h : importEdge ev = .ok e) : e.target.isNode := by
  obtain ⟨source, -, h⟩ := bind_eq_ok.mp h
  obtain ⟨target, -, h⟩ := bind_eq_ok.mp h
  obtain rfl := Except.ok.inj h
  rfl

theorem importValue_exportable (h : importValue v = .ok state) : Exportable state := by
  obtain ⟨items, read, edges, -, hread, hedges, rfl⟩ := importValue_eq_ok.mp h
  have hnode : ∀ n ∈ read.map Prod.fst, PlainAttrs n ∧ SpanInRange n := by
    intro n hn
    obtain ⟨nc, hnc, rfl⟩ := List.mem_map.mp hn
    obtain ⟨nv, -, hnv⟩ := (mapM_eq_ok hread).1 nc hnc
    exact ⟨(importNode_spec hnv).1, (importNode_spec hnv).2.1⟩
  refine ⟨fun n hn => (hnode n hn).1, fun n hn => (hnode n hn).2, ?_⟩
  intro e he
  obtain ⟨ev, -, hev⟩ := (mapM_eq_ok hedges).1 e he
  exact importEdge_spec hev

/-- Every community of an imported state is one of its nodes'. -/
theorem nodeCommunities_imported (h : importValue v = .ok state) :
    nodeCommunities state = state.partition.nodeCommunity := by
  obtain ⟨items, read, edges, -, -, -, rfl⟩ := importValue_eq_ok.mp h
  refine BTreeMap.ext_get fun k => ?_
  rw [get_nodeCommunities]
  split
  · rfl
  · rename_i hnot
    refine (Std.ExtTreeMap.getElem?_eq_none fun hmem => hnot ?_).symm
    rcases BTreeMap.mem_insertAll.mp hmem with hmem | hmem
    · obtain ⟨p, hp, rfl⟩ := List.mem_map.mp hmem
      obtain ⟨nc, hnc, hp⟩ := List.mem_filterMap.mp hp
      obtain ⟨c, -, rfl⟩ := Option.map_eq_some_iff.mp hp
      exact List.mem_map.mpr ⟨nc.1, List.mem_map_of_mem hnc, rfl⟩
    · exact absurd hmem Std.ExtTreeMap.not_mem_empty

theorem locationsForward_iff (h : importValue v = .ok state) :
    LocationsForward v ↔ ∀ n ∈ state.graph.nodes, readBack n = n := by
  obtain ⟨items, read, edges, hitems, hread, -, rfl⟩ := importValue_eq_ok.mp h
  have harray : (v.index "nodes").asArray = some items := by
    rw [nodeValues] at hitems
    split at hitems
    · rename_i heq
      rw [heq, Except.ok.inj hitems]
    · cases hitems
  constructor
  · intro hforward n hn
    obtain ⟨nc, hnc, rfl⟩ := List.mem_map.mp hn
    obtain ⟨nv, hnv, hok⟩ := (mapM_eq_ok hread).1 nc hnc
    rw [readBack_eq_iff, (importNode_spec hok).2.2]
    intro sp hsp
    obtain ⟨text, htext, hparse⟩ := Option.bind_eq_some_iff.mp hsp
    exact hforward items harray nv hnv text sp htext hparse
  · intro hnodes items' hitems' nv hnv text sp htext hparse
    rw [harray] at hitems'
    cases hitems'
    obtain ⟨nc, hnc, hok⟩ := (mapM_eq_ok hread).2 nv hnv
    refine readBack_eq_iff.mp (hnodes nc.1 (List.mem_map_of_mem hnc)) sp ?_
    rw [(importNode_spec hok).2.2, htext]
    exact hparse

/-- An imported document is imported again as it was exactly where no location in it is
turned around. -/
theorem importValue_export_iff (h : importValue v = .ok state) :
    importValue («export» state) = .ok state ↔ LocationsForward v := by
  rw [locationsForward_iff h, importValue_export (importValue_exportable h),
    nodeCommunities_imported h]
  have hrest : state = { GraphState.empty with
      graph := state.graph
      partition := ⟨state.partition.nodeCommunity, ∅⟩ } := by
    obtain ⟨items, read, edges, -, -, -, rfl⟩ := importValue_eq_ok.mp h
    rfl
  have hnodes : state.graph.nodes.map readBack = state.graph.nodes
      ↔ ∀ n ∈ state.graph.nodes, readBack n = n := by
    conv_lhs => rhs; rw [← List.map_id state.graph.nodes]
    exact List.map_inj_left
  rw [← hnodes]
  constructor
  · intro heq
    exact congrArg (fun s => s.graph.nodes) (Except.ok.inj heq)
  · intro heq
    rw [heq]
    exact congrArg Except.ok hrest.symm

end Imported

/-! ### The interchange -/

/-- A state that the format is to keep: spans are not turned around. -/
structure Interchangeable (state : GraphState) : Prop extends Exportable state where
  forward : ∀ n ∈ state.graph.nodes, ∀ sp, n.sourceSpan = some sp → sp.start ≤ sp.stop

/-- **`graph.json` round-trips**: every interchangeable state, through its export; and a
document that is imported, through the export of what it says, exactly when no location in
it reads as a span that ends before it starts. -/
theorem interchange_iff (serde : Serde) :
    (∀ state, Interchangeable state → serde.ReadsBack («export» state) →
      ∃ state', «import» serde (serde.toVec («export» state)) = .ok state'
        ∧ state'.graph = state.graph
        ∧ ∀ n ∈ state.graph.nodes,
            state'.partition.nodeCommunity[n.id]? = state.partition.nodeCommunity[n.id]?)
    ∧ ∀ bytes v state, serde.fromSlice bytes = .ok v → «import» serde bytes = .ok state →
        serde.ReadsBack («export» state) →
        («import» serde (serde.toVec («export» state)) = .ok state ↔ LocationsForward v) := by
  refine ⟨?_, ?_⟩
  · intro state hstate hserde
    have hnodes : state.graph.nodes.map readBack = state.graph.nodes := by
      conv_rhs => rw [← List.map_id state.graph.nodes]
      exact List.map_congr_left fun n hn => readBack_eq_iff.mpr (hstate.forward n hn)
    have himport : «import» serde (serde.toVec («export» state)) = .ok { GraphState.empty with
        graph := ⟨state.graph.nodes.map readBack, state.graph.edges⟩
        partition := ⟨nodeCommunities state, ∅⟩ } := by
      rw [«import», hserde]
      exact importValue_export hstate.toExportable
    refine ⟨_, himport, ?_, fun n hn => ?_⟩
    · rw [hnodes]
    · exact (get_nodeCommunities n.id).trans (if_pos (List.mem_map_of_mem hn))
  · intro bytes v state hread himport hserde
    rw [«import», hread] at himport
    rw [«import», hserde]
    exact importValue_export_iff himport

/-- One node, at a location. -/
def sampleDocument (location : String) : Json :=
  .object [("nodes", .array [.object [("id", .string "a"), ("source_location", .string location)]])]

/-- The text of such a document. -/
def sampleText (location : String) : List UInt8 :=
  Utf8.encode ("\x7b\"nodes\":[\x7b\"id\":\"a\",\"source_location\":\"" ++ location ++ "\"\x7d]\x7d")

def sampleState (span : Span) : GraphState :=
  { GraphState.empty with
    graph := ⟨[⟨⟨"a"⟩, "a", "concept", none, some span, ∅⟩], []⟩ }

/-- What the export of the sample is written as. -/
def sampleExportText (location : String) : List UInt8 :=
  Utf8.encode ("\x7b\"nodes\":[\x7b\"id\":\"a\",\"label\":\"a\",\"kind\":\"concept\","
    ++ "\"source_location\":\"" ++ location ++ "\"\x7d],\"edges\":[]\x7d")

def sampleSerde (span : Span) (location : String) : Serde where
  fromSlice bytes :=
    if bytes = sampleText location then .ok (sampleDocument location)
    else if bytes = sampleExportText span.render then .ok («export» (sampleState span))
    else .error "expected value at line 1 column 1"
  toVec _ := sampleExportText span.render

theorem import_sample {location : String} {span : Span} (h : Span.parse location = some span) :
    «import» (sampleSerde span location) (sampleText location) = .ok (sampleState span) := by
  have hnode : importNode (.object [("id", .string "a"), ("source_location", .string location)])
      = .ok (⟨⟨"a"⟩, "a", "concept", none, some span, ∅⟩, none) := by
    simp [importNode, requireStr, Json.index, Json.get?, IndexMap.get_cons, Json.asStr, Json.asU64,
      attrsOf, coreKeys, h, bind, Except.bind, pure, Except.pure]
  rw [«import», sampleSerde]
  simp only [if_pos]
  refine importValue_eq_ok.mpr ⟨_, [(⟨⟨"a"⟩, "a", "concept", none, some span, ∅⟩, none)], [],
    rfl, ?_, rfl, rfl⟩
  rw [List.mapM_cons, hnode]
  rfl

theorem readsBack_sample {location : String} {span : Span}
    (h : sampleExportText span.render ≠ sampleText location) :
    (sampleSerde span location).ReadsBack («export» (sampleState span)) := by
  rw [Serde.ReadsBack, sampleSerde]
  simp only [if_neg h, if_pos]

theorem interchange_iff_sample :
    «import» (sampleSerde ⟨3, 7⟩ "L3-L7") ((sampleSerde ⟨3, 7⟩ "L3-L7").toVec
      («export» (sampleState ⟨3, 7⟩))) = .ok (sampleState ⟨3, 7⟩) := by
  have hread : (sampleSerde ⟨3, 7⟩ "L3-L7").fromSlice (sampleText "L3-L7")
      = .ok (sampleDocument "L3-L7") := by
    simp only [sampleSerde, if_pos]
  have hparse : Span.parse "L3-L7" = some ⟨3, 7⟩ := by decide +kernel
  refine ((interchange_iff (sampleSerde ⟨3, 7⟩ "L3-L7")).2 _ _ _ hread (import_sample hparse)
    (readsBack_sample (by decide +kernel))).mpr ?_
  intro items hitems nv hnv text sp htext hsp
  cases hitems
  obtain rfl := List.mem_singleton.mp hnv
  cases htext
  rw [hparse] at hsp
  cases hsp
  decide

/-- `L7-L3` is exported as `L7`. -/
theorem not_interchange : ¬ ∀ (serde : Serde) (bytes : List UInt8) (state : GraphState),
    «import» serde bytes = .ok state → serde.ReadsBack («export» state) →
    «import» serde (serde.toVec («export» state)) = .ok state := by
  intro h
  have hparse : Span.parse "L7-L3" = some ⟨7, 3⟩ := by decide +kernel
  have hback := @readsBack_sample "L7-L3" ⟨7, 3⟩ (by decide +kernel)
  have heq := h (sampleSerde ⟨7, 3⟩ "L7-L3") _ _ (import_sample hparse) hback
  rw [«import», hback] at heq
  have hforward := (@importValue_export_iff (sampleDocument "L7-L3") _ ?_).mp heq
  · have hle := hforward _ rfl _ List.mem_cons_self "L7-L3" ⟨7, 3⟩ rfl hparse
    exact absurd hle (by decide)
  · have himport := import_sample hparse
    rw [«import», sampleSerde] at himport
    simpa only [if_pos] using himport

end Filigrio.GraphJson
