import Filigrio.Resolve.Apply
import Filigrio.Lib.Index

/-!
# Filigrio.Ledger.Basic

What a graph is *of*: a ledger lists, file by file, the extraction the graph holds
for it. The engine keeps no such list, but every facet of its state is a function
of the ledger's members alone; this module has those functions, what the engine
relies on in an extractor, and that a lookup by node id or by file only ever sees
the one file concerned.
-/

namespace Filigrio

variable {C : Type}

/-! ### What the engine relies on in an extractor -/

namespace Extractor

/-- `x` is what the extractor makes of some content of the file `path`. -/
def Yields (ex : Extractor C) (path : String) (x : Extraction) : Prop :=
  ex.handles (classify path) = true ∧ ∃ c, ex.extract (classify path) c = .ok x

/-- A per-file extractor: nodes are stamped with their file, an id occurs in one
file only, and an edge starts at a node of its file. -/
structure PerFile (ex : Extractor C) : Prop where
  sourceFile : ∀ {p x n}, ex.Yields p x → n ∈ x.nodes → n.sourceFile = some p
  ids : ∀ {p p' x x' n n'}, ex.Yields p x → ex.Yields p' x' → n ∈ x.nodes → n' ∈ x'.nodes →
    n.id = n'.id → p = p'
  sources : ∀ {p x e}, ex.Yields p x → e ∈ x.edges → e.source ∈ x.nodes.map Node.id

/-- No extracted node takes the kind or an id of the project overlay. -/
structure NoOverlay (ex : Extractor C) : Prop where
  kind : ∀ {p x n}, ex.Yields p x → n ∈ x.nodes → n.isProject = false
  ids : ∀ {p x n}, ex.Yields p x → n ∈ x.nodes → ∀ root, n.id ≠ pid root

/-- No site of a file carries both a structural and a symbolic edge. -/
def Unmixed (ex : Extractor C) : Prop :=
  ∀ {p x e e'}, ex.Yields p x → e ∈ x.edges → e' ∈ x.edges → e.site = e'.site →
    e.target.isNode = e'.target.isNode

/-- Node ids are unique within a file. -/
def UniqueIds (ex : Extractor C) : Prop :=
  ∀ {p x}, ex.Yields p x → (x.nodes.map Node.id).Nodup

/-- Structural edges end at nodes of their file. -/
def TargetsInside (ex : Extractor C) : Prop :=
  ∀ {p x e t}, ex.Yields p x → e ∈ x.edges → e.target = .node t → t ∈ x.nodes.map Node.id

end Extractor

/-! ### Ledgers -/

/-- The files a graph holds, with their extractions. -/
abbrev Ledger := List Contribution

namespace Ledger

/-- Every entry is an extraction of its file, and repeated entries of a file agree. -/
structure Ok (ex : Extractor C) (L : Ledger) : Prop where
  yields : ∀ {f}, f ∈ L → ex.Yields f.1 f.2
  agree : ∀ {f f'}, f ∈ L → f' ∈ L → f.1 = f'.1 → f.2 = f'.2

/-- The symbol nodes, in ledger order. -/
def nodes (L : Ledger) : List Node := (Extracted.collect L).nodes

/-- The structural edges, in ledger order. -/
def structural (L : Ledger) : List Edge := (Extracted.collect L).structural

/-- The reference universe. -/
def refs (L : Ledger) : BTreeMap String (List Reference) :=
  BTreeMap.index (Extracted.collect L).refs

/-- The export tables. -/
def exports (L : Ledger) : BTreeMap String (List Export) := (Extracted.collect L).exports

def idx (L : Ledger) (ws : Workspace) : LinkIndices := buildLinkIndices (nodes L) ws

def importScope (L : Ledger) (ws : Workspace) (source : Source C) : ImportScope :=
  buildImportScope (refs L) (nodes L) (exports L) (idx L ws).fileOf (buildResolver source ws)

def ctx (L : Ledger) (ws : Workspace) (source : Source C) : LinkCtx where
  fileOf := (idx L ws).fileOf
  implOf := (idx L ws).implOf
  returnsOf := (idx L ws).returnsOf
  projectOf := (idx L ws).projectOf
  importScope := importScope L ws source
  workspace := ws

/-- The edge the link stage makes of a reference. -/
def link (L : Ledger) (ws : Workspace) (source : Source C) (nr : String × Reference) : Edge :=
  linkRef (idx L ws).candidates (ctx L ws source) nr.1 nr.2

/-- All linked edges. -/
def linked (L : Ledger) (ws : Workspace) (source : Source C) : List Edge :=
  resolveAll (refs L) (idx L ws).candidates (ctx L ws source)

theorem linked_eq (L : Ledger) (ws : Workspace) (source : Source C) :
    linked L ws source = (BTreeMap.pairs (refs L)).map (link L ws source) := rfl

theorem mem_nodes {L : Ledger} {n : Node} : n ∈ nodes L ↔ ∃ f ∈ L, n ∈ f.2.nodes := by
  simp only [nodes, Extracted.collect, List.mem_flatMap]

theorem mem_structural {L : Ledger} {e : Edge} :
    e ∈ structural L ↔ ∃ f ∈ L, e ∈ f.2.edges ∧ e.target.isNode = true := by
  simp only [structural, Extracted.collect, List.mem_flatMap, Extraction.structural,
    List.mem_filter]

theorem mem_pairs_refs {L : Ledger} {nr : String × Reference} :
    nr ∈ BTreeMap.pairs (refs L) ↔ ∃ f ∈ L, nr ∈ f.2.refs := by
  simp only [refs, BTreeMap.mem_pairs_index, Extracted.collect, List.mem_flatMap]

theorem nodes_cons (f : Contribution) (L : Ledger) : nodes (f :: L) = f.2.nodes ++ nodes L := by
  simp only [nodes, Extracted.collect, List.flatMap_cons]

theorem nodes_append (L L' : Ledger) : nodes (L ++ L') = nodes L ++ nodes L' :=
  List.flatMap_append

theorem structural_append (L L' : Ledger) :
    structural (L ++ L') = structural L ++ structural L' := List.flatMap_append

/-- The reference an edge stands for starts where the edge does. -/
theorem referenceOf_eq_some {e : Edge} {nr : String × Reference} (h : referenceOf e = some nr) :
    nr.2.site = e.site ∧ e.target.isNode = false := by
  unfold referenceOf at h
  split at h
  · cases h
  · rename_i ref htarget
    rw [← Option.some.inj h, htarget]
    exact ⟨rfl, rfl⟩

/-- A reference of an extraction comes from one of its symbolic edges. -/
theorem mem_refs {x : Extraction} {nr : String × Reference} (h : nr ∈ x.refs) :
    ∃ e ∈ x.edges, e.target.isNode = false ∧ e.site = nr.2.site ∧ e.source = nr.2.source := by
  obtain ⟨e, he, hr⟩ := List.mem_filterMap.mp h
  obtain ⟨hsite, hsym⟩ := referenceOf_eq_some hr
  exact ⟨e, he, hsym, hsite.symm, (congrArg (fun s => (ofLex s).1) hsite).symm⟩

/-- References start at nodes of their file. -/
theorem source_mem_of_refs {ex : Extractor C} (hex : ex.PerFile) {p : String} {x : Extraction}
    (hy : ex.Yields p x) {nr : String × Reference} (h : nr ∈ x.refs) :
    nr.2.source ∈ x.nodes.map Node.id := by
  obtain ⟨e, he, -, -, hsource⟩ := mem_refs h
  exact hsource ▸ hex.sources hy he

/-! ### Lookups see one file only -/

section Lookups

variable {α β : Type}

/-- The first element of a concatenation whose parts are empty or all alike. -/
theorem head?_flatMap {l : List α} {h : α → List β} {part : List β}
    (halike : ∀ a ∈ l, h a = [] ∨ h a = part) {a : α} (ha : a ∈ l) (hpart : h a = part) :
    (l.flatMap h).head? = part.head? := by
  induction l with
  | nil => cases ha
  | cons b l ih =>
      have hl : ∀ c ∈ l, h c = [] ∨ h c = part := fun c hc => halike c (List.mem_cons_of_mem _ hc)
      rw [List.flatMap_cons, List.head?_append]
      rcases halike b (by simp) with hb | hb
      · rw [hb, List.head?_nil, Option.none_or]
        rcases List.mem_cons.mp ha with rfl | ha
        · obtain rfl : part = [] := hpart.symm.trans hb
          have hnil : l.flatMap h = [] :=
            List.flatMap_eq_nil_iff.mpr fun c hc => (hl c hc).elim id id
          rw [hnil]
        · exact ih hl ha
      · rw [hb]
        cases part with
        | cons v vs => rfl
        | nil =>
            have hnil : l.flatMap h = [] :=
              List.flatMap_eq_nil_iff.mpr fun c hc => (hl c hc).elim id id
            rw [hnil]; rfl

/-- The last element of a concatenation whose parts are empty or all alike. -/
theorem getLast?_flatMap {l : List α} {h : α → List β} {part : List β}
    (halike : ∀ a ∈ l, h a = [] ∨ h a = part) {a : α} (ha : a ∈ l) (hpart : h a = part) :
    (l.flatMap h).getLast? = part.getLast? := by
  rw [List.getLast?_eq_head?_reverse, List.reverse_flatMap, List.getLast?_eq_head?_reverse]
  refine head?_flatMap (fun b hb => ?_) (List.mem_reverse.mpr ha) (congrArg List.reverse hpart)
  exact (halike b (List.mem_reverse.mp hb)).imp (fun h => by simp [h]) (fun h => by simp [h])

end Lookups

theorem get_indexBy (g : Node → Option String) (ns : List Node) (id : NodeId) :
    (indexBy g ns)[id]? = (ns.filter (·.id = id)).getLast?.map g := by
  rw [indexBy, BTreeMap.get_insertAll, List.filter_map, List.getLast?_map, Option.map_map]
  simp only [Function.comp_def, Std.ExtTreeMap.getElem?_empty, Option.or_none]
  congr!

/-- Every lookup by id reads one and the same node. -/
theorem exists_lookup_node {ns : List Node} {id : NodeId} (h : id ∈ ns.map Node.id) :
    ∃ n ∈ ns, n.id = id ∧ ∀ g, lookup (indexBy g ns) id = g n := by
  cases hlast : (ns.filter (·.id = id)).getLast? with
  | none =>
      have hnil := List.filter_eq_nil_iff.mp (List.getLast?_eq_none_iff.mp hlast)
      obtain ⟨n, hn, hid⟩ := List.mem_map.mp h
      exact absurd (decide_eq_true hid) (hnil n hn)
  | some n =>
      obtain ⟨hn, hid⟩ := List.mem_filter.mp (List.mem_of_getLast? hlast)
      refine ⟨n, hn, of_decide_eq_true hid, fun g => ?_⟩
      rw [lookup, get_indexBy, hlast]
      rfl

theorem get_indexBy_eq_none {g : Node → Option String} {ns : List Node} {id : NodeId}
    (h : id ∉ ns.map Node.id) : (indexBy g ns)[id]? = none := by
  have hnil : ns.filter (·.id = id) = [] := List.filter_eq_nil_iff.mpr fun n hn hid =>
    h (List.mem_map.mpr ⟨n, hn, of_decide_eq_true hid⟩)
  rw [get_indexBy, hnil]; rfl

variable {ex : Extractor C} {L L' : Ledger}

/-- A lookup by node id reads the extraction of the id's file. -/
theorem get_indexBy_nodes (hex : ex.PerFile) (hL : Ok ex L) (g : Node → Option String)
    {f : Contribution} (hf : f ∈ L) {id : NodeId} (hid : id ∈ f.2.nodes.map Node.id) :
    (indexBy g (nodes L))[id]? = (indexBy g f.2.nodes)[id]? := by
  obtain ⟨n, hn, rfl⟩ := List.mem_map.mp hid
  have hfilter : (nodes L).filter (·.id = n.id) =
      L.flatMap fun f => f.2.nodes.filter (·.id = n.id) := List.filter_flatMap
  rw [get_indexBy, get_indexBy, hfilter]
  congr 1
  refine getLast?_flatMap (fun f' hf' => ?_) hf rfl
  by_cases heq : f'.1 = f.1
  · right; rw [hL.agree hf' hf heq]
  · left
    refine List.filter_eq_nil_iff.mpr fun n' hn' hid' => heq ?_
    exact hex.ids (hL.yields hf') (hL.yields hf) hn' hn (of_decide_eq_true hid')

/-- The file a node id is looked up to is the file of its entry. -/
theorem lookup_sourceFile (hex : ex.PerFile) (hL : Ok ex L) {f : Contribution} (hf : f ∈ L)
    {id : NodeId} (hid : id ∈ f.2.nodes.map Node.id) :
    lookup (indexBy Node.sourceFile (nodes L)) id = some f.1 := by
  obtain ⟨n, hn, -, hlookup⟩ := exists_lookup_node hid
  rw [lookup, get_indexBy_nodes hex hL _ hf hid, ← lookup, hlookup,
    hex.sourceFile (hL.yields hf) hn]

/-- The id a node offers to the local definitions under the key `k`. -/
def defAt (k : ModuleId ×ₗ String) (n : Node) : Option NodeId :=
  n.sourceFile.bind fun f => if toLex (moduleOf f, n.label) = k then some n.id else none

theorem get_buildLocalDef (ns : List Node) (k : ModuleId ×ₗ String) :
    (buildLocalDef ns)[k]? = ((ns.filter isLinkable).filterMap (defAt k)).head? := by
  rw [buildLocalDef, BTreeMap.get_insertNew, Std.ExtTreeMap.getElem?_empty, Option.none_or,
    List.filter_filterMap, ← List.head?_map, List.map_filterMap]
  congr 2
  funext n
  unfold defAt
  cases n.sourceFile with
  | none => rfl
  | some f => by_cases hk : toLex (moduleOf f, n.label) = k <;> simp [Option.filter, hk]

theorem filterMap_defAt_nodes (L : Ledger) (k : ModuleId ×ₗ String) :
    ((nodes L).filter isLinkable).filterMap (defAt k)
      = L.flatMap fun f => (f.2.nodes.filter isLinkable).filterMap (defAt k) := by
  rw [nodes, Extracted.collect, List.filter_flatMap, List.filterMap_flatMap]

/-- Only nodes of the file `k.1` define anything under `k`. -/
theorem filterMap_defAt_eq_nil (hex : ex.PerFile) {f : Contribution} (hy : ex.Yields f.1 f.2)
    {p nm : String} (hne : f.1 ≠ p) :
    (f.2.nodes.filter isLinkable).filterMap (defAt (toLex (moduleOf p, nm))) = [] := by
  refine List.filterMap_eq_nil_iff.mpr fun n hn => ?_
  have hfile := hex.sourceFile hy (List.mem_filter.mp hn).1
  have hkey : toLex (moduleOf f.1, n.label) ≠ toLex (moduleOf p, nm) := fun h =>
    hne (Prod.mk.inj (toLex.injective h)).1
  simp only [defAt, hfile, Option.bind_some, if_neg hkey]

/-- A local definition of a listed file is one of its extraction. -/
theorem get_buildLocalDef_nodes (hex : ex.PerFile) (hL : Ok ex L) {f : Contribution} (hf : f ∈ L)
    (nm : String) : (buildLocalDef (nodes L))[toLex (moduleOf f.1, nm)]?
      = (buildLocalDef f.2.nodes)[toLex (moduleOf f.1, nm)]? := by
  rw [get_buildLocalDef, get_buildLocalDef, filterMap_defAt_nodes]
  refine head?_flatMap (fun f' hf' => ?_) hf rfl
  by_cases heq : f'.1 = f.1
  · right; rw [hL.agree hf' hf heq]
  · left; exact filterMap_defAt_eq_nil hex (hL.yields hf') heq

/-- A file that is not listed defines nothing. -/
theorem get_buildLocalDef_eq_none (hex : ex.PerFile) (hL : Ok ex L) {p : String}
    (hp : p ∉ L.map Prod.fst) (nm : String) :
    (buildLocalDef (nodes L))[toLex (moduleOf p, nm)]? = none := by
  rw [get_buildLocalDef, filterMap_defAt_nodes, List.head?_eq_none_iff]
  refine List.flatMap_eq_nil_iff.mpr fun f hf => ?_
  exact filterMap_defAt_eq_nil hex (hL.yields hf) fun h => hp (List.mem_map.mpr ⟨f, hf, h⟩)

theorem get_exports (L : Ledger) (p : String) : (exports L)[p]?
    = ((L.filter fun f => !f.2.exports.isEmpty).filter (·.1 = p)).getLast?.map (·.2.exports) := by
  rw [exports, Extracted.collect, BTreeMap.get_insertAll, List.filter_map, List.getLast?_map,
    Option.map_map]
  simp only [Function.comp_def, Std.ExtTreeMap.getElem?_empty, Option.or_none]

theorem get_exports_append (L L' : Ledger) (p : String) :
    (exports (L ++ L'))[p]? = (exports L')[p]?.or (exports L)[p]? := by
  simp only [get_exports, List.filter_append, List.getLast?_append, Option.map_or]

/-- Leaving out files leaves out their export tables. -/
theorem get_exports_filter (L : Ledger) (q : String → Bool) (p : String) :
    (exports (L.filter fun f => q f.1))[p]? = (exports L)[p]?.filter fun _ => q p := by
  have hfilter : ((L.filter fun f => q f.1).filter fun f => !f.2.exports.isEmpty).filter (·.1 = p)
      = if q p then (L.filter fun f => !f.2.exports.isEmpty).filter (·.1 = p) else [] := by
    rw [List.filter_filter, List.filter_filter]
    split
    · rename_i hq
      rw [List.filter_filter]
      refine List.filter_congr fun f _ => ?_
      by_cases hp : f.1 = p
      · simp [hp, hq]
      · simp [hp]
    · rename_i hq
      refine List.filter_eq_nil_iff.mpr fun f _ h => hq ?_
      simp only [Bool.and_eq_true, decide_eq_true_eq] at h
      exact h.1.1 ▸ h.2
  rw [get_exports, get_exports, hfilter]
  generalize (L.filter fun f => !f.2.exports.isEmpty).filter (·.1 = p) = l
  split
  · rename_i hq
    cases l.getLast? with
    | none => rfl
    | some f => simp only [Option.map_some, Option.filter, hq, if_true]
  · rename_i hq
    cases l.getLast? with
    | none => rfl
    | some f => simp only [Option.map_some, Option.filter, hq, List.getLast?_nil, Option.map_none]; rfl

/-- The export table of a listed file is that of its extraction, if not empty. -/
theorem get_exports_of_mem (hL : Ok ex L) {f : Contribution} (hf : f ∈ L) :
    (exports L)[f.1]? = if f.2.exports = [] then none else some f.2.exports := by
  have hfile : ∀ f' ∈ (L.filter fun f => !f.2.exports.isEmpty).filter (·.1 = f.1),
      f'.2 = f.2 ∧ f'.2.exports ≠ [] := by
    intro f' hf'
    simp only [List.mem_filter, decide_eq_true_eq, Bool.not_eq_true', List.isEmpty_eq_false_iff]
      at hf'
    exact ⟨hL.agree hf'.1.1 hf hf'.2, hf'.1.2⟩
  rw [get_exports]
  cases hlast : ((L.filter fun f => !f.2.exports.isEmpty).filter (·.1 = f.1)).getLast? with
  | some f' =>
      obtain ⟨heq, hne⟩ := hfile f' (List.mem_of_getLast? hlast)
      rw [if_neg (heq ▸ hne), Option.map_some, heq]
  | none =>
      have hnil := List.eq_nil_iff_forall_not_mem.mp (List.getLast?_eq_none_iff.mp hlast) f
      by_cases hempty : f.2.exports = []
      · rw [if_pos hempty, Option.map_none]
      · simp [List.mem_filter, hf, hempty] at hnil

/-- A file that is not listed has no export table. -/
theorem get_exports_eq_none {L : Ledger} {p : String} (hp : p ∉ L.map Prod.fst) :
    (exports L)[p]? = none := by
  have hnil : (L.filter fun f => !f.2.exports.isEmpty).filter (·.1 = p) = [] :=
    List.filter_eq_nil_iff.mpr fun f hf hfp =>
      hp (List.mem_map.mpr ⟨f, (List.mem_filter.mp hf).1, of_decide_eq_true hfp⟩)
  rw [get_exports, hnil]; rfl

theorem exportSlice_exports (hL : Ok ex L) {f : Contribution} (hf : f ∈ L) :
    exportSlice (exports L) f.1 = f.2.exports := by
  rw [exportSlice, get_exports_of_mem hL hf]
  split
  · rename_i h; rw [h]; rfl
  · rfl

/-! ### A ledger's facets depend on its members only -/

section Congr

variable (hex : ex.PerFile) (hL : Ok ex L) (hmem : ∀ f, f ∈ L ↔ f ∈ L')
include hmem

theorem refs_congr : refs L = refs L' :=
  BTreeMap.index_congr fun nr => by
    simp only [Extracted.collect, List.mem_flatMap, hmem]

theorem mem_nodes_congr (n : Node) : n ∈ nodes L ↔ n ∈ nodes L' := by
  simp only [mem_nodes, hmem]

theorem candidates_congr : buildCandidates (nodes L) = buildCandidates (nodes L') :=
  BTreeMap.index_congr fun c => by
    simp only [List.mem_map, List.mem_filter, mem_nodes_congr hmem]

include hL

theorem ok_congr : Ok ex L' where
  yields h := hL.yields ((hmem _).mpr h)
  agree h h' := hL.agree ((hmem _).mpr h) ((hmem _).mpr h')

theorem exports_congr : exports L = exports L' := by
  refine BTreeMap.ext_get fun p => ?_
  by_cases hp : p ∈ L.map Prod.fst
  · obtain ⟨f, hf, rfl⟩ := List.mem_map.mp hp
    rw [get_exports_of_mem hL hf, get_exports_of_mem (ok_congr hL hmem) ((hmem f).mp hf)]
  · have hp' : p ∉ L'.map Prod.fst := by simpa only [List.mem_map, hmem] using hp
    rw [get_exports_eq_none hp, get_exports_eq_none hp']

include hex

theorem indexBy_congr (g : Node → Option String) : indexBy g (nodes L) = indexBy g (nodes L') := by
  refine BTreeMap.ext_get fun id => ?_
  by_cases hid : id ∈ (nodes L).map Node.id
  · obtain ⟨n, hn, rfl⟩ := List.mem_map.mp hid
    obtain ⟨f, hf, hn⟩ := mem_nodes.mp hn
    have hid' : n.id ∈ f.2.nodes.map Node.id := List.mem_map_of_mem hn
    rw [get_indexBy_nodes hex hL g hf hid',
      get_indexBy_nodes hex (ok_congr hL hmem) g ((hmem f).mp hf) hid']
  · have hid' : id ∉ (nodes L').map Node.id := by
      simpa only [List.mem_map, mem_nodes_congr hmem] using hid
    rw [get_indexBy_eq_none hid, get_indexBy_eq_none hid']

theorem buildLocalDef_congr : buildLocalDef (nodes L) = buildLocalDef (nodes L') := by
  refine BTreeMap.ext_get fun k => ?_
  obtain ⟨⟨p, nm⟩, rfl⟩ := toLex.surjective k
  by_cases hp : p ∈ L.map Prod.fst
  · obtain ⟨f, hf, rfl⟩ := List.mem_map.mp hp
    exact (get_buildLocalDef_nodes hex hL hf nm).trans
      (get_buildLocalDef_nodes hex (ok_congr hL hmem) ((hmem f).mp hf) nm).symm
  · have hp' : p ∉ L'.map Prod.fst := by simpa only [List.mem_map, hmem] using hp
    exact (get_buildLocalDef_eq_none hex hL hp nm).trans
      (get_buildLocalDef_eq_none hex (ok_congr hL hmem) hp' nm).symm

theorem idx_congr (ws : Workspace) : idx L ws = idx L' ws := by
  simp only [idx, buildLinkIndices, indexBy_congr hex hL hmem, candidates_congr hmem]

theorem importScope_congr (ws : Workspace) (source : Source C) :
    importScope L ws source = importScope L' ws source := by
  simp only [importScope, buildImportScope, refs_congr hmem, exports_congr hL hmem,
    idx_congr hex hL hmem, buildLocalDef_congr hex hL hmem]

theorem linked_congr (ws : Workspace) (source : Source C) :
    linked L ws source = linked L' ws source := by
  simp only [linked, ctx, refs_congr hmem, idx_congr hex hL hmem,
    importScope_congr hex hL hmem]

end Congr

end Ledger

end Filigrio
