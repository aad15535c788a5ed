import Mathlib.Data.List.Induction
import Mathlib.Data.List.Perm.Basic
import Mathlib.Data.List.Pairwise
import Mathlib.Data.String.Basic
import Mathlib.Order.Compare

/-!
# Filigrio.Install.Node

The events a YAML parser emits, the document tree they serialise, and the values that are
compared (`Node`). The parser itself is outside the repository: a document is the tree, and
its event stream is `Tree.events`.

`NodeBuilder` assembles a value from the events that follow its key. `Tree.built_seq` and
`Tree.built_map` say what it makes of a collection: the tree's `node`.
-/

namespace Filigrio.Yaml

/-- The bytes an event was read from: `start` up to `stop`, not included. -/
structure Span where
  start : ℕ
  stop : ℕ
  deriving DecidableEq, Repr

/-- `end > start`: the event consumed source. -/
def Span.bearsText (s : Span) : Bool := s.start < s.stop

/-- The position of the last byte of the text; of a span without text, the span's own. -/
def Span.lastByte (s : Span) : ℕ := if s.bearsText then s.stop - 1 else s.start

/-- `saphyr_parser::Event`, with the payloads the walk reads. -/
inductive Event
  | streamStart
  | streamEnd
  | documentStart
  | documentEnd
  | nothing
  | scalar (value : String)
  | alias (id : ℕ)
  | sequenceStart
  | sequenceEnd
  | mappingStart
  | mappingEnd
  deriving DecidableEq, Repr

/-! ## Values -/

/-- A YAML value reduced to its content. The entries of a mapping stand in the order of their
keys, as in a `BTreeMap`. -/
inductive Node
  | scalar (value : String)
  | seq (items : List Node)
  | map (entries : List (Node × Node))
  | alias (id : ℕ)

/-- The place of the variant in the derived order. -/
def Node.variant : Node → ℕ
  | .scalar _ => 0
  | .seq _ => 1
  | .map _ => 2
  | .alias _ => 3

mutual
/-- The derived order: by variant, then by content. -/
def Node.cmp : Node → Node → Ordering
  | .scalar v, .scalar w => compare v w
  | .alias i, .alias j => compare i j
  | .seq xs, .seq ys => cmpItems xs ys
  | .map xs, .map ys => cmpEntries xs ys
  | x, y => compare x.variant y.variant

/-- Sequences compare item by item. -/
def cmpItems : List Node → List Node → Ordering
  | [], [] => .eq
  | [], _ :: _ => .lt
  | _ :: _, [] => .gt
  | x :: xs, y :: ys => (x.cmp y).then (cmpItems xs ys)

/-- Mappings compare entry by entry, a key before its value. -/
def cmpEntries : List (Node × Node) → List (Node × Node) → Ordering
  | [], [] => .eq
  | [], _ :: _ => .lt
  | _ :: _, [] => .gt
  | (k, v) :: xs, (k', v') :: ys => ((k.cmp k').then (v.cmp v')).then (cmpEntries xs ys)
end

/-- `entries.insert(key, node)` of a `BTreeMap`: the value of an equal key is replaced. -/
def insertEntry (key value : Node) : List (Node × Node) → List (Node × Node)
  | [] => [(key, value)]
  | (k, v) :: es =>
      match key.cmp k with
      | .lt => (key, value) :: (k, v) :: es
      | .eq => (k, value) :: es
      | .gt => (k, v) :: insertEntry key value es

/-- The mapping that holds the given entries. -/
def mapOf (es : List (Node × Node)) : List (Node × Node) :=
  es.foldl (fun m e => insertEntry e.1 e.2 m) []

mutual
theorem Node.cmp_self : ∀ x : Node, x.cmp x = .eq
  | .scalar v => by simp [Node.cmp]
  | .alias i => by simp [Node.cmp]
  | .seq xs => by rw [Node.cmp]; exact cmpItems_self xs
  | .map es => by rw [Node.cmp]; exact cmpEntries_self es

theorem cmpItems_self : ∀ xs : List Node, cmpItems xs xs = .eq
  | [] => by rw [cmpItems]
  | x :: xs => by rw [cmpItems, Node.cmp_self x, cmpItems_self xs]; rfl

theorem cmpEntries_self : ∀ es : List (Node × Node), cmpEntries es es = .eq
  | [] => by rw [cmpEntries]
  | (k, v) :: es => by rw [cmpEntries, Node.cmp_self k, Node.cmp_self v, cmpEntries_self es]; rfl
end

mutual
/-- Nodes the order does not separate are one node. -/
theorem Node.eq_of_cmp : ∀ {x y : Node}, x.cmp y = .eq → x = y
  | .scalar v, .scalar w, h => by
      rw [Node.cmp, compare_eq_iff_eq] at h
      rw [h]
  | .alias i, .alias j, h => by
      rw [Node.cmp, compare_eq_iff_eq] at h
      rw [h]
  | .seq xs, .seq ys, h => by
      rw [Node.cmp] at h
      rw [eq_of_cmpItems h]
  | .map xs, .map ys, h => by
      rw [Node.cmp] at h
      rw [eq_of_cmpEntries h]
  | .scalar _, .seq _, h | .scalar _, .map _, h | .scalar _, .alias _, h
  | .seq _, .scalar _, h | .seq _, .map _, h | .seq _, .alias _, h
  | .map _, .scalar _, h | .map _, .seq _, h | .map _, .alias _, h
  | .alias _, .scalar _, h | .alias _, .seq _, h | .alias _, .map _, h => by
      simp [Node.cmp, Node.variant] at h

theorem eq_of_cmpItems : ∀ {xs ys : List Node}, cmpItems xs ys = .eq → xs = ys
  | [], [], _ => rfl
  | [], _ :: _, h | _ :: _, [], h => by simp [cmpItems] at h
  | x :: xs, y :: ys, h => by
      rw [cmpItems, Ordering.then_eq_eq] at h
      rw [Node.eq_of_cmp h.1, eq_of_cmpItems h.2]

theorem eq_of_cmpEntries : ∀ {es fs : List (Node × Node)}, cmpEntries es fs = .eq → es = fs
  | [], [], _ => rfl
  | [], _ :: _, h | _ :: _, [], h => by simp [cmpEntries] at h
  | (k, v) :: es, (k', v') :: fs, h => by
      rw [cmpEntries, Ordering.then_eq_eq, Ordering.then_eq_eq] at h
      rw [Node.eq_of_cmp h.1.1, Node.eq_of_cmp h.1.2, eq_of_cmpEntries h.2]
end

theorem Node.cmp_eq_iff {x y : Node} : x.cmp y = .eq ↔ x = y := by
  constructor
  · exact Node.eq_of_cmp
  · rintro rfl
    exact x.cmp_self

instance : DecidableEq Node := fun x y => decidable_of_iff (x.cmp y = .eq) Node.cmp_eq_iff

/-- A key the mapping lacks is added to it. -/
theorem insertEntry_perm {key : Node} (value : Node) {es : List (Node × Node)}
    (h : key ∉ es.map Prod.fst) : (insertEntry key value es).Perm ((key, value) :: es) := by
  induction es with
  | nil => exact .refl _
  | cons e es ih =>
      obtain ⟨k, v⟩ := e
      simp only [List.map_cons, List.mem_cons, not_or] at h
      rw [insertEntry]
      split
      · exact .refl _
      · rename_i heq
        exact absurd (Node.eq_of_cmp heq) h.1
      · exact ((ih h.2).cons _).trans (.swap _ _ _)

/-- Entries of distinct keys are all there. -/
theorem mapOf_perm {es : List (Node × Node)} (h : (es.map Prod.fst).Nodup) :
    (mapOf es).Perm es := by
  induction es using List.reverseRecOn with
  | nil => exact .refl _
  | append_singleton es e ih =>
      rw [List.map_append, List.nodup_append] at h
      have hperm := ih h.1
      rw [mapOf, List.foldl_append]
      refine (insertEntry_perm e.2 ?_).trans ?_
      · intro hin
        have hin' := (hperm.map Prod.fst).mem_iff.1 hin
        exact h.2.2 _ hin' e.1 (by simp) rfl
      · exact (hperm.cons e).trans (List.perm_append_singleton e es).symm

/-! ## Documents -/

/-- A document tree, every part with the span it was read from. A collection has a span for
its opening and one for its end. -/
inductive Tree
  | scalar (value : String) (span : Span)
  | alias (id : ℕ) (span : Span)
  | seq (opened : Span) (items : List Tree) (closed : Span)
  | map (opened : Span) (entries : List (Tree × Tree)) (closed : Span)

/-- The keys and the values of a mapping, in the order they are written. -/
def slots (entries : List (Tree × Tree)) : List Tree := entries.flatMap fun e => [e.1, e.2]

@[simp] theorem slots_nil : slots [] = [] := rfl

@[simp] theorem slots_cons (e : Tree × Tree) (es : List (Tree × Tree)) :
    slots (e :: es) = e.1 :: e.2 :: slots es := rfl

@[simp] theorem slots_append (es fs : List (Tree × Tree)) :
    slots (es ++ fs) = slots es ++ slots fs := by
  simp [slots]

/-- To prove something of every tree, prove it of a collection from its parts. -/
theorem Tree.induct {motive : Tree → Prop} (scalar : ∀ v s, motive (.scalar v s))
    (ref : ∀ i s, motive (.alias i s))
    (seq : ∀ o items c, (∀ t ∈ items, motive t) → motive (.seq o items c))
    (map : ∀ o es c, (∀ t ∈ slots es, motive t) → motive (.map o es c)) (t : Tree) :
    motive t := by
  refine @Tree.rec motive (fun ts => ∀ t ∈ ts, motive t) (fun es => ∀ t ∈ slots es, motive t)
    (fun e => motive e.1 ∧ motive e.2) scalar ref
    (fun o items c ih => seq o items c ih) (fun o es c ih => map o es c ih) ?_ ?_ ?_ ?_ ?_ t
  · simp
  · intro t ts ht hts
    simpa using ⟨ht, hts⟩
  · simp
  · intro e es he hes
    simpa using ⟨he.1, he.2, hes⟩
  · intro k v hk hv
    exact ⟨hk, hv⟩

mutual
/-- The events that serialise a tree. -/
def Tree.events : Tree → List (Event × Span)
  | .scalar v s => [(.scalar v, s)]
  | .alias i s => [(.alias i, s)]
  | .seq o items c => (.sequenceStart, o) :: (eventsOf items ++ [(.sequenceEnd, c)])
  | .map o es c => (.mappingStart, o) :: (eventsOfEntries es ++ [(.mappingEnd, c)])

/-- The events of trees one after the other. -/
def eventsOf : List Tree → List (Event × Span)
  | [] => []
  | t :: ts => t.events ++ eventsOf ts

/-- The events of the entries of a mapping. -/
def eventsOfEntries : List (Tree × Tree) → List (Event × Span)
  | [] => []
  | (k, v) :: es => k.events ++ (v.events ++ eventsOfEntries es)
end

mutual
/-- The value a tree stands for. -/
def Tree.node : Tree → Node
  | .scalar v _ => .scalar v
  | .alias i _ => .alias i
  | .seq _ items _ => .seq (nodesOf items)
  | .map _ es _ => .map (mapOf (nodesOfEntries es))

/-- The values of trees, in their order. -/
def nodesOf : List Tree → List Node
  | [] => []
  | t :: ts => t.node :: nodesOf ts

/-- The values of the entries of a mapping. -/
def nodesOfEntries : List (Tree × Tree) → List (Node × Node)
  | [] => []
  | (k, v) :: es => (k.node, v.node) :: nodesOfEntries es
end

/-- The spans of a tree's events. -/
def Tree.spans (t : Tree) : List Span := t.events.map Prod.snd

@[simp] theorem eventsOf_nil : eventsOf [] = [] := by rw [eventsOf]

@[simp] theorem eventsOf_cons (t : Tree) (ts : List Tree) :
    eventsOf (t :: ts) = t.events ++ eventsOf ts := by
  rw [eventsOf]

@[simp] theorem eventsOf_append (ts us : List Tree) :
    eventsOf (ts ++ us) = eventsOf ts ++ eventsOf us := by
  induction ts with
  | nil => simp
  | cons t ts ih => simp [ih]

theorem mem_eventsOf {ts : List Tree} {e : Event × Span} :
    e ∈ eventsOf ts ↔ ∃ t ∈ ts, e ∈ t.events := by
  induction ts with
  | nil => simp
  | cons t ts ih => simp [ih]

/-- The events of a mapping's entries are those of its keys and values in turn. -/
theorem eventsOfEntries_eq (es : List (Tree × Tree)) : eventsOfEntries es = eventsOf (slots es) := by
  induction es with
  | nil => rw [eventsOfEntries, slots_nil, eventsOf_nil]
  | cons e es ih => rw [eventsOfEntries, ih, slots_cons, eventsOf_cons, eventsOf_cons]

theorem nodesOf_eq_map (ts : List Tree) : nodesOf ts = ts.map Tree.node := by
  induction ts with
  | nil => rw [nodesOf, List.map_nil]
  | cons t ts ih => rw [nodesOf, ih, List.map_cons]

theorem nodesOfEntries_eq_map (es : List (Tree × Tree)) :
    nodesOfEntries es = es.map fun e => (e.1.node, e.2.node) := by
  induction es with
  | nil => rw [nodesOfEntries, List.map_nil]
  | cons e es ih => rw [nodesOfEntries, ih, List.map_cons]

/-- The value of a mapping whose keys differ holds all its entries and nothing else. -/
theorem node_entries_perm (es : List (Tree × Tree)) (h : (es.map fun e => e.1.node).Nodup) :
    (mapOf (nodesOfEntries es)).Perm (es.map fun e => (e.1.node, e.2.node)) := by
  rw [nodesOfEntries_eq_map]
  apply mapOf_perm
  simpa [Function.comp_def] using h

/-! ## The builder -/

/-- A collection that has been opened and is waiting for its children; a mapping with the
pending key, once it has seen one and not yet its value. -/
inductive Building
  | seq (items : List Node)
  | map (entries : List (Node × Node)) (pending : Option Node)

/-- A completed node goes into the innermost collection. -/
def Building.add : Building → Node → Building
  | .seq items, node => .seq (items ++ [node])
  | .map entries none, node => .map entries (some node)
  | .map entries (some key), node => .map (insertEntry key node entries) none

/-- What a closed collection is. -/
def Building.node : Building → Node
  | .seq items => .seq items
  | .map entries _ => .map entries

namespace NodeBuilder

/-- File a completed node into what is open above it, or return it where nothing is. -/
def place (opened : List Building) (node : Node) : List Building × Option Node :=
  match opened with
  | [] => ([], some node)
  | b :: bs => (b.add node :: bs, none)

/-- Feed one event; the value once it is complete. The innermost collection comes first. -/
def feed (opened : List Building) : Event → List Building × Option Node
  | .scalar v => place opened (.scalar v)
  | .alias i => place opened (.alias i)
  | .mappingStart => (.map [] none :: opened, none)
  | .sequenceStart => (.seq [] :: opened, none)
  | .mappingEnd | .sequenceEnd =>
      match opened with
      | b :: bs => place bs b.node
      -- The parent of the key closed before its value opened.
      | [] => place [] (.scalar "")
  | .streamStart | .streamEnd | .documentStart | .documentEnd | .nothing => (opened, none)

end NodeBuilder

/-- The items of a sequence, added in turn. -/
theorem foldl_add_seq (items nodes : List Node) :
    nodes.foldl Building.add (.seq items) = .seq (items ++ nodes) := by
  induction nodes generalizing items with
  | nil => simp
  | cons n ns ih => simp [Building.add, ih]

/-- The keys and values of a mapping, added in turn. -/
theorem foldl_add_map (m : List (Node × Node)) (es : List (Tree × Tree)) :
    ((slots es).map Tree.node).foldl Building.add (.map m none)
      = .map ((nodesOfEntries es).foldl (fun m e => insertEntry e.1 e.2 m) m) none := by
  induction es generalizing m with
  | nil => simp [nodesOfEntries]
  | cons e es ih =>
      rw [nodesOfEntries, slots_cons]
      simp only [List.map_cons, List.foldl_cons, Building.add]
      exact ih _

/-- What is built from the parts of a sequence is its value. -/
theorem Tree.built_seq (o c : Span) (items : List Tree) :
    ((items.map Tree.node).foldl Building.add (.seq [])).node = (Tree.seq o items c).node := by
  rw [Tree.node, nodesOf_eq_map, foldl_add_seq, Building.node, List.nil_append]

/-- What is built from the keys and values of a mapping is its value. -/
theorem Tree.built_map (o c : Span) (es : List (Tree × Tree)) :
    (((slots es).map Tree.node).foldl Building.add (.map [] none)).node
      = (Tree.map o es c).node := by
  rw [Tree.node, foldl_add_map, Building.node, mapOf]

end Filigrio.Yaml
