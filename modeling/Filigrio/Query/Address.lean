import Filigrio.Core.Span
import Filigrio.Query.View

/-!
# Filigrio.Query.Address

How a node is printed, and how the text that a client gives back finds it: in process, an
exact id before a label; in the daemon, by an address that is an id when it holds a colon.

Printing drops control characters and caps a field, and the two rules differ on ids without
a colon and on labels with one. `addresses_iff` says for which states every printed address
leads back and the two resolvers agree.
-/

namespace Filigrio

/-! ### Printing -/

namespace Format

def maxLabelLen : ℕ := 256

/-- `char::is_control`: the Unicode category `Cc`. -/
def isControl (c : Char) : Bool := c.toNat < 0x20 || (0x7F ≤ c.toNat && c.toNat < 0xA0)

/-- Strip control characters and cap the length. -/
def sanitize (text : String) : String :=
  String.ofList ((text.toList.filter fun c => !isControl c).take maxLabelLen)

/-- The `id=` text of a node. -/
def printedId (n : Node) : String := sanitize n.id.val

/-- `NODE <label> [src=<file> loc=<loc> community=<name> id=<id>]`. -/
def nodeLine (n : Node) (community : String) : String :=
  "NODE " ++ sanitize n.label ++ " [src=" ++ sanitize (n.sourceFile.getD "") ++ " loc="
    ++ sanitize n.loc ++ " community=" ++ sanitize community ++ " id=" ++ printedId n ++ "]"

/-- The suffix that makes a node self-identifying. -/
def idSuffix (n : Node) : String :=
  ((n.attrs["impl"]?).map fun o => " (impl " ++ sanitize o ++ ")").getD ""
    ++ " [src=" ++ sanitize (n.sourceFile.getD "") ++ " loc=" ++ sanitize n.loc
    ++ " id=" ++ printedId n ++ "]"

theorem sanitize_eq_self_iff (s : String) :
    sanitize s = s ↔ s.toList.length ≤ maxLabelLen ∧ ∀ c ∈ s.toList, isControl c = false := by
  constructor
  · intro h
    have hlist : (s.toList.filter fun c => !isControl c).take maxLabelLen = s.toList := by
      have htext := congrArg String.toList h
      rwa [sanitize, String.toList_ofList] at htext
    refine ⟨?_, ?_⟩
    · rw [← hlist, List.length_take]
      exact Nat.min_le_left _ _
    · intro c hc
      rw [← hlist] at hc
      simpa using (List.mem_filter.mp (List.mem_of_mem_take hc)).2
  · intro ⟨hlen, hcontrol⟩
    rw [sanitize, List.filter_eq_self.mpr (by simpa using hcontrol), List.take_of_length_le hlen,
      String.ofList_toList]

end Format

/-! ### Addresses -/

/-- An id, or a label with the file that narrows it. -/
structure NodeAddress where
  id : Option String
  label : Option String
  src : Option String
  deriving DecidableEq, Repr

namespace NodeAddress

def byId (id : String) : NodeAddress := ⟨some id, none, none⟩

def byLabel (label : String) : NodeAddress := ⟨none, some label, none⟩

/-- A text with a colon is taken for an id, any other for a label. -/
def parse (address : String) : NodeAddress :=
  if ':' ∈ address.toList then byId address else byLabel address

/-- The file narrows a label. -/
def withSrc (a : NodeAddress) (src : Option String) : NodeAddress :=
  if a.label.isSome then { a with src } else a

end NodeAddress

/-- Why an address resolves to no single node. -/
inductive AddressError
  | notFound (id : String)
  | unspecified
  | noLabel (label : String) (src : Option String)
  | ambiguous (label : String) (candidates : List Node)

/-- The message of the response. -/
def AddressError.message : AddressError → String
  | notFound id => "node not found by id: " ++ id
  | unspecified => "node address must specify either id or label"
  | noLabel label (some src) => "no node named '" ++ label ++ "' found in " ++ src
  | noLabel label none => "no nodes found with label: " ++ label
  | ambiguous label candidates =>
      toString candidates.length ++ " nodes named '" ++ label
        ++ "' — use id or src to disambiguate:"
        ++ String.join (candidates.map fun node => "\n  - " ++ node.label ++ " [type=" ++ node.kind
            ++ ", src=" ++ node.sourceFile.getD "unknown" ++ ", id=" ++ node.id.val ++ "]")

/-- A single node, no node, or the nodes that share the label. -/
inductive Resolved
  | one (n : Node)
  | none
  | many (candidates : List Node)

namespace Resolved

def ofCandidates : List Node → Resolved
  | [] => none
  | [n] => one n
  | candidates => many candidates

/-- What the answer of the daemon tells its client. -/
def ofAnswer : Except AddressError Node → Resolved
  | .ok n => one n
  | .error (.ambiguous _ candidates) => many candidates
  | .error _ => none

/-- The node itself, or candidates with the node among them. -/
def LeadsTo (n : Node) : Resolved → Prop
  | one m => m = n
  | none => False
  | many candidates => n ∈ candidates

/-- The same node, the same candidates, or both nothing. -/
def Same : Resolved → Resolved → Prop
  | one m, one n => m = n
  | none, none => True
  | many as, many bs => ∀ n, n ∈ as ↔ n ∈ bs
  | _, _ => False

theorem same_self (r : Resolved) : Same r r := by
  cases r <;> simp [Same]

end Resolved

/-! ### Resolving -/

namespace GraphView

variable (view : GraphView)

def stampCommunity (node : Node) : Node :=
  match view.communityOf node.id with
  | none => node
  | some community => { node with attrs := node.attrs.insert "community" community }

def nodeById (id : String) : Option Node :=
  (view.idxOf[NodeId.mk id]?).map fun ix => view.stampCommunity (view.state.graph.nodes.get ix)

def nodesByLabel (label : String) : List Node :=
  (view.state.graph.nodes.filter fun n => n.label = label).map view.stampCommunity

/-- In process, of a single text: an id wins, else the label. -/
def resolveEndpoint (value : String) : Resolved :=
  match view.nodeById value with
  | some n => .one n
  | none => .ofCandidates (view.nodesByLabel value)

/-- In process, of separate arguments. -/
def resolveTarget (id label src : Option String) : Resolved :=
  match id with
  | some id =>
      match view.nodeById id with
      | some n => .one n
      | none => .none
  | none =>
      .ofCandidates ((view.nodesByLabel (label.getD "")).filter fun n =>
        src.all fun src => n.sourceFile = some src)

/-- In the daemon. -/
def resolveNodeAddress (address : NodeAddress) : Except AddressError Node :=
  match address.id with
  | some id =>
      match view.nodeById id with
      | some node => .ok node
      | none => .error (.notFound id)
  | none =>
      match address.label with
      | none => .error .unspecified
      | some label =>
          let candidates := (view.nodesByLabel label).filter fun n =>
            address.src.all fun src => n.sourceFile = some src
          match candidates with
          | [] => .error (.noLabel label address.src)
          | [node] => .ok node
          | candidates => .error (.ambiguous label candidates)

/-- What a client of the daemon gets for a single text. -/
def resolveAddress (value : String) : Resolved :=
  .ofAnswer (view.resolveNodeAddress (NodeAddress.parse value))

/-- **What is printed for a node leads back to it**: the `id=` text to the node alone, as an
id and as an address; its label to the node or to candidates with the node among them. -/
structure LeadsBack (n : Node) : Prop where
  byId : view.resolveTarget (some (Format.printedId n)) none none = .one (view.stampCommunity n)
  byAddress : view.resolveNodeAddress (NodeAddress.parse (Format.printedId n))
    = .ok (view.stampCommunity n)
  labelField : (view.resolveTarget none (some n.label) none).LeadsTo (view.stampCommunity n)
  labelEndpoint : (view.resolveEndpoint n.label).LeadsTo (view.stampCommunity n)
  labelAddress : (view.resolveAddress n.label).LeadsTo (view.stampCommunity n)

/-- Every printed address leads back, and the two resolvers agree on every text. -/
structure Addresses : Prop where
  leadsBack : ∀ n ∈ view.state.graph.nodes, view.LeadsBack n
  agree : ∀ s, (view.resolveEndpoint s).Same (view.resolveAddress s)

end GraphView

/-- What the id and the label of a node must be like. -/
structure Addressable (state : GraphState) (n : Node) : Prop where
  short : n.id.val.toList.length ≤ Format.maxLabelLen
  printable : ∀ c ∈ n.id.val.toList, Format.isControl c = false
  tagged : ':' ∈ n.id.val.toList ∨ n.label = n.id.val
  plain : ':' ∈ n.label.toList → n.label = n.id.val
  unshared : ∀ m ∈ state.graph.nodes, m.id.val = n.label → m = n

/-! ### Single texts -/

namespace Resolved

variable {n : Node} {candidates : List Node}

theorem leadsTo_ofCandidates (h : n ∈ candidates) : (ofCandidates candidates).LeadsTo n := by
  unfold ofCandidates
  split
  · cases h
  · exact (List.mem_singleton.mp h).symm
  · exact h

theorem ofCandidates_eq_one (h : ofCandidates candidates = one n) : candidates = [n] := by
  unfold ofCandidates at h
  split at h
  · cases h
  · cases h
    rfl
  · cases h

end Resolved

namespace GraphView

section Texts

variable (view : GraphView)

@[simp] theorem id_stampCommunity (n : Node) : (view.stampCommunity n).id = n.id := by
  rw [stampCommunity]
  split <;> rfl

@[simp] theorem label_stampCommunity (n : Node) : (view.stampCommunity n).label = n.label := by
  rw [stampCommunity]
  split <;> rfl

theorem mem_nodesByLabel {n : Node} (hn : n ∈ view.state.graph.nodes) :
    view.stampCommunity n ∈ view.nodesByLabel n.label :=
  List.mem_map_of_mem (List.mem_filter.mpr ⟨hn, by simp⟩)

/-- A text with a colon is an id. -/
theorem answer_of_colon {s : String} (hs : ':' ∈ s.toList) :
    view.resolveNodeAddress (NodeAddress.parse s) = match view.nodeById s with
      | some node => .ok node
      | none => .error (.notFound s) := by
  rw [NodeAddress.parse, if_pos hs]
  rfl

theorem resolveAddress_of_colon {s : String} (hs : ':' ∈ s.toList) :
    view.resolveAddress s = ((view.nodeById s).map Resolved.one).getD .none := by
  rw [resolveAddress, answer_of_colon view hs]
  cases hid : view.nodeById s <;> rfl

/-- Any other text is a label. -/
theorem answer_of_plain {s : String} (hs : ':' ∉ s.toList) :
    view.resolveNodeAddress (NodeAddress.parse s) = match view.nodesByLabel s with
      | [] => .error (.noLabel s none)
      | [node] => .ok node
      | candidates => .error (.ambiguous s candidates) := by
  rw [NodeAddress.parse, if_neg hs]
  simp only [resolveNodeAddress, NodeAddress.byLabel, Option.all_none, List.filter_true]

theorem resolveAddress_of_plain {s : String} (hs : ':' ∉ s.toList) :
    view.resolveAddress s = .ofCandidates (view.nodesByLabel s) := by
  rw [resolveAddress, answer_of_plain view hs]
  cases view.nodesByLabel s with
  | nil => rfl
  | cons node rest => cases rest <;> rfl

theorem resolveEndpoint_eq (s : String) : view.resolveEndpoint s
    = ((view.nodeById s).map Resolved.one).getD (.ofCandidates (view.nodesByLabel s)) := by
  rw [resolveEndpoint]
  cases view.nodeById s <;> rfl

theorem resolveTarget_id (s : String) : view.resolveTarget (some s) none none
    = ((view.nodeById s).map Resolved.one).getD .none := by
  rw [resolveTarget]
  cases view.nodeById s <;> rfl

theorem resolveTarget_label (s : String) :
    view.resolveTarget none (some s) none = .ofCandidates (view.nodesByLabel s) := by
  simp only [resolveTarget, Option.getD_some, Option.all_none, List.filter_true]

end Texts

/-! ### Unique ids -/

section Unique

variable {state : GraphState}

/-- An id finds nothing but the node that bears it. -/
theorem nodeById_eq_some {s : String} {x : Node} (h : (new state).nodeById s = some x) :
    ∃ n ∈ state.graph.nodes, n.id.val = s ∧ x = (new state).stampCommunity n := by
  obtain ⟨ix, hix, hx⟩ := Option.map_eq_some_iff.mp h
  exact ⟨_, List.get_mem state.graph.nodes ix,
    congrArg NodeId.val (id_of_buildIdxOf state hix), hx.symm⟩

variable (hids : (state.graph.nodes.map Node.id).Nodup)
include hids

theorem eq_of_id_eq {m n : Node} (hm : m ∈ state.graph.nodes) (hn : n ∈ state.graph.nodes)
    (h : m.id = n.id) : m = n :=
  List.inj_on_of_nodup_map hids hm hn h

theorem nodeById_of_mem {n : Node} (hn : n ∈ state.graph.nodes) :
    (new state).nodeById n.id.val = some ((new state).stampCommunity n) := by
  obtain ⟨ix, hix⟩ := exists_index ⟨n, hn, rfl⟩
  have hget : state.graph.nodes.get ix = n :=
    eq_of_id_eq hids (List.get_mem _ ix) hn (id_of_buildIdxOf state hix)
  refine Option.map_eq_some_iff.mpr ⟨ix, hix, ?_⟩
  exact congrArg (new state).stampCommunity hget

theorem eq_of_stamp_eq {m n : Node} (hm : m ∈ state.graph.nodes) (hn : n ∈ state.graph.nodes)
    (h : (new state).stampCommunity m = (new state).stampCommunity n) : m = n := by
  refine eq_of_id_eq hids hm hn ?_
  rw [← id_stampCommunity (new state) m, h, id_stampCommunity]

/-- What a node must be like for what is printed for it to lead back. -/
theorem addressable_of_leadsBack {n : Node} (hn : n ∈ state.graph.nodes)
    (h : (new state).LeadsBack n) : Addressable state n := by
  have hprinted : Format.printedId n = n.id.val := by
    have hone := h.byId
    rw [resolveTarget_id] at hone
    cases hid : (new state).nodeById (Format.printedId n) with
    | none => simp [hid] at hone
    | some x =>
        obtain ⟨m, hm, hms, rfl⟩ := nodeById_eq_some hid
        have heq : (new state).stampCommunity m = (new state).stampCommunity n := by
          simpa [hid] using hone
        rw [← hms, eq_of_stamp_eq hids hm hn heq]
  obtain ⟨hshort, hcontrol⟩ := (Format.sanitize_eq_self_iff n.id.val).mp hprinted
  refine ⟨hshort, hcontrol, ?_, ?_, ?_⟩
  · by_cases hcolon : ':' ∈ n.id.val.toList
    · exact Or.inl hcolon
    · have hone := h.byAddress
      rw [hprinted, answer_of_plain _ hcolon] at hone
      have hcandidates : (new state).nodesByLabel n.id.val = [(new state).stampCommunity n] := by
        split at hone
        · cases hone
        · rename_i heq
          cases hone
          exact heq
        · cases hone
      have hmem : (new state).stampCommunity n ∈ (new state).nodesByLabel n.id.val := by
        rw [hcandidates]
        exact List.mem_singleton_self _
      obtain ⟨m, hm, heq⟩ := List.mem_map.mp hmem
      obtain ⟨hm, hlabel⟩ := List.mem_filter.mp hm
      rw [eq_of_stamp_eq hids hm hn heq] at hlabel
      exact Or.inr (by simpa using hlabel)
  · intro hcolon
    have hleads := h.labelAddress
    rw [resolveAddress_of_colon _ hcolon] at hleads
    cases hid : (new state).nodeById n.label with
    | none => simp [hid, Resolved.LeadsTo] at hleads
    | some x =>
        obtain ⟨m, hm, hlabel, rfl⟩ := nodeById_eq_some hid
        have heq : (new state).stampCommunity m = (new state).stampCommunity n := by
          simpa [hid, Resolved.LeadsTo] using hleads
        rw [← hlabel, eq_of_stamp_eq hids hm hn heq]
  · intro m hm hlabel
    have hleads := h.labelEndpoint
    rw [resolveEndpoint_eq, ← hlabel, nodeById_of_mem hids hm] at hleads
    exact eq_of_stamp_eq hids hm hn hleads

variable (hall : ∀ n ∈ state.graph.nodes, Addressable state n)
include hall

/-- A label that is an id is borne by that node alone. -/
theorem nodesByLabel_of_id {n : Node} (hn : n ∈ state.graph.nodes) (hlabel : n.label = n.id.val) :
    (new state).nodesByLabel n.id.val = [(new state).stampCommunity n] := by
  have hfilter : (state.graph.nodes.filter fun m => m.label = n.id.val) = [n] := by
    have hiff : ∀ m ∈ state.graph.nodes, decide (m.label = n.id.val) = decide (m = n) := by
      intro m hm
      rw [decide_eq_decide]
      constructor
      · intro h
        exact ((hall m hm).unshared n hn h.symm).symm
      · intro h
        rw [h, hlabel]
    rw [List.filter_congr hiff, List.filter_eq, List.count_eq_one_of_mem hids.of_map hn]
    rfl
  rw [nodesByLabel]
  change ((state.graph.nodes.filter _).map _) = _
  rw [hfilter]
  rfl

theorem leadsBack_of_addressable {n : Node} (hn : n ∈ state.graph.nodes) :
    (new state).LeadsBack n := by
  have ha := hall n hn
  have hprinted : Format.printedId n = n.id.val :=
    (Format.sanitize_eq_self_iff n.id.val).mpr ⟨ha.short, ha.printable⟩
  have hid := nodeById_of_mem hids hn
  have hmem := (new state).mem_nodesByLabel hn
  refine ⟨?_, ?_, ?_, ?_, ?_⟩
  · rw [hprinted, resolveTarget_id, hid]
    rfl
  · rw [hprinted]
    by_cases hcolon : ':' ∈ n.id.val.toList
    · rw [answer_of_colon _ hcolon, hid]
    · rw [answer_of_plain _ hcolon,
        nodesByLabel_of_id hids hall hn (ha.tagged.resolve_left hcolon)]
  · rw [resolveTarget_label]
    exact Resolved.leadsTo_ofCandidates hmem
  · rw [resolveEndpoint_eq]
    cases hlabel : (new state).nodeById n.label with
    | none => exact Resolved.leadsTo_ofCandidates hmem
    | some x =>
        obtain ⟨m, hm, hms, rfl⟩ := nodeById_eq_some hlabel
        rw [ha.unshared m hm hms]
        rfl
  · by_cases hcolon : ':' ∈ n.label.toList
    · rw [resolveAddress_of_colon _ hcolon, ha.plain hcolon, hid]
      rfl
    · rw [resolveAddress_of_plain _ hcolon]
      exact Resolved.leadsTo_ofCandidates hmem

/-- The two resolvers agree on every text. -/
theorem same_of_addressable (s : String) :
    ((new state).resolveEndpoint s).Same ((new state).resolveAddress s) := by
  rw [resolveEndpoint_eq]
  by_cases hcolon : ':' ∈ s.toList
  · rw [resolveAddress_of_colon _ hcolon]
    cases hid : (new state).nodeById s with
    | some x => exact Resolved.same_self _
    | none =>
        have hempty : (new state).nodesByLabel s = [] := by
          refine List.map_eq_nil_iff.mpr (List.filter_eq_nil_iff.mpr ?_)
          intro n hn hlabel
          have hs : n.label = s := by simpa using hlabel
          have hplain := (hall n hn).plain (by rwa [hs])
          rw [← hs, hplain, nodeById_of_mem hids hn] at hid
          cases hid
        rw [hempty]
        exact Resolved.same_self _
  · rw [resolveAddress_of_plain _ hcolon]
    cases hid : (new state).nodeById s with
    | none => exact Resolved.same_self _
    | some x =>
        obtain ⟨n, hn, rfl, rfl⟩ := nodeById_eq_some hid
        rw [nodesByLabel_of_id hids hall hn ((hall n hn).tagged.resolve_left hcolon)]
        exact Resolved.same_self _

end Unique

/-- **Every printed address leads back** exactly when the ids of the nodes print in full, an
id without a colon and a label with one are the same text, and no label is the id of another
node. -/
theorem addresses_iff (state : GraphState) (hids : (state.graph.nodes.map Node.id).Nodup) :
    (new state).Addresses ↔ ∀ n ∈ state.graph.nodes, Addressable state n := by
  constructor
  · intro h n hn
    exact addressable_of_leadsBack hids hn (h.leadsBack n hn)
  · intro hall
    refine ⟨?_, ?_⟩
    · intro n hn
      exact leadsBack_of_addressable hids hall hn
    · intro s
      exact same_of_addressable hids hall s

/-! ### An imported graph -/

def addressNode (id label : String) : Node where
  id := ⟨id⟩
  label := label
  kind := "concept"
  sourceFile := none
  sourceSpan := none
  attrs := ∅

/-- Two functions of one name and a concept whose id is its label. -/
def taggedState : GraphState :=
  { GraphState.empty with
    graph := ⟨[addressNode "fn:a.rs:run" "run", addressNode "fn:b.rs:run" "run",
      addressNode "Order" "Order"], []⟩ }

theorem addresses_iff_tagged : (new taggedState).Addresses := by
  refine (addresses_iff taggedState (by decide +kernel)).mpr ?_
  intro n hn
  have hshort : ∀ n ∈ taggedState.graph.nodes, n.id.val.toList.length ≤ Format.maxLabelLen := by
    decide +kernel
  have hcontrol : ∀ n ∈ taggedState.graph.nodes,
      (n.id.val.toList.all fun c => !Format.isControl c) = true := by
    decide +kernel
  have htagged : ∀ n ∈ taggedState.graph.nodes, ':' ∈ n.id.val.toList ∨ n.label = n.id.val := by
    decide +kernel
  have hplain : ∀ n ∈ taggedState.graph.nodes, ':' ∈ n.label.toList → n.label = n.id.val := by
    decide +kernel
  have hunshared : ∀ n ∈ taggedState.graph.nodes, ∀ m ∈ taggedState.graph.nodes,
      m.id.val = n.label → m = n := by
    decide +kernel
  exact ⟨hshort n hn, by simpa using hcontrol n hn, htagged n hn, hplain n hn, hunshared n hn⟩

/-- A C++ method: its label has colons. -/
def qualifiedState : GraphState :=
  { GraphState.empty with
    graph := ⟨[addressNode "fn:shop.cpp:Shop::open" "Shop::open"], []⟩ }

/-- The label is not found by the daemon, and it is found in process. -/
theorem not_addresses : (qualifiedState.graph.nodes.map Node.id).Nodup
    ∧ ¬ (new qualifiedState).Addresses := by
  refine ⟨by decide +kernel, ?_⟩
  intro h
  have hsame := h.agree "Shop::open"
  have hcolon : ':' ∈ "Shop::open".toList := by decide
  have hnone : (new qualifiedState).nodeById "Shop::open" = none := by
    cases hid : (new qualifiedState).nodeById "Shop::open" with
    | none => rfl
    | some x =>
        obtain ⟨m, hm, hs, -⟩ := nodeById_eq_some hid
        rw [List.mem_singleton.mp hm] at hs
        exact absurd hs (by decide)
  rw [resolveEndpoint_eq, resolveAddress_of_colon _ hcolon, hnone] at hsame
  have hone : (new qualifiedState).nodesByLabel "Shop::open"
      = [(new qualifiedState).stampCommunity (addressNode "fn:shop.cpp:Shop::open" "Shop::open")] :=
    rfl
  rw [hone] at hsame
  exact hsame

end GraphView

end Filigrio
