import Filigrio.Install.Node

/-!
# Filigrio.Install.Walk

The one pass over a document's events that locates the container mapping and our entry in it
(`walk`). What the parser emits is given: a list of events with their spans, or an error in
their place.

Below a level where anything is looked for, the events of a tree change nothing but the slot
of the open mapping, the end of the open scan and the value being built (`steps_quiet`).
-/

namespace Filigrio.Yaml

/-! ### Lines -/

/-- `b'\n'`. -/
def newline : UInt8 := 10

/-- `rfind('\n')`. -/
def rfind : List UInt8 → Option ℕ
  | [] => none
  | b :: bs =>
      match rfind bs with
      | some i => some (i + 1)
      | none => if b = newline then some 0 else none

/-- The byte offset of the start of the line containing `index`. -/
def lineStart (content : List UInt8) (index : ℕ) : ℕ :=
  match rfind (content.take index) with
  | none => 0
  | some i => i + 1

/-- The byte offset just past the newline that ends the line containing `index`. -/
def lineEnd (content : List UInt8) (index : ℕ) : ℕ :=
  match (content.drop index).findIdx? (· = newline) with
  | none => content.length
  | some i => index + i + 1

theorem rfind_spec (s : List UInt8) :
    match rfind s with
    | none => ∀ p : ℕ, s[p]? ≠ some newline
    | some i => s[i]? = some newline ∧ ∀ p : ℕ, s[p]? = some newline → p ≤ i := by
  induction s with
  | nil => simp [rfind]
  | cons b bs ih =>
      rw [rfind]
      cases hr : rfind bs with
      | some i =>
          rw [hr] at ih
          refine ⟨by simpa using ih.1, fun p hp => ?_⟩
          cases p with
          | zero => omega
          | succ p =>
              have hle := ih.2 p (by simpa using hp)
              omega
      | none =>
          rw [hr] at ih
          simp only at ih ⊢
          split <;> rename_i hsplit
          · split at hsplit
            · cases hsplit
            · rename_i hb
              intro p
              cases p with
              | zero => simpa using hb
              | succ p => simpa using ih p
          · split at hsplit
            · rename_i hb
              cases hsplit
              refine ⟨by simpa using hb, fun p hp => ?_⟩
              cases p with
              | zero => exact le_rfl
              | succ p => exact absurd (by simpa using hp) (ih p)
            · cases hsplit

/-- A line starts at the beginning or behind a newline. -/
theorem lineStart_cases (content : List UInt8) (index : ℕ) :
    lineStart content index = 0 ∨ ∃ p, lineStart content index = p + 1 ∧ p < index
      ∧ content[p]? = some newline := by
  have h := rfind_spec (content.take index)
  rw [lineStart]
  cases hr : rfind (content.take index) with
  | none => exact .inl rfl
  | some i =>
      rw [hr] at h
      obtain ⟨hi, -⟩ := h
      rw [List.getElem?_take] at hi
      split at hi
      · rename_i hlt
        exact .inr ⟨i, rfl, hlt, hi⟩
      · cases hi

theorem lineStart_le (content : List UInt8) (index : ℕ) : lineStart content index ≤ index := by
  rcases lineStart_cases content index with h | ⟨p, h, hp, -⟩ <;> omega

/-- No newline stands between the start of the line and the index. -/
theorem lt_lineStart {content : List UInt8} {index p : ℕ} (hp : p < index)
    (hn : content[p]? = some newline) : p < lineStart content index := by
  have h := rfind_spec (content.take index)
  have hin : (content.take index)[p]? = some newline := by
    rw [List.getElem?_take, if_pos hp]
    exact hn
  rw [lineStart]
  cases hr : rfind (content.take index) with
  | none =>
      rw [hr] at h
      exact absurd hin (h p)
  | some i =>
      rw [hr] at h
      have hle := h.2 p hin
      simp only
      omega

/-- A line ends behind its newline, or with the text. -/
theorem lineEnd_cases (content : List UInt8) (index : ℕ) :
    (lineEnd content index = content.length ∧ ∀ p, index ≤ p → content[p]? ≠ some newline)
      ∨ ∃ p, lineEnd content index = p + 1 ∧ index ≤ p ∧ content[p]? = some newline
        ∧ ∀ q, index ≤ q → content[q]? = some newline → p ≤ q := by
  rw [lineEnd]
  cases hf : (content.drop index).findIdx? (· = newline) with
  | none =>
      refine .inl ⟨rfl, fun p hp hn => ?_⟩
      rw [List.findIdx?_eq_none_iff] at hf
      have hmem : newline ∈ content.drop index := by
        refine List.mem_of_getElem? (i := p - index) ?_
        rw [List.getElem?_drop, Nat.add_sub_cancel' hp]
        exact hn
      simpa using hf newline hmem
  | some i =>
      rw [List.findIdx?_eq_some_iff_getElem] at hf
      obtain ⟨hlt, hi, hmin⟩ := hf
      rw [List.length_drop] at hlt
      refine .inr ⟨index + i, rfl, by omega, ?_, fun q hq hn => ?_⟩
      · rw [List.getElem?_eq_getElem (by omega)]
        simpa using hi
      · by_contra hlt'
        have hq' := hmin (q - index) (by omega)
        obtain ⟨hlen, hval⟩ := List.getElem?_eq_some_iff.1 hn
        simp [Nat.add_sub_cancel' hq, hval] at hq'

/-- The line of an index ends at or before the first newline from there. -/
theorem lineEnd_le {content : List UInt8} {index p : ℕ} (hp : index ≤ p)
    (hn : content[p]? = some newline) : lineEnd content index ≤ p + 1 := by
  rcases lineEnd_cases content index with ⟨-, h⟩ | ⟨q, h, -, -, hmin⟩
  · exact absurd hn (h p hp)
  · have hle := hmin p hp hn
    omega

theorem le_lineEnd {content : List UInt8} {index : ℕ} (h : index ≤ content.length) :
    index ≤ lineEnd content index := by
  rcases lineEnd_cases content index with ⟨h', -⟩ | ⟨q, h', hq, -⟩ <;> omega

theorem lt_lineEnd {content : List UInt8} {index : ℕ} (h : index < content.length) :
    index < lineEnd content index := by
  rcases lineEnd_cases content index with ⟨h', -⟩ | ⟨q, h', hq, -⟩ <;> omega

theorem lineEnd_mono (content : List UInt8) {i j : ℕ} (hij : i ≤ j) :
    lineEnd content i ≤ lineEnd content j := by
  rcases lineEnd_cases content j with ⟨h, -⟩ | ⟨q, h, hq, hn, -⟩
  · rw [h]
    rcases lineEnd_cases content i with ⟨h', -⟩ | ⟨p, h', -, hn', -⟩
    · exact h'.le
    · obtain ⟨hlt, -⟩ := List.getElem?_eq_some_iff.1 hn'
      omega
  · rw [h]
    exact lineEnd_le (hij.trans hq) hn

/-- Reading one byte back reaches the end of another line exactly behind a newline. -/
theorem lineEnd_succ {content : List UInt8} {i : ℕ} (hi : i < content.length) :
    lineEnd content (i + 1) = lineEnd content i
      ↔ content[i]? ≠ some newline ∨ i + 1 = content.length := by
  constructor
  · intro h
    by_contra hno
    simp only [not_or, not_not] at hno
    have hle := lineEnd_le le_rfl hno.1
    have hlt : i + 1 < lineEnd content (i + 1) := lt_lineEnd (by omega)
    omega
  · rintro (hn | hlen)
    · refine le_antisymm ?_ (lineEnd_mono content (by omega))
      rcases lineEnd_cases content i with ⟨h, -⟩ | ⟨q, h, hq, hnq, -⟩
      · rw [h]
        rcases lineEnd_cases content (i + 1) with ⟨h', -⟩ | ⟨p, h', -, hn', -⟩
        · exact h'.le
        · obtain ⟨hlt, -⟩ := List.getElem?_eq_some_iff.1 hn'
          omega
      · have hne : q ≠ i := by
          rintro rfl
          exact hn hnq
        rw [h]
        exact lineEnd_le (by omega) hnq
    · have h₁ : i + 1 ≤ lineEnd content (i + 1) := le_lineEnd hi
      have h₂ := lineEnd_mono content (i.le_add_right 1)
      have h₃ := lt_lineEnd hi
      rcases lineEnd_cases content (i + 1) with ⟨h', -⟩ | ⟨p, h', hp, hn', -⟩
      · omega
      · obtain ⟨hlt, -⟩ := List.getElem?_eq_some_iff.1 hn'
        omega

/-! ### The walk -/

/-- A located block mapping: where its entries begin, and how far they are indented. -/
structure Mapping where
  bodyStart : ℕ
  indent : ℕ
  deriving DecidableEq, Repr

/-- Why a document could not be located in. -/
inductive LocateError
  | inline
  | multiDocument
  | parse (why : String)
  deriving DecidableEq, Repr

/-- What the innermost collection is; of a mapping, whether a key comes next. -/
inductive Ctx
  | map (expectKey : Bool)
  | seq
  deriving DecidableEq, Repr

/-- `DEFAULT_INDENT`. -/
def DEFAULT_INDENT : ℕ := 2

/-- `*expect_key = !*expect_key`. -/
def Ctx.flip : Ctx → Ctx
  | .map e => .map (!e)
  | .seq => .seq

/-- `*expect_key = true`. -/
def Ctx.realign : Ctx → Ctx
  | .map _ => .map true
  | .seq => .seq

/-- Change the top of a stack (`last_mut`). -/
def onTop {α : Type*} (f : α → α) : List α → List α
  | [] => []
  | a :: as => f a :: as

/-- The open entry: the start of its first line, the depth it returns to, the end of the last
text seen. -/
structure Scan where
  start : ℕ
  depth : ℕ
  last : ℕ
  deriving DecidableEq, Repr

/-- The variables of the loop. The innermost collection comes first in `stack`. -/
structure Walk where
  stack : List Ctx := []
  docs : ℕ := 0
  mapping : Option Mapping := none
  entry : Option (ℕ × ℕ) := none
  entryValue : Option Node := none
  builder : Option (List Building) := none
  containerKeyEnd : Option ℕ := none
  inside : Option ℕ := none
  scan : Option Scan := none
  refusal : Option LocateError := none

/-- What one walk of the document found. -/
structure Found where
  mapping : Option Mapping
  entry : Option (ℕ × ℕ)
  value : Option Node
  deriving DecidableEq

/-- Only text extends the entry. -/
def Scan.extend (s : Scan) (span : Span) : Scan :=
  if span.bearsText then { s with last := max s.last span.stop } else s

section

variable (content : List UInt8) (container key : String)

/-- The arm of a scalar. -/
def Walk.onScalar (w : Walk) (value : String) (span : Span) : Walk :=
  let isKey := w.stack.head? = some (.map true)
  let w := { w with stack := onTop Ctx.flip w.stack }
  if isKey ∧ w.stack.length = 1 ∧ value = container then
    { w with containerKeyEnd := some span.stop }
  else if isKey ∧ w.inside = some w.stack.length ∧ value = key then
    { w with
      scan := some ⟨lineStart content span.start, w.stack.length, span.stop⟩
      builder := some [] }
  else if ¬ isKey ∧ w.stack.length = 1 ∧ w.mapping = none then
    match w.containerKeyEnd with
    | none => w
    | some keyEnd =>
        if span.bearsText then { w with refusal := some .inline, containerKeyEnd := none }
        else { w with mapping := some ⟨lineEnd content keyEnd, DEFAULT_INDENT⟩ }
  else w

/-- The arm of a collection that opens. -/
def Walk.onOpen (w : Walk) (isMapping : Bool) (span : Span) : Walk :=
  let openingValue := w.stack.head? = some (.map false)
  let w := { w with stack := onTop Ctx.realign w.stack }
  let w :=
    if openingValue ∧ w.stack.length = 1 ∧ w.mapping = none then
      match w.containerKeyEnd with
      | none => w
      | some keyEnd =>
          if isMapping = false ∨ span.bearsText then
            { w with refusal := some .inline, containerKeyEnd := none }
          else
            { w with
              mapping := some ⟨lineEnd content keyEnd, span.start - lineStart content span.start⟩
              inside := some (w.stack.length + 1) }
    else w
  { w with stack := (if isMapping then .map true else .seq) :: w.stack }

/-- The arm of a collection that ends. -/
def Walk.onClose (w : Walk) : Walk :=
  let stack := w.stack.tail
  { w with stack, inside := w.inside.filter fun d => ¬ stack.length < d }

/-- The `match` over the event. -/
def Walk.on (w : Walk) : Event → Span → Except LocateError Walk
  | .documentStart, _ =>
      if w.docs + 1 > 1 then .error .multiDocument else .ok { w with docs := w.docs + 1 }
  | .scalar value, span => .ok (w.onScalar content container key value span)
  | .mappingStart, span => .ok (w.onOpen content true span)
  | .sequenceStart, span => .ok (w.onOpen content false span)
  | .mappingEnd, _ | .sequenceEnd, _ => .ok w.onClose
  -- An alias occupies whichever slot is next.
  | .alias _, _ => .ok { w with stack := onTop Ctx.flip w.stack }
  | .streamStart, _ | .streamEnd, _ | .documentEnd, _ | .nothing, _ => .ok w

/-- `if building { … }`: feed the builder, and keep the value it completes. -/
def Walk.collect (w : Walk) (building : Bool) (event : Event) : Walk :=
  match building, w.builder with
  | true, some opened =>
      match NodeBuilder.feed opened event with
      | (opened, none) => { w with builder := some opened }
      | (_, some node) => { w with builder := none, entryValue := some node }
  | _, _ => w

/-- `E::Scalar(..) | E::MappingEnd | E::SequenceEnd`. -/
def Event.completes : Event → Bool
  | .scalar _ | .mappingEnd | .sequenceEnd => true
  | _ => false

/-- The entry is finished once the stack is back at the depth of its key. -/
def Walk.close (w : Walk) (scanning : Bool) (event : Event) : Walk :=
  match scanning, w.scan with
  | true, some s =>
      if w.stack.length < s.depth ∨ (w.stack.length = s.depth ∧ event.completes) then
        { w with entry := some (s.start, lineEnd content s.last), scan := none }
      else w
  | _, _ => w

/-- The body of the loop. -/
def Walk.step (w : Walk) (e : Event × Span) : Except LocateError Walk :=
  let scanning := w.scan.isSome
  let building := w.builder.isSome
  let w := { w with scan := w.scan.map (Scan.extend · e.2) }
  (w.on content container key e.1 e.2).map fun w => (w.collect building e.1).close content scanning e.1

/-- The loop. -/
def Walk.run (w : Walk) : List (Except String (Event × Span)) → Except LocateError Walk
  | [] => .ok w
  | .error why :: _ => .error (.parse why)
  | .ok e :: rest => (w.step content container key e).bind fun w => w.run rest

/-- What is left to do behind the loop. -/
def Walk.finish (w : Walk) : Except LocateError Found :=
  match w.refusal with
  | some r => .error r
  | none =>
      .ok
        { mapping := w.mapping
          -- An entry whose mapping ran to the end of the stream.
          entry :=
            match w.scan with
            | some s => some (s.start, lineEnd content s.last)
            | none => w.entry
          value := w.entryValue }

/-- Walk the document once, locating the container mapping and our entry inside it. -/
def walk (events : List (Except String (Event × Span))) : Except LocateError Found :=
  (({} : Walk).run content container key events).bind fun w => w.finish content

end

/-! ### Steps -/

variable {content : List UInt8} {container key : String} {w w' w'' : Walk}

/-- The walk goes through the events from `w` to `w'`. -/
def Steps (content : List UInt8) (container key : String) (w : Walk) (events : List (Event × Span))
    (w' : Walk) : Prop :=
  w.run content container key (events.map .ok) = .ok w'

theorem Steps.nil (w : Walk) : Steps content container key w [] w := rfl

theorem Steps.cons {e : Event × Span} {es : List (Event × Span)}
    (h : w.step content container key e = .ok w') (hs : Steps content container key w' es w'') :
    Steps content container key w (e :: es) w'' := by
  rw [Steps, List.map_cons, Walk.run, h]
  exact hs

theorem Steps.single {e : Event × Span} (h : w.step content container key e = .ok w') :
    Steps content container key w [e] w' :=
  Steps.cons h (.nil w')

theorem Steps.append {es fs : List (Event × Span)} (h : Steps content container key w es w')
    (h' : Steps content container key w' fs w'') : Steps content container key w (es ++ fs) w'' := by
  induction es generalizing w with
  | nil =>
      cases h
      exact h'
  | cons e es ih =>
      rw [Steps, List.map_cons, Walk.run] at h
      cases hstep : w.step content container key e with
      | error err =>
          rw [hstep] at h
          cases h
      | ok w₁ =>
          rw [hstep] at h
          exact Steps.cons hstep (ih h)

@[simp] theorem length_onTop {α : Type*} (f : α → α) (s : List α) : (onTop f s).length = s.length := by
  cases s <;> simp [onTop]

theorem onTop_onTop {α : Type*} (f g : α → α) (s : List α) :
    onTop f (onTop g s) = onTop (fun a => f (g a)) s := by
  cases s <;> simp [onTop]

@[simp] theorem onTop_id {α : Type*} (s : List α) : onTop (fun a => a) s = s := by
  cases s <;> simp [onTop]

/-! ### Where nothing is looked for -/

/-- The slot after a tree, as the walk counts: a scalar or an alias takes the next slot, a
collection makes the next slot a key. -/
def Ctx.after (c : Ctx) : Tree → Ctx
  | .scalar _ _ | .alias _ _ => c.flip
  | .seq _ _ _ | .map _ _ _ => c.realign

@[simp] theorem Ctx.after_seq (t : Tree) : Ctx.seq.after t = .seq := by
  cases t <;> rfl

@[simp] theorem Ctx.foldl_after_seq (ts : List Tree) : ts.foldl Ctx.after .seq = .seq := by
  induction ts with
  | nil => rfl
  | cons t ts ih => rw [List.foldl_cons, Ctx.after_seq, ih]

/-- The end of the entry once the events of the given spans are read. -/
def Scan.extendAll (s : Scan) (spans : List Span) : Scan := spans.foldl Scan.extend s

@[simp] theorem Scan.extend_depth (s : Scan) (span : Span) : (s.extend span).depth = s.depth := by
  rw [Scan.extend]
  split <;> rfl

@[simp] theorem Scan.extend_start (s : Scan) (span : Span) : (s.extend span).start = s.start := by
  rw [Scan.extend]
  split <;> rfl

@[simp] theorem Scan.extendAll_depth (s : Scan) (spans : List Span) :
    (s.extendAll spans).depth = s.depth := by
  induction spans generalizing s with
  | nil => rfl
  | cons span spans ih => exact (ih _).trans (s.extend_depth span)

@[simp] theorem Scan.extendAll_start (s : Scan) (spans : List Span) :
    (s.extendAll spans).start = s.start := by
  induction spans generalizing s with
  | nil => rfl
  | cons span spans ih => exact (ih _).trans (s.extend_start span)

/-- The walk after trees in which nothing is looked for. -/
def Walk.passed (w : Walk) (ts : List Tree) : Walk :=
  { w with
    stack := onTop (fun c => ts.foldl Ctx.after c) w.stack
    scan := w.scan.map (Scan.extendAll · ((eventsOf ts).map Prod.snd))
    builder := w.builder.map (onTop fun b => (ts.map Tree.node).foldl Building.add b) }

@[simp] theorem Walk.passed_nil (w : Walk) : w.passed [] = w := by
  have hscan : (w.scan.map fun s => s.extendAll []) = w.scan := by
    cases w.scan <;> rfl
  have hbuilder : w.builder.map (onTop fun b => b) = w.builder := by
    cases w.builder <;> simp
  simp [Walk.passed, hscan, hbuilder]

/-- Trees that are passed one after the other are passed together. -/
theorem Walk.passed_passed (w : Walk) (ts us : List Tree) :
    (w.passed ts).passed us = w.passed (ts ++ us) := by
  simp only [Walk.passed, onTop_onTop, Option.map_map, List.foldl_append, eventsOf_append,
    List.map_append, Function.comp_def, Scan.extendAll]

/-- A place where nothing is looked for: neither the document's level nor the container's, and
inside the open entry and its value, where there are such. -/
structure Quiet (w : Walk) : Prop where
  level : 2 ≤ w.stack.length ∨ (w.stack = [.seq] ∧ w.containerKeyEnd = none)
  inside : ∀ d, w.inside = some d → d < w.stack.length
  scan : ∀ s, w.scan = some s → s.depth < w.stack.length
  builder : w.builder ≠ some []

theorem Quiet.passed (h : Quiet w) (ts : List Tree) : Quiet (w.passed ts) where
  level := by
    rcases h.level with h2 | ⟨hs, hk⟩
    · exact .inl (by simpa [Walk.passed] using h2)
    · exact .inr ⟨by simp [Walk.passed, hs, onTop], hk⟩
  inside d hd := by
    have hlt := h.inside d hd
    simpa [Walk.passed] using hlt
  scan s hs := by
    simp only [Walk.passed, Option.map_eq_some_iff] at hs
    obtain ⟨s₀, hs₀, rfl⟩ := hs
    have hlt := h.scan s₀ hs₀
    simpa [Walk.passed] using hlt
  builder := by
    have hne := h.builder
    simp only [Walk.passed, ne_eq, Option.map_eq_some_iff, not_exists, not_and]
    intro bs hbs hnil
    cases bs with
    | nil => exact hne hbs
    | cons b bs => cases hnil

/-- Above the depth of the open entry nothing closes it. -/
theorem Walk.close_of_lt {scanning : Bool} {event : Event}
    (h : ∀ s, w.scan = some s → s.depth < w.stack.length) :
    w.close content scanning event = w := by
  unfold Walk.close
  split
  · rename_i s hs
    have hlt := h s hs
    rw [if_neg (by omega)]
  · rfl

/-- A completed part of the value goes into the collection that is open in it. -/
theorem Walk.collect_place {event : Event} {node : Node} (h : w.builder ≠ some [])
    (hfeed : ∀ b bs, w.builder = some (b :: bs) →
      NodeBuilder.feed (b :: bs) event = NodeBuilder.place (b :: bs) node) :
    w.collect w.builder.isSome event
      = { w with builder := w.builder.map (onTop (Building.add · node)) } := by
  cases hb : w.builder with
  | none =>
      cases w
      subst hb
      rfl
  | some bs =>
      cases bs with
      | nil => exact absurd hb h
      | cons b bs =>
          have hf := hfeed b bs hb
          simp [Walk.collect, hb, hf, NodeBuilder.place, onTop]

/-- The open entry gets longer, which no test of a quiet place sees. -/
theorem Quiet.extend (h : Quiet w) (span : Span) :
    Quiet { w with scan := w.scan.map (Scan.extend · span) } where
  level := h.level
  inside := h.inside
  scan s hs := by
    obtain ⟨s₀, hs₀, rfl⟩ := Option.map_eq_some_iff.1 hs
    simpa using h.scan s₀ hs₀
  builder := h.builder

theorem Quiet.onScalar (h : Quiet w) (value : String) (span : Span) :
    w.onScalar content container key value span = { w with stack := onTop Ctx.flip w.stack } := by
  have hinside : w.inside ≠ some w.stack.length := fun hd => by
    have hlt := h.inside _ hd
    omega
  rcases h.level with h2 | ⟨hs, hk⟩
  · have h1 : w.stack.length ≠ 1 := by omega
    simp [Walk.onScalar, hinside, h1]
  · simp [Walk.onScalar, hs, hk]

theorem Quiet.onOpen (h : Quiet w) (isMapping : Bool) (span : Span) :
    w.onOpen content isMapping span
      = { w with stack := (if isMapping then .map true else .seq) :: onTop Ctx.realign w.stack } := by
  rcases h.level with h2 | ⟨hs, hk⟩
  · have h1 : w.stack.length ≠ 1 := by omega
    simp [Walk.onOpen, h1]
  · simp [Walk.onOpen, hs]

/-- A scalar or an alias where nothing is looked for. -/
theorem Quiet.step_leaf (h : Quiet w) {e : Event × Span} {t : Tree} (ht : t.events = [e])
    (hafter : ∀ c : Ctx, c.after t = c.flip)
    (hon : ∀ w : Walk, Quiet w → w.on content container key e.1 e.2
      = .ok { w with stack := onTop Ctx.flip w.stack })
    (hfeed : ∀ opened, NodeBuilder.feed opened e.1 = NodeBuilder.place opened t.node) :
    w.step content container key e = .ok (w.passed [t]) := by
  have hext := h.extend e.2
  rw [Walk.step, hon _ hext]
  simp only [Except.map]
  congr 1
  rw [Walk.collect_place (w := { w with
      scan := w.scan.map (Scan.extend · e.2), stack := onTop Ctx.flip w.stack }) h.builder
    fun b bs _ => hfeed _]
  rw [Walk.close_of_lt (by simpa using hext.scan)]
  simp [Walk.passed, ht, hafter, Scan.extendAll]

theorem Quiet.step_scalar (h : Quiet w) (value : String) (span : Span) :
    w.step content container key (.scalar value, span) = .ok (w.passed [.scalar value span]) := by
  refine h.step_leaf (by rw [Tree.events]) (fun c => rfl) (fun w hw => ?_) (fun opened => ?_)
  · rw [Walk.on, hw.onScalar]
  · rw [NodeBuilder.feed, Tree.node]

theorem Quiet.step_alias (h : Quiet w) (id : ℕ) (span : Span) :
    w.step content container key (.alias id, span) = .ok (w.passed [.alias id span]) := by
  refine h.step_leaf (by rw [Tree.events]) (fun c => rfl) (fun w hw => ?_) (fun opened => ?_)
  · rw [Walk.on]
  · rw [NodeBuilder.feed, Tree.node]

/-- The event that opens a mapping or a sequence. -/
def Event.start (isMapping : Bool) : Event := if isMapping then .mappingStart else .sequenceStart

/-- The event that ends it. -/
def Event.end (isMapping : Bool) : Event := if isMapping then .mappingEnd else .sequenceEnd

/-- The empty collection a builder opens for it. -/
def Building.start (isMapping : Bool) : Building := if isMapping then .map [] none else .seq []

/-- The slot in it. -/
def Ctx.start (isMapping : Bool) : Ctx := if isMapping then .map true else .seq

/-- What a collection holds of each kind of tree: whether it is a mapping, and its parts in
order. -/
theorem Tree.collection_cases (t : Tree) :
    (∃ v s, t = .scalar v s) ∨ (∃ i s, t = .alias i s) ∨
      ∃ isMapping o ts c, t.events
          = (Event.start isMapping, o) :: (eventsOf ts ++ [(Event.end isMapping, c)])
        ∧ ((ts.map Tree.node).foldl Building.add (Building.start isMapping)).node = t.node
        ∧ (∀ c : Ctx, c.after t = c.realign)
        ∧ ((∃ o c, t = .seq o ts c) ∨ ∃ o es c, t = .map o es c ∧ ts = slots es) := by
  cases t with
  | scalar v s => exact .inl ⟨v, s, rfl⟩
  | «alias» i s => exact .inr (.inl ⟨i, s, rfl⟩)
  | seq o items c =>
      refine .inr (.inr ⟨false, o, items, c, ?_, Tree.built_seq o c items, fun c => rfl,
        .inl ⟨o, c, rfl⟩⟩)
      rw [Tree.events]
      rfl
  | map o es c =>
      refine .inr (.inr ⟨true, o, slots es, c, ?_, Tree.built_map o c es, fun c => rfl,
        .inr ⟨o, es, c, rfl, rfl⟩⟩)
      rw [Tree.events, eventsOfEntries_eq]
      rfl

/-- A collection opens where nothing is looked for. -/
theorem Quiet.step_start (h : Quiet w) (isMapping : Bool) (o : Span) :
    w.step content container key (Event.start isMapping, o)
      = .ok { w with
          stack := Ctx.start isMapping :: onTop Ctx.realign w.stack
          scan := w.scan.map (Scan.extend · o)
          builder := w.builder.map (Building.start isMapping :: ·) } := by
  have hext := h.extend o
  have hon : ({ w with scan := w.scan.map (Scan.extend · o) } : Walk).on content container key
      (Event.start isMapping) o = .ok { w with
        scan := w.scan.map (Scan.extend · o)
        stack := Ctx.start isMapping :: onTop Ctx.realign w.stack } := by
    cases isMapping <;> (simp only [Event.start]; exact congrArg Except.ok (hext.onOpen _ o))
  rw [Walk.step, hon]
  simp only [Except.map]
  congr 1
  have hcollect : ({ w with
        scan := w.scan.map (Scan.extend · o)
        stack := Ctx.start isMapping :: onTop Ctx.realign w.stack } : Walk).collect
      w.builder.isSome (Event.start isMapping) = { w with
        stack := Ctx.start isMapping :: onTop Ctx.realign w.stack
        scan := w.scan.map (Scan.extend · o)
        builder := w.builder.map (Building.start isMapping :: ·) } := by
    cases hb : w.builder with
    | none =>
        cases w
        subst hb
        rfl
    | some bs => cases isMapping <;> simp [Walk.collect, NodeBuilder.feed, Event.start, Building.start]
  rw [hcollect, Walk.close_of_lt]
  intro s hs
  have hlt := hext.scan s hs
  simp only [List.length_cons, length_onTop] at hlt ⊢
  omega

/-- What is inside the collection is quiet as well. -/
theorem Quiet.start (h : Quiet w) (isMapping : Bool) (o : Span) :
    Quiet { w with
      stack := Ctx.start isMapping :: onTop Ctx.realign w.stack
      scan := w.scan.map (Scan.extend · o)
      builder := w.builder.map (Building.start isMapping :: ·) } where
  level := by
    rcases h.level with h2 | ⟨hs, -⟩
    · exact .inl (by simp only [List.length_cons, length_onTop]; omega)
    · exact .inl (by simp [hs, onTop])
  inside d hd := by
    have hlt := h.inside d hd
    simp only [List.length_cons, length_onTop]
    omega
  scan s hs := by
    have hlt := (h.extend o).scan s hs
    simp only [List.length_cons, length_onTop] at hlt ⊢
    omega
  builder := by
    cases w.builder <;> simp

/-- Where the container's mapping is not the one that ends, only the stack changes. -/
theorem Walk.onClose_cons (top : Ctx) (h : ∀ d, w.inside = some d → d ≤ w.stack.length) :
    ({ w with stack := top :: w.stack } : Walk).onClose = w := by
  cases w with
  | mk stack docs mapping entry entryValue builder containerKeyEnd inside scan refusal =>
      simp only [Walk.onClose, List.tail_cons, Walk.mk.injEq, true_and, and_true]
      cases inside with
      | none => rfl
      | some d =>
          have hle : d ≤ stack.length := h d rfl
          simp [Option.filter, hle]

/-- A collection ends, and nothing was looked for in it nor is where it stands. -/
theorem Quiet.step_end (h : Quiet w) (isMapping : Bool) (c : Span) {top : Ctx} {b : Building} :
    ({ w with
      stack := top :: w.stack
      builder := w.builder.map (b :: ·) } : Walk).step content container key
        (Event.end isMapping, c)
      = .ok { w with
          scan := w.scan.map (Scan.extend · c)
          builder := w.builder.map (onTop (Building.add · b.node)) } := by
  have hext := h.extend c
  have hon : ∀ w' : Walk, w'.on content container key (Event.end isMapping) c = .ok w'.onClose := by
    intro w'
    cases isMapping <;> rfl
  have hclose := Walk.onClose_cons (w := { w with
    scan := w.scan.map (Scan.extend · c), builder := w.builder.map (b :: ·) }) top
    fun d hd => (h.inside d hd).le
  rw [Walk.step, hon, hclose]
  simp only [Except.map]
  congr 1
  have hcollect : ({ w with
        scan := w.scan.map (Scan.extend · c)
        builder := w.builder.map (b :: ·) } : Walk).collect
      (w.builder.map (b :: ·)).isSome (Event.end isMapping) = { w with
        scan := w.scan.map (Scan.extend · c)
        builder := w.builder.map (onTop (Building.add · b.node)) } := by
    cases hb : w.builder with
    | none =>
        cases w
        subst hb
        rfl
    | some bs =>
        cases bs with
        | nil => exact absurd hb h.builder
        | cons b' bs =>
            cases isMapping <;>
              simp [Walk.collect, NodeBuilder.feed, NodeBuilder.place, Event.end, onTop]
  rw [hcollect, Walk.close_of_lt]
  exact hext.scan

/-- What the walk is inside a collection that opened at a quiet place, once the trees in it are
read. -/
theorem Walk.passed_start (isMapping : Bool) (o : Span) (ts : List Tree) :
    ({ w with
      stack := Ctx.start isMapping :: onTop Ctx.realign w.stack
      scan := w.scan.map (Scan.extend · o)
      builder := w.builder.map (Building.start isMapping :: ·) } : Walk).passed ts
      = { w with
          stack := ts.foldl Ctx.after (Ctx.start isMapping) :: onTop Ctx.realign w.stack
          scan := w.scan.map (Scan.extendAll · (o :: (eventsOf ts).map Prod.snd))
          builder := w.builder.map
            ((ts.map Tree.node).foldl Building.add (Building.start isMapping) :: ·) } := by
  simp only [Walk.passed, onTop, Option.map_map, Function.comp_def]
  rfl

/-- A collection where nothing is looked for, when its parts are passed. -/
theorem Quiet.steps_collection (h : Quiet w) (isMapping : Bool) (o c : Span) {ts : List Tree}
    (hts : ∀ w, Quiet w → Steps content container key w (eventsOf ts) (w.passed ts)) :
    Steps content container key w
      ((Event.start isMapping, o) :: (eventsOf ts ++ [(Event.end isMapping, c)]))
      { w with
        stack := onTop Ctx.realign w.stack
        scan := w.scan.map
          (Scan.extendAll · (((Event.start isMapping, o)
            :: (eventsOf ts ++ [(Event.end isMapping, c)])).map Prod.snd))
        builder := w.builder.map (onTop (Building.add ·
          ((ts.map Tree.node).foldl Building.add (Building.start isMapping)).node)) } := by
  refine .cons (h.step_start isMapping o) ((hts _ (h.start isMapping o)).append (.single ?_))
  have hquiet : Quiet { w with
      stack := onTop Ctx.realign w.stack
      scan := w.scan.map (Scan.extendAll · (o :: (eventsOf ts).map Prod.snd)) } := by
    constructor
    · rcases h.level with h2 | ⟨hs, hk⟩
      · exact .inl (by simpa using h2)
      · exact .inr ⟨by simp [hs, onTop, Ctx.realign], hk⟩
    · intro d hd
      simpa using h.inside d hd
    · intro s hs
      obtain ⟨s₀, hs₀, rfl⟩ := Option.map_eq_some_iff.1 hs
      simpa using h.scan s₀ hs₀
    · exact h.builder
  rw [Walk.passed_start]
  refine (hquiet.step_end isMapping c).trans (congrArg Except.ok ?_)
  simp only [Option.map_map, Function.comp_def, List.map_cons, List.map_append, List.map_nil]
  simp only [Scan.extendAll, List.foldl_cons, List.foldl_append, List.foldl_nil]

/-- Trees that are each passed are passed together. -/
theorem Quiet.steps_all {ts : List Tree}
    (hts : ∀ t ∈ ts, ∀ w, Quiet w → Steps content container key w t.events (w.passed [t])) :
    ∀ w, Quiet w → Steps content container key w (eventsOf ts) (w.passed ts) := by
  induction ts with
  | nil =>
      intro w _
      rw [eventsOf_nil, Walk.passed_nil]
      exact .nil w
  | cons t ts ih =>
      intro w h
      have hrest := ih (fun u hu => hts u (List.mem_cons_of_mem t hu)) _ (h.passed [t])
      rw [Walk.passed_passed] at hrest
      rw [eventsOf_cons]
      exact (hts t List.mem_cons_self w h).append hrest

/-- Where nothing is looked for, a tree of any shape is passed: by induction on the tree, every
collection in it being quiet in its turn. -/
theorem steps_quiet (t : Tree) :
    ∀ w, Quiet w → Steps content container key w t.events (w.passed [t]) := by
  induction t using Tree.induct with
  | scalar v s =>
      intro w h
      rw [Tree.events]
      exact .single (h.step_scalar v s)
  | ref i s =>
      intro w h
      rw [Tree.events]
      exact .single (h.step_alias i s)
  | seq o items c ih =>
      intro w h
      have hsteps := h.steps_collection false o c (Quiet.steps_all ih)
      have hnode : ((items.map Tree.node).foldl Building.add (Building.start false)).node
          = (Tree.seq o items c).node := Tree.built_seq o c items
      simpa [Walk.passed, hnode, Tree.events, Ctx.after, Event.start, Event.end] using hsteps
  | map o es c ih =>
      intro w h
      have hsteps := h.steps_collection true o c (Quiet.steps_all ih)
      have hnode : (((slots es).map Tree.node).foldl Building.add (Building.start true)).node
          = (Tree.map o es c).node := Tree.built_map o c es
      simpa [Walk.passed, hnode, Tree.events, eventsOfEntries_eq, Ctx.after, Event.start, Event.end]
        using hsteps

end Filigrio.Yaml
