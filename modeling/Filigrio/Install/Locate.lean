import Filigrio.Install.Walk

/-!
# Filigrio.Install.Locate

The walk at the two levels where something is looked for: the root mapping, where the
container's key is, and the container's mapping, where our key is. At either the walk counts
keys and values by itself (`Ctx.after`), and `Unread` says that no scalar it takes for a key is
spelled as the name in question; then the level is passed like any other (`Idle.steps`). From
our key on, an entry is open until a tree that is no alias is complete (`Open.steps`).
-/

namespace Filigrio.Yaml

variable {content : List UInt8} {container key name : String} {w w' : Walk}

/-! ### Steps in general -/

/-- With no entry open and no value in the making, only the arm of the event counts. -/
theorem Walk.step_of_none (hs : w.scan = none) (hb : w.builder = none) (e : Event × Span) :
    w.step content container key e = w.on content container key e.1 e.2 := by
  have hw : ({ w with scan := w.scan.map (Scan.extend · e.2) } : Walk) = w := by
    cases w
    subst hs
    rfl
  have hcollect : ∀ w' : Walk, (w'.collect false e.1).close content false e.1 = w' := by
    intro w'
    rfl
  rw [Walk.step, hw, hs, hb]
  simp only [Option.isSome_none, hcollect]
  cases w.on content container key e.1 e.2 <;> rfl

/-- What every step keeps, a run keeps. -/
theorem Steps.keeps {P : Walk → Prop} {events : List (Event × Span)}
    (hstep : ∀ e ∈ events, ∀ w w', P w → w.step content container key e = .ok w' → P w')
    (h : Steps content container key w events w') (hw : P w) : P w' := by
  induction events generalizing w with
  | nil =>
      cases h
      exact hw
  | cons e es ih =>
      rw [Steps, List.map_cons, Walk.run] at h
      cases hs : w.step content container key e with
      | error err =>
          rw [hs] at h
          cases h
      | ok w₁ =>
          rw [hs] at h
          have hw₁ := hstep e List.mem_cons_self w w₁ hw hs
          exact ih (fun e' he' => hstep e' (List.mem_cons_of_mem e he')) h hw₁

theorem Walk.on_total {event : Event} (h : event ≠ .documentStart) (span : Span) :
    ∃ w', w.on content container key event span = .ok w' := by
  cases event <;> first | exact absurd rfl h | exact ⟨_, rfl⟩

/-- Only the start of a document can stop the walk. -/
theorem Steps.total (events : List (Event × Span)) (h : ∀ e ∈ events, e.1 ≠ Event.documentStart)
    (w : Walk) : ∃ w', Steps content container key w events w' := by
  induction events generalizing w with
  | nil => exact ⟨w, .nil w⟩
  | cons e es ih =>
      obtain ⟨w₁, hw₁⟩ : ∃ w', ({ w with scan := w.scan.map (Scan.extend · e.2) } : Walk).on content
          container key e.1 e.2 = .ok w' := Walk.on_total (h e List.mem_cons_self) e.2
      have hstep : ∃ w₁, w.step content container key e = .ok w₁ := by
        rw [Walk.step, hw₁]
        exact ⟨_, rfl⟩
      obtain ⟨w₂, hw₂⟩ := hstep
      obtain ⟨w₃, hw₃⟩ := ih (fun e' he' => h e' (List.mem_cons_of_mem e he')) w₂
      exact ⟨w₃, .cons hw₂ hw₃⟩

/-- No tree starts a document. -/
theorem Tree.events_ne (t : Tree) : ∀ e ∈ t.events, e.1 ≠ Event.documentStart := by
  have hall : ∀ ts : List Tree, (∀ t ∈ ts, ∀ e ∈ t.events, e.1 ≠ Event.documentStart) →
      ∀ e ∈ eventsOf ts, e.1 ≠ Event.documentStart := by
    intro ts hts e he
    obtain ⟨t, ht, he⟩ := mem_eventsOf.1 he
    exact hts t ht e he
  induction t using Tree.induct with
  | scalar v s => simp [Tree.events]
  | ref i s => simp [Tree.events]
  | seq o items c ih =>
      intro e he
      rw [Tree.events] at he
      simp only [List.mem_cons, List.mem_append, List.not_mem_nil, or_false] at he
      rcases he with rfl | he | rfl
      · simp
      · exact hall items ih e he
      · simp
  | map o es c ih =>
      intro e he
      rw [Tree.events, eventsOfEntries_eq] at he
      simp only [List.mem_cons, List.mem_append, List.not_mem_nil, or_false] at he
      rcases he with rfl | he | rfl
      · simp
      · exact hall (slots es) ih e he
      · simp

theorem eventsOf_ne (ts : List Tree) : ∀ e ∈ eventsOf ts, e.1 ≠ Event.documentStart := by
  intro e he
  obtain ⟨t, -, he⟩ := mem_eventsOf.1 he
  exact t.events_ne e he

@[simp] theorem Walk.collect_mapping (building : Bool) (event : Event) :
    (w.collect building event).mapping = w.mapping := by
  unfold Walk.collect
  split
  · split <;> rfl
  · rfl

@[simp] theorem Walk.collect_refusal (building : Bool) (event : Event) :
    (w.collect building event).refusal = w.refusal := by
  unfold Walk.collect
  split
  · split <;> rfl
  · rfl

@[simp] theorem Walk.close_mapping (scanning : Bool) (event : Event) :
    (w.close content scanning event).mapping = w.mapping := by
  unfold Walk.close
  split
  · split <;> rfl
  · rfl

@[simp] theorem Walk.close_refusal (scanning : Bool) (event : Event) :
    (w.close content scanning event).refusal = w.refusal := by
  unfold Walk.close
  split
  · split <;> rfl
  · rfl

/-- What the scalar's arm can do to what is located: a container whose value is the scalar, and
nothing once a mapping is located. -/
theorem Walk.onScalar_located (value : String) (span : Span) :
    let w' := w.onScalar content container key value span
    (w'.mapping = w.mapping ∧ w'.refusal = w.refusal) ∨
      (w.mapping = none ∧ (w'.refusal = some .inline ∨ w'.refusal = w.refusal)) := by
  simp only [Walk.onScalar]
  split
  · exact .inl ⟨rfl, rfl⟩
  · split
    · exact .inl ⟨rfl, rfl⟩
    · split
      · rename_i h
        refine .inr ⟨h.2.2, ?_⟩
        split
        · exact .inr rfl
        · split
          · exact .inl rfl
          · exact .inr rfl
      · exact .inl ⟨rfl, rfl⟩

theorem Walk.onOpen_located (isMapping : Bool) (span : Span) :
    let w' := w.onOpen content isMapping span
    (w'.mapping = w.mapping ∧ w'.refusal = w.refusal) ∨
      (w.mapping = none ∧ (w'.refusal = some .inline ∨ w'.refusal = w.refusal)) := by
  simp only [Walk.onOpen]
  split
  · rename_i h
    refine .inr ⟨h.2.2, ?_⟩
    split
    · exact .inr rfl
    · split
      · exact .inl rfl
      · exact .inr rfl
  · exact .inl ⟨rfl, rfl⟩

theorem Walk.on_located {event : Event} {span : Span}
    (h : w.on content container key event span = .ok w') :
    (w'.mapping = w.mapping ∧ w'.refusal = w.refusal) ∨
      (w.mapping = none ∧ (w'.refusal = some .inline ∨ w'.refusal = w.refusal)) := by
  cases event with
  | documentStart =>
      rw [Walk.on] at h
      split at h
      · cases h
      · cases h
        exact .inl ⟨rfl, rfl⟩
  | scalar v =>
      cases h
      exact Walk.onScalar_located v span
  | mappingStart =>
      cases h
      exact Walk.onOpen_located true span
  | sequenceStart =>
      cases h
      exact Walk.onOpen_located false span
  | _ =>
      cases h
      exact .inl ⟨rfl, rfl⟩

/-- What a step can do to what is located. -/
theorem Walk.step_located {e : Event × Span} (h : w.step content container key e = .ok w') :
    (w'.mapping = w.mapping ∧ w'.refusal = w.refusal) ∨
      (w.mapping = none ∧ (w'.refusal = some .inline ∨ w'.refusal = w.refusal)) := by
  rw [Walk.step] at h
  cases hon : ({ w with scan := w.scan.map (Scan.extend · e.2) } : Walk).on content container key
      e.1 e.2 with
  | error err =>
      rw [hon] at h
      cases h
  | ok w₁ =>
      rw [hon] at h
      cases h
      have hl := Walk.on_located hon
      simpa using hl

/-- A refusal stands. -/
theorem Steps.refused {events : List (Event × Span)}
    (h : Steps content container key w events w') (hw : w.refusal = some .inline) :
    w'.refusal = some .inline := by
  refine h.keeps (P := fun w => w.refusal = some .inline) ?_ hw
  intro e _ w w' hw hstep
  rcases Walk.step_located hstep with ⟨-, hr⟩ | ⟨-, hr | hr⟩
  · rw [hr, hw]
  · exact hr
  · rw [hr, hw]

/-- Once a mapping is located nothing is refused any more. -/
theorem Steps.accepted {events : List (Event × Span)}
    (h : Steps content container key w events w') (hm : w.mapping ≠ none) (hr : w.refusal = none) :
    w'.refusal = none := by
  refine (h.keeps (P := fun w => w.mapping ≠ none ∧ w.refusal = none) ?_ ⟨hm, hr⟩).2
  intro e _ w w' hw hstep
  rcases Walk.step_located hstep with ⟨hm', hr'⟩ | ⟨hm', -⟩
  · exact ⟨by rw [hm']; exact hw.1, by rw [hr']; exact hw.2⟩
  · exact absurd hm' hw.1

/-- The mapping is located and left, and no entry is open: what was found is what is returned. -/
structure Settled (found : Found) (w : Walk) : Prop where
  mapping : w.mapping = found.mapping
  located : found.mapping ≠ none
  inside : w.inside = none
  scan : w.scan = none
  builder : w.builder = none
  refusal : w.refusal = none
  entry : w.entry = found.entry
  value : w.entryValue = found.value

theorem Settled.step {found : Found} (h : Settled found w) {e : Event × Span}
    (hstep : w.step content container key e = .ok w') : Settled found w' := by
  have hne : w.mapping ≠ none := by
    rw [h.mapping]
    exact h.located
  rw [Walk.step_of_none h.scan h.builder] at hstep
  obtain ⟨event, span⟩ := e
  cases event with
  | documentStart =>
      rw [Walk.on] at hstep
      split at hstep
      · cases hstep
      · cases hstep
        exact { h with }
  | scalar v =>
      cases hstep
      simp only [Walk.onScalar]
      split
      · exact { h with }
      · split
        · rename_i hin
          rw [h.inside] at hin
          cases hin.2.1
        · rw [if_neg fun hno => hne hno.2.2]
          exact { h with }
  | mappingStart | sequenceStart =>
      cases hstep
      simp only [Walk.onOpen, hne, and_false, if_false]
      exact { h with }
  | mappingEnd | sequenceEnd =>
      cases hstep
      exact { h with inside := by simp [Walk.onClose, h.inside] }
  | «alias» i =>
      cases hstep
      exact { h with }
  | _ =>
      cases hstep
      exact h

theorem Steps.settled {found : Found} {events : List (Event × Span)}
    (h : Steps content container key w events w') (hw : Settled found w) : Settled found w' :=
  h.keeps (fun _ _ _ _ hw hstep => hw.step hstep) hw

theorem Settled.finish {found : Found} (h : Settled found w) : w.finish content = .ok found := by
  rw [Walk.finish, h.refusal, h.scan]
  simp only
  rw [h.mapping, h.entry, h.value]

/-! ### A level where a name is looked for -/

/-- Is the tree a scalar with this content? -/
def Tree.spells (name : String) : Tree → Bool
  | .scalar v _ => v = name
  | _ => false

/-- From the slot `c` on, no scalar that the walk takes for a key is spelled `name`. -/
def Unread (name : String) : Ctx → List Tree → Prop
  | _, [] => True
  | c, t :: ts => (c = .map true → t.spells name = false) ∧ Unread name (c.after t) ts

theorem Unread.append {c : Ctx} {ts us : List Tree} (h : Unread name c ts)
    (h' : Unread name (ts.foldl Ctx.after c) us) : Unread name c (ts ++ us) := by
  induction ts generalizing c with
  | nil => exact h'
  | cons t ts ih => exact ⟨h.1, ih h.2 h'⟩

/-- With no entry open, the trees passed change the slot only. -/
theorem Walk.passed_of_none (hs : w.scan = none) (hb : w.builder = none) (ts : List Tree) :
    w.passed ts = { w with stack := onTop (fun c => ts.foldl Ctx.after c) w.stack } := by
  rw [Walk.passed, hs, hb]
  rfl

/-- With no entry open, a collection whose opening locates nothing is passed: what is inside is
quiet. -/
theorem Walk.steps_of_onOpen (hs : w.scan = none) (hb : w.builder = none)
    (hinside : ∀ d, w.inside = some d → d ≤ w.stack.length)
    (hopen : ∀ isMapping span, w.onOpen content isMapping span
      = { w with stack := Ctx.start isMapping :: onTop Ctx.realign w.stack })
    (hne : w.stack ≠ []) {t : Tree} {isMapping : Bool} {o c : Span} {ts : List Tree}
    (hev : t.events = (Event.start isMapping, o) :: (eventsOf ts ++ [(Event.end isMapping, c)]))
    (hafter : ∀ c : Ctx, c.after t = c.realign) :
    Steps content container key w t.events (w.passed [t]) := by
  have hpos := List.length_pos_iff.2 hne
  have hq : Quiet { w with stack := Ctx.start isMapping :: onTop Ctx.realign w.stack } := by
    refine ⟨.inl ?_, fun d hd => ?_, fun s h => absurd (hs.symm.trans h) (by simp), by simp [hb]⟩
    · simp only [List.length_cons, length_onTop]
      omega
    · have hle := hinside d hd
      simp only [List.length_cons, length_onTop]
      omega
  have hstart : w.step content container key (Event.start isMapping, o)
      = .ok { w with stack := Ctx.start isMapping :: onTop Ctx.realign w.stack } := by
    rw [Walk.step_of_none hs hb, ← hopen isMapping o]
    cases isMapping <;> rfl
  rw [hev]
  refine .cons hstart ((Quiet.steps_all (fun t _ => steps_quiet t) _ hq).append (.single ?_))
  have hpassed : ({ w with stack := Ctx.start isMapping :: onTop Ctx.realign w.stack } : Walk).passed ts
      = { w with stack := ts.foldl Ctx.after (Ctx.start isMapping) :: onTop Ctx.realign w.stack } :=
    Walk.passed_of_none (w := { w with stack := _ :: _ }) hs hb ts
  rw [hpassed, Walk.step_of_none (w := { w with stack := _ :: _ }) hs hb,
    Walk.passed_of_none hs hb]
  have hclose := Walk.onClose_cons (w := { w with stack := onTop Ctx.realign w.stack })
    (ts.foldl Ctx.after (Ctx.start isMapping)) (by simpa using hinside)
  have hstack : onTop (fun c : Ctx => [t].foldl Ctx.after c) w.stack = onTop Ctx.realign w.stack := by
    simp [hafter]
  rw [hstack]
  cases isMapping <;> exact congrArg Except.ok hclose

/-- The level of the root mapping before the container's key is read, or the container's own
mapping with no entry open: `name` is what is looked for there. -/
structure Idle (container key name : String) (w : Walk) : Prop where
  scan : w.scan = none
  builder : w.builder = none
  level : (w.stack.length = 1 ∧ name = container ∧ w.containerKeyEnd = none ∧ w.inside = none) ∨
    (w.stack.length = 2 ∧ name = key ∧ w.inside = some 2)

theorem Idle.passed (h : Idle container key name w) (ts : List Tree) :
    Idle container key name (w.passed ts) := by
  rw [Walk.passed_of_none h.scan h.builder]
  exact ⟨h.scan, h.builder, by simpa using h.level⟩

theorem Idle.onScalar (h : Idle container key name w) {value : String} (span : Span)
    (hread : w.stack.head? = some (.map true) → value ≠ name) :
    w.onScalar content container key value span = { w with stack := onTop Ctx.flip w.stack } := by
  rcases h.level with ⟨hlen, rfl, hk, hi⟩ | ⟨hlen, rfl, hi⟩
  · have hno : ¬ (w.stack.head? = some (.map true) ∧ value = name) := fun hv => hread hv.1 hv.2
    simp [Walk.onScalar, hlen, hi, hk]
    tauto
  · have hno : ¬ (w.stack.head? = some (.map true) ∧ value = name) := fun hv => hread hv.1 hv.2
    simp [Walk.onScalar, hlen, hi]
    tauto

theorem Idle.onOpen (h : Idle container key name w) (isMapping : Bool) (span : Span) :
    w.onOpen content isMapping span
      = { w with stack := Ctx.start isMapping :: onTop Ctx.realign w.stack } := by
  rcases h.level with ⟨hlen, -, hk, -⟩ | ⟨hlen, -, -⟩
  · simp [Walk.onOpen, hk, Ctx.start]
  · simp [Walk.onOpen, hlen, Ctx.start]

theorem Idle.stack_ne (h : Idle container key name w) : w.stack ≠ [] := by
  intro hs
  rcases h.level with ⟨hlen, -⟩ | ⟨hlen, -⟩ <;> simp [hs] at hlen

theorem Idle.inside_le (h : Idle container key name w) : ∀ d, w.inside = some d → d ≤ w.stack.length := by
  intro d hd
  rcases h.level with ⟨-, -, -, hi⟩ | ⟨hlen, -, hi⟩
  · exact absurd (hi.symm.trans hd) (by simp)
  · obtain rfl : 2 = d := Option.some.inj (hi.symm.trans hd)
    omega

/-- A tree at such a level is passed, unless it is the key. -/
theorem Idle.steps_tree (h : Idle container key name w) {t : Tree}
    (hread : w.stack.head? = some (.map true) → t.spells name = false) :
    Steps content container key w t.events (w.passed [t]) := by
  rcases t.collection_cases with ⟨v, s, rfl⟩ | ⟨i, s, rfl⟩ |
    ⟨isMapping, o, ts, c, hev, -, hafter, -⟩
  · rw [Walk.passed_of_none h.scan h.builder, Tree.events]
    refine .single ?_
    rw [Walk.step_of_none h.scan h.builder, Walk.on, h.onScalar s (by simpa [Tree.spells] using hread)]
    rfl
  · rw [Walk.passed_of_none h.scan h.builder, Tree.events]
    refine .single ?_
    rw [Walk.step_of_none h.scan h.builder, Walk.on]
    rfl
  · exact Walk.steps_of_onOpen h.scan h.builder h.inside_le h.onOpen h.stack_ne hev hafter

/-- All trees at such a level are passed, when none of them is taken for the key. -/
theorem Idle.steps {c : Ctx} {s : List Ctx} (h : Idle container key name w) (hstack : w.stack = c :: s)
    {ts : List Tree} (hread : Unread name c ts) :
    Steps content container key w (eventsOf ts) (w.passed ts) := by
  induction ts generalizing w c with
  | nil =>
      rw [eventsOf_nil, Walk.passed_nil]
      exact .nil w
  | cons t ts ih =>
      have ht : Steps content container key w t.events (w.passed [t]) :=
        h.steps_tree fun hc => hread.1 (by simpa [hstack] using hc)
      have hrest := ih (h.passed [t]) (c := c.after t) (by simp [Walk.passed, hstack, onTop]) hread.2
      rw [Walk.passed_passed] at hrest
      rw [eventsOf_cons]
      exact ht.append hrest

/-! ### From our key on -/

/-- The container's mapping with our entry open: `s` is what is known of its range, and the value
is still to come or was an alias. -/
structure Open (s : Scan) (w : Walk) : Prop where
  scan : w.scan = some s
  depth : s.depth = 2
  length : w.stack.length = 2
  inside : w.inside = some 2
  builder : w.builder = none ∨ w.builder = some []

/-- The value of the entry after a tree: the tree's, if the value is still to come. -/
def Walk.valued (w : Walk) (t : Tree) : Option Node :=
  if w.builder.isSome then some t.node else w.entryValue

/-- The walk when the entry closes with a tree. -/
def Walk.closed (content : List UInt8) (w : Walk) (s : Scan) (t : Tree) : Walk :=
  { w with
    stack := onTop (Ctx.after · t) w.stack
    scan := none
    builder := none
    entry := some (s.start, lineEnd content (s.extendAll t.spans).last)
    entryValue := w.valued t }

/-- An alias leaves the entry open. -/
theorem Open.step_alias {s : Scan} (h : Open s w) (i : ℕ) (span : Span) :
    w.step content container key (.alias i, span)
      = .ok { w with
          stack := onTop Ctx.flip w.stack
          scan := some (s.extend span)
          builder := none
          entryValue := w.valued (.alias i span) } := by
  have hd := h.depth
  have hl := h.length
  rcases h.builder with hb | hb <;>
    simp [Walk.step, Walk.on, Except.map, Walk.collect, Walk.close, NodeBuilder.feed,
      NodeBuilder.place, Walk.valued, Tree.node, Event.completes, h.scan, hb, hd, hl]

theorem Open.passed_alias {s : Scan} (h : Open s w) (i : ℕ) (span : Span) :
    Open (s.extend span) { w with
      stack := onTop Ctx.flip w.stack
      scan := some (s.extend span)
      builder := none
      entryValue := w.valued (.alias i span) } where
  scan := rfl
  depth := by simpa using h.depth
  length := by simpa using h.length
  inside := h.inside
  builder := .inl rfl

theorem Open.onScalar {s : Scan} (h : Open s w) {value : String} (span : Span)
    (hread : w.stack.head? = some (.map true) → value ≠ key) :
    w.onScalar content container key value span = { w with stack := onTop Ctx.flip w.stack } := by
  have hno : ¬ (w.stack.head? = some (.map true) ∧ value = key) := fun hv => hread hv.1 hv.2
  simp [Walk.onScalar, h.length, h.inside]
  tauto

/-- A scalar that is no key of ours closes the entry. -/
theorem Open.step_scalar {s : Scan} (h : Open s w) {value : String} (span : Span)
    (hread : w.stack.head? = some (.map true) → value ≠ key) :
    w.step content container key (.scalar value, span)
      = .ok (w.closed content s (.scalar value span)) := by
  have hext : Open (s.extend span) { w with scan := some (s.extend span) } :=
    ⟨rfl, by simpa using h.depth, h.length, h.inside, h.builder⟩
  rw [Walk.step, h.scan, Option.map_some, Walk.on, hext.onScalar span hread]
  rcases h.builder with hb | hb <;>
    simp [Except.map, Walk.collect, Walk.close, NodeBuilder.feed, NodeBuilder.place, Walk.valued,
      Tree.node, Event.completes, Walk.closed, Tree.spans, Tree.events, Scan.extendAll, Ctx.after,
      hb, h.depth, h.length]

/-- The building of a collection inside the open entry. -/
def Walk.opened (w : Walk) (isMapping : Bool) : Option (List Building) :=
  w.builder.map (Building.start isMapping :: ·)

/-- A collection opens inside the entry. -/
theorem Open.step_start {s : Scan} (h : Open s w) (isMapping : Bool) (o : Span) :
    w.step content container key (Event.start isMapping, o)
      = .ok { w with
          stack := Ctx.start isMapping :: onTop Ctx.realign w.stack
          scan := some (s.extend o)
          builder := w.opened isMapping } := by
  cases isMapping <;> rcases h.builder with hb | hb <;>
    simp [Walk.step, Walk.on, Except.map, Walk.onOpen, Walk.collect, Walk.close, NodeBuilder.feed,
      Walk.opened, Event.start, Ctx.start, Building.start, h.scan, hb, h.depth, h.length]

theorem Open.quiet {s : Scan} (h : Open s w) (isMapping : Bool) (o : Span) :
    Quiet { w with
      stack := Ctx.start isMapping :: onTop Ctx.realign w.stack
      scan := some (s.extend o)
      builder := w.opened isMapping } where
  level := .inl (by simp [h.length])
  inside d hd := by
    obtain rfl : 2 = d := Option.some.inj (h.inside.symm.trans hd)
    simp [h.length]
  scan s' hs := by
    obtain rfl : s.extend o = s' := Option.some.inj hs
    simp [h.depth, h.length]
  builder := by
    rcases h.builder with hb | hb <;> simp [Walk.opened, hb]

/-- A tree that is no alias and no key of ours closes the entry. -/
theorem Open.steps_tree {s : Scan} (h : Open s w) {t : Tree} (hne : ∀ i s, t ≠ .alias i s)
    (hread : w.stack.head? = some (.map true) → t.spells key = false) :
    Steps content container key w t.events (w.closed content s t) := by
  rcases t.collection_cases with
    ⟨v, sp, rfl⟩ | ⟨i, sp, rfl⟩ | ⟨isMapping, o, ts, c, hev, hnode, hafter, -⟩
  · rw [Tree.events]
    exact .single (h.step_scalar sp (by simpa [Tree.spells] using hread))
  · exact absurd rfl (hne i sp)
  · rw [hev]
    refine .cons (h.step_start isMapping o)
      ((Quiet.steps_all (fun t _ => steps_quiet t) _ (h.quiet isMapping o)).append (.single ?_))
    have hspans : s.extendAll t.spans
        = ((s.extend o).extendAll ((eventsOf ts).map Prod.snd)).extend c := by
      simp [Tree.spans, hev, Scan.extendAll]
    have hstack : onTop (Ctx.after · t) w.stack = onTop Ctx.realign w.stack := by
      simp [hafter]
    have hlen : (onTop Ctx.realign w.stack).length = 2 := by
      rw [length_onTop, h.length]
    have hd := h.depth
    rw [Walk.closed, hspans, hstack]
    generalize onTop Ctx.realign w.stack = stack at hlen ⊢
    rcases h.builder with hb | hb <;> cases isMapping <;>
      simp [Walk.step, Walk.on, Except.map, Walk.onClose, Walk.passed, Walk.collect, Walk.close,
        NodeBuilder.feed, NodeBuilder.place, Walk.valued, Walk.opened, Event.end, Event.completes,
        onTop, hb, hnode, hlen, hd, h.inside, Option.filter]

/-- What the walk reads from the slot of a value until it closes the entry: the aliases there,
and the first tree that is none. -/
def swallowed : List Tree → List Tree
  | [] => []
  | .alias i s :: ts => .alias i s :: swallowed ts
  | t :: _ => [t]

theorem swallowed_of_ne {t : Tree} (hne : ∀ i s, t ≠ .alias i s) (ts : List Tree) :
    swallowed (t :: ts) = [t] := by
  cases t with
  | «alias» i s => exact absurd rfl (hne i s)
  | _ => rfl

/-- The container's mapping ends with no entry open. -/
theorem Idle.step_leave (h : Idle container key name w) (hlen : w.stack.length = 2) (c : Span) :
    w.step content container key (.mappingEnd, c)
      = .ok { w with stack := w.stack.tail, inside := none } := by
  have hi : w.inside = some 2 := by
    rcases h.level with ⟨h1, -⟩ | ⟨-, -, hi⟩
    · omega
    · exact hi
  rw [Walk.step_of_none h.scan h.builder, Walk.on, Walk.onClose]
  simp [hi, hlen, Option.filter]

theorem Open.closed {s : Scan} (h : Open s w) (t : Tree) :
    Idle container key key (w.closed content s t) where
  scan := rfl
  builder := rfl
  level := .inr ⟨by simp [Walk.closed, h.length], rfl, h.inside⟩

/-- From our key to the end of the container's mapping: the entry runs to the end of the line of
the last text `swallowed`. The induction is on the trees that follow the key. -/
theorem Open.steps {s : Scan} {ts : List Tree} {c : Ctx} {below : List Ctx} (h : Open s w)
    (hstack : w.stack = c :: below) (hread : Unread key c ts) (hfirst : ts = [] → w.builder = none)
    {ended : Span} (hended : ended.bearsText = false) :
    Steps content container key w (eventsOf ts ++ [(.mappingEnd, ended)])
      { w with
        stack := below
        inside := none
        scan := none
        builder := none
        entry := some (s.start,
          lineEnd content (s.extendAll ((eventsOf (swallowed ts)).map Prod.snd)).last)
        entryValue := (ts.head?.map w.valued).getD w.entryValue } := by
  induction ts generalizing w s c with
  | nil =>
      have hb := hfirst rfl
      have hlen : below.length = 1 := by
        have hl := h.length
        simpa [hstack] using hl
      have hext : s.extend ended = s := by
        rw [Scan.extend, if_neg (by simp [hended])]
      refine .single ?_
      simp [Walk.step, Walk.on, Except.map, Walk.onClose, Walk.collect, Walk.close, hext, hb, hlen,
        hstack, h.scan, h.depth, h.inside, Option.filter, swallowed, Scan.extendAll]
  | cons t ts ih =>
      rw [eventsOf_cons, List.append_assoc]
      by_cases hne : ∀ i s, t ≠ .alias i s
      · have htree : Steps content container key w t.events (w.closed content s t) :=
          h.steps_tree hne fun hc => hread.1 (by simpa [hstack] using hc)
        have hclosed : Idle container key key (w.closed content s t) := h.closed t
        have hstack' : (w.closed content s t).stack = c.after t :: below := by
          simp [Walk.closed, hstack, onTop]
        have hrest : Steps content container key (w.closed content s t) (eventsOf ts) _ :=
          hclosed.steps hstack' hread.2
        have hlen : ((w.closed content s t).passed ts).stack.length = 2 := by
          simp [Walk.passed, Walk.closed, h.length]
        have hall := htree.append (hrest.append (.single ((hclosed.passed ts).step_leave hlen ended)))
        rw [Walk.passed_of_none hclosed.scan hclosed.builder] at hall
        rw [swallowed_of_ne hne]
        simpa [Walk.closed, hstack, onTop, Tree.spans] using hall
      · obtain ⟨i, sp, rfl⟩ : ∃ i s, t = .alias i s := by simpa using hne
        have hrest := ih (h.passed_alias i sp) (c := c.flip) (by simp [hstack, onTop]) hread.2
          fun _ => rfl
        have hvalue : ∀ w' : Walk, w'.builder = none →
            (ts.head?.map w'.valued).getD w'.entryValue = w'.entryValue := by
          intro w' hb
          cases ts <;> simp [Walk.valued, hb]
        rw [hvalue _ rfl] at hrest
        rw [Tree.events]
        refine (Steps.single (h.step_alias i sp)).append ?_
        simpa [swallowed, Tree.events, Scan.extendAll] using hrest

/-! ### An alias for the container's value -/

/-- `*anchor`. -/
def Tree.isAlias : Tree → Bool
  | .alias _ _ => true
  | _ => false

/-- A block mapping or an implicit null: what a located container may be. -/
def Tree.splices : Tree → Bool
  | .scalar _ s | .map s _ _ => !s.bearsText
  | _ => false

/-- From the slot `c` on, the first tree that the walk takes for a value and that is no alias is
refused. -/
def refusedNext : Ctx → List Tree → Bool
  | _, [] => false
  | c, t :: ts => if c = .map false ∧ t.isAlias = false then !t.splices else refusedNext (c.after t) ts

/-- The level of the root mapping with the container's key read and its value not recognised. -/
structure Pending (w : Walk) : Prop where
  length : w.stack.length = 1
  keyEnd : w.containerKeyEnd ≠ none
  inside : w.inside = none
  scan : w.scan = none
  builder : w.builder = none
  mapping : w.mapping = none
  refusal : w.refusal = none

/-- A scalar or an alias read at the root leaves the container's value to come, unless it is a
scalar in a value's place. -/
theorem Pending.flip (h : Pending w) (keyEnd : Option ℕ) (hk : keyEnd ≠ none) :
    Pending { w with stack := onTop Ctx.flip w.stack, containerKeyEnd := keyEnd } :=
  { h with length := by simpa using h.length, keyEnd := hk }

theorem Pending.step_value (h : Pending w) (hstack : w.stack = [.map false]) {t : Tree}
    (hne : t.isAlias = false) :
    ∃ e rest w', t.events = e :: rest ∧ w.step content container key e = .ok w'
      ∧ (if t.splices then w'.mapping ≠ none ∧ w'.refusal = none else w'.refusal = some .inline) := by
  obtain ⟨keyEnd, hk⟩ := Option.ne_none_iff_exists'.1 h.keyEnd
  cases t with
  | «alias» i s => cases hne
  | scalar v s =>
      refine ⟨_, [], w.onScalar content container key v s, by rw [Tree.events], ?_, ?_⟩
      · rw [Walk.step_of_none h.scan h.builder, Walk.on]
      · cases hb : s.bearsText <;>
          simp [Walk.onScalar, Tree.splices, hstack, onTop, h.mapping, hk, hb, h.refusal]
  | seq o items c =>
      refine ⟨_, _, w.onOpen content false o, by rw [Tree.events], ?_, ?_⟩
      · rw [Walk.step_of_none h.scan h.builder, Walk.on]
      · simp [Walk.onOpen, Tree.splices, hstack, onTop, h.mapping, hk]
  | map o es c =>
      refine ⟨_, _, w.onOpen content true o, by rw [Tree.events], ?_, ?_⟩
      · rw [Walk.step_of_none h.scan h.builder, Walk.on]
      · cases hb : o.bearsText <;>
          simp [Walk.onOpen, Tree.splices, hstack, onTop, h.mapping, hk, hb, h.refusal]

/-- What does not decide the container's value is passed. -/
theorem Pending.steps_tree (h : Pending w) {e : Bool} (hstack : w.stack = [.map e]) {t : Tree}
    (hpass : e = true ∨ t.isAlias = true) :
    ∃ w', Steps content container key w t.events w' ∧ Pending w' ∧ w'.stack = [(Ctx.map e).after t] := by
  rcases t.collection_cases with ⟨v, s, rfl⟩ | ⟨i, s, rfl⟩ |
    ⟨isMapping, o, ts, c, hev, -, hafter, hshape⟩
  · rcases hpass with rfl | hal
    · have hon : ∃ keyEnd, keyEnd ≠ none ∧ w.onScalar content container key v s
          = { w with stack := onTop Ctx.flip w.stack, containerKeyEnd := keyEnd } := by
        by_cases hv : v = container
        · exact ⟨some s.stop, by simp, by simp [Walk.onScalar, hstack, onTop, hv]⟩
        · exact ⟨w.containerKeyEnd, h.keyEnd, by simp [Walk.onScalar, hstack, onTop, hv, h.inside]⟩
      obtain ⟨keyEnd, hk, hon⟩ := hon
      refine ⟨_, ?_, h.flip keyEnd hk, by rw [hstack]; rfl⟩
      rw [Tree.events]
      refine .single ?_
      rw [Walk.step_of_none h.scan h.builder, Walk.on, hon]
    · cases hal
  · refine ⟨_, ?_, h.flip _ h.keyEnd, by rw [hstack]; rfl⟩
    rw [Tree.events]
    exact .single (by rw [Walk.step_of_none h.scan h.builder, Walk.on])
  · have he : e = true := by
      rcases hpass with he | hal
      · exact he
      · rcases hshape with ⟨o, c, rfl⟩ | ⟨o, es, c, rfl, -⟩ <;> cases hal
    have hinside : ∀ d, w.inside = some d → d ≤ w.stack.length := fun d hd =>
      absurd (h.inside.symm.trans hd) (by simp)
    have hopen : ∀ isMapping span, w.onOpen content isMapping span
        = { w with stack := Ctx.start isMapping :: onTop Ctx.realign w.stack } := by
      intro isMapping span
      simp [Walk.onOpen, hstack, he, onTop, Ctx.start]
    have hsteps : Steps content container key w t.events (w.passed [t]) :=
      Walk.steps_of_onOpen h.scan h.builder hinside hopen (by simp [hstack]) hev hafter
    rw [Walk.passed_of_none h.scan h.builder] at hsteps
    refine ⟨_, hsteps, ?_, by simp [hstack, onTop]⟩
    exact { h with length := by simpa using h.length }

/-- With an alias for its value, the container is refused exactly when the first value read
after it, aliases apart, is one that is refused. -/
theorem Pending.steps (h : Pending w) {e : Bool} (hstack : w.stack = [.map e]) (ts : List Tree) :
    ∃ w', Steps content container key w (eventsOf ts) w'
      ∧ w'.refusal = if refusedNext (.map e) ts then some .inline else none := by
  induction ts generalizing w e with
  | nil => exact ⟨w, by rw [eventsOf_nil]; exact .nil w, by simp [refusedNext, h.refusal]⟩
  | cons t ts ih =>
      rw [eventsOf_cons]
      by_cases hpass : e = true ∨ t.isAlias = true
      · obtain ⟨w₁, hsteps, hw₁, hstack₁⟩ : ∃ w', Steps content container key w t.events w'
            ∧ Pending w' ∧ w'.stack = [(Ctx.map e).after t] := h.steps_tree hstack hpass
        have hmap : ∃ e', (Ctx.map e).after t = .map e' := by
          cases t <;> exact ⟨_, rfl⟩
        obtain ⟨e', he'⟩ := hmap
        obtain ⟨w₂, hsteps₂, hr⟩ := ih hw₁ (hstack₁.trans (by rw [he']))
        refine ⟨w₂, hsteps.append hsteps₂, ?_⟩
        have hno : ¬ (Ctx.map e = .map false ∧ t.isAlias = false) := by
          rintro ⟨hc, hal⟩
          cases hc
          simp [hal] at hpass
        rw [refusedNext, if_neg hno, he']
        exact hr
      · obtain ⟨he, hal⟩ : e = false ∧ t.isAlias = false := by simpa using hpass
        subst he
        obtain ⟨ev, rest, w₁, hev, hstep, hdec⟩ :=
          @Pending.step_value content container key w h hstack t hal
        have htree := t.events_ne
        rw [hev] at htree
        have hne : ∀ e' ∈ rest ++ eventsOf ts, e'.1 ≠ Event.documentStart := by
          intro e' he'
          rcases List.mem_append.1 he' with h' | h'
          · exact htree e' (List.mem_cons_of_mem ev h')
          · exact eventsOf_ne ts e' h'
        obtain ⟨w₂, hw₂⟩ : ∃ w', Steps content container key w₁ (rest ++ eventsOf ts) w' :=
          Steps.total _ hne w₁
        refine ⟨w₂, by rw [hev]; exact .cons hstep hw₂, ?_⟩
        have hyes : Ctx.map false = .map false ∧ t.isAlias = false := ⟨rfl, hal⟩
        rw [refusedNext, if_pos hyes]
        cases hs : t.splices with
        | true =>
            rw [hs] at hdec
            simpa using hw₂.accepted hdec.1 hdec.2
        | false =>
            rw [hs] at hdec
            simpa using hw₂.refused (by simpa using hdec)

end Filigrio.Yaml
