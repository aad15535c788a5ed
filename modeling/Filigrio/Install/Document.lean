import Filigrio.Install.Locate

/-!
# Filigrio.Install.Document

What there is to locate in a document, read off its tree (`located`): the container is the key of
the root mapping with that content, the entry the one of its mapping with our key, and the range
runs over the lines of the entry's own text. `InStep` and `Bounded` are what the walk needs to
find just that.
-/

namespace Filigrio.Yaml

variable {content : List UInt8} {container key name : String} {t : Tree}

/-! ### What a document holds -/

/-- The entries of a mapping. -/
def Tree.entries : Tree → List (Tree × Tree)
  | .map _ es _ => es
  | _ => []

@[simp] theorem Tree.entries_map (o : Span) (es : List (Tree × Tree)) (c : Span) :
    (Tree.map o es c).entries = es := rfl

/-- The span a tree begins with. -/
def Tree.head : Tree → Span
  | .scalar _ s | .alias _ s | .seq s _ _ | .map s _ _ => s

/-- The entry whose key is a scalar with the content `name`. -/
def lookup (name : String) (es : List (Tree × Tree)) : Option (Tree × Tree) :=
  es.find? fun e => e.1.spells name

/-- The entries behind that one. -/
def behind (name : String) (es : List (Tree × Tree)) : List (Tree × Tree) :=
  (es.dropWhile fun e => !e.1.spells name).tail

/-- The texts of an entry. -/
def texts (e : Tree × Tree) : List Span := (e.1.spans ++ e.2.spans).filter Span.bearsText

/-- The last text of an entry; where there is none, the place of its key. -/
def lastText (e : Tree × Tree) : Span := (texts e).getLastD e.1.head

/-- From the start of the key's line to the end of the line of the last text. -/
def entryRange (content : List UInt8) (e : Tree × Tree) : ℕ × ℕ :=
  (lineStart content e.1.head.start, lineEnd content (lastText e).lastByte)

/-- What is to be found: whether the container's mapping is there, and the range and the value of
the entry in it. A container that is neither a block mapping nor an implicit null is refused. -/
def located (content : List UInt8) (container key : String) (t : Tree) :
    Except LocateError (Bool × Option (ℕ × ℕ) × Option Node) :=
  match lookup container t.entries with
  | none => .ok (false, none, none)
  | some e =>
      if e.2.splices then
        .ok (true, (lookup key e.2.entries).map (entryRange content),
          (lookup key e.2.entries).map fun f => f.2.node)
      else .error .inline

/-- What a walk found, as `located` gives it. -/
def Found.summary (f : Found) : Bool × Option (ℕ × ℕ) × Option Node :=
  (f.mapping.isSome, f.entry, f.value)

/-- What follows the tree of a document. -/
def trailer (frame : Event → Span) : List (Event × Span) :=
  [(.documentEnd, frame .documentEnd), (.streamEnd, frame .streamEnd)]

/-- The stream of one document; `frame` are the spans of what surrounds the tree. -/
def stream (frame : Event → Span) (t : Tree) : List (Except String (Event × Span)) :=
  ((.streamStart, frame .streamStart) :: (.documentStart, frame .documentStart)
    :: (t.events ++ trailer frame)).map .ok

mutual
/-- The mappings in a tree. -/
def Tree.mappings : Tree → List (Span × List (Tree × Tree) × Span)
  | .scalar _ _ | .alias _ _ => []
  | .seq _ items _ => mappingsOf items
  | .map o es c => (o, es, c) :: mappingsOfEntries es

/-- The mappings in trees. -/
def mappingsOf : List Tree → List (Span × List (Tree × Tree) × Span)
  | [] => []
  | t :: ts => t.mappings ++ mappingsOf ts

/-- The mappings in the entries of a mapping. -/
def mappingsOfEntries : List (Tree × Tree) → List (Span × List (Tree × Tree) × Span)
  | [] => []
  | (k, v) :: es => k.mappings ++ (v.mappings ++ mappingsOfEntries es)
end

/-- A newline stands at or behind `i` and before `j`. -/
def BreakBetween (content : List UInt8) (i j : ℕ) : Prop :=
  ∃ p < j, i ≤ p ∧ content[p]? = some newline

instance (i j : ℕ) : Decidable (BreakBetween content i j) :=
  inferInstanceAs (Decidable (∃ p < j, _))

/-- The second entry starts on a line behind the texts of the first. -/
def StartsBehind (content : List UInt8) (e f : Tree × Tree) : Prop :=
  ∀ s ∈ e.1.head :: texts e, BreakBetween content s.lastByte f.1.head.start

instance : DecidableRel (StartsBehind content) := fun _ _ => List.decidableBAll _ _

/-- A document as a parser gives it: spans in order and inside the content, the ends of block
mappings without text, no key twice in a mapping, the entries of a block mapping on lines of
their own. -/
structure WellFormed (content : List UInt8) (t : Tree) : Prop where
  spans : ∀ s ∈ t.spans, s.start ≤ s.stop ∧ s.stop ≤ content.length
  ordered : t.spans.Pairwise fun s s' => s.stop ≤ s'.start
  ends : ∀ m ∈ t.mappings, m.1.bearsText = false → m.2.2.bearsText = false
  distinct : ∀ m ∈ t.mappings, (m.2.1.map fun e => e.1.node).Nodup
  lines : ∀ m ∈ t.mappings, m.1.bearsText = false → m.2.1.Pairwise (StartsBehind content)

instance : Decidable (WellFormed content t) :=
  decidable_of_iff
    ((∀ s ∈ t.spans, s.start ≤ s.stop ∧ s.stop ≤ content.length)
      ∧ (t.spans.Pairwise fun s s' => s.stop ≤ s'.start)
      ∧ (∀ m ∈ t.mappings, m.1.bearsText = false → m.2.2.bearsText = false)
      ∧ (∀ m ∈ t.mappings, (m.2.1.map fun e => e.1.node).Nodup)
      ∧ ∀ m ∈ t.mappings, m.1.bearsText = false → m.2.1.Pairwise (StartsBehind content))
    ⟨fun ⟨h₁, h₂, h₃, h₄, h₅⟩ => ⟨h₁, h₂, h₃, h₄, h₅⟩,
      fun ⟨h₁, h₂, h₃, h₄, h₅⟩ => ⟨h₁, h₂, h₃, h₄, h₅⟩⟩

/-! ### When the walk finds it -/

/-- The walk, from the slot `c` on, takes every scalar spelled `name` for what it is: a key for a
key, a value for a value. -/
def ReadsOwn (name : String) : Ctx → List (Tree × Tree) → Prop
  | _, [] => True
  | c, (k, v) :: es =>
      (k.spells name = true → c = .map true) ∧ (v.spells name = true → c.after k ≠ .map true)
        ∧ ReadsOwn name ((c.after k).after v) es

instance ReadsOwn.decidable (name : String) :
    ∀ (c : Ctx) (es : List (Tree × Tree)), Decidable (ReadsOwn name c es)
  | _, [] => isTrue trivial
  | c, (k, v) :: es =>
      have := ReadsOwn.decidable name ((c.after k).after v) es
      inferInstanceAs (Decidable (_ ∧ _ ∧ _))

/-- No collection used as a key makes the walk take a scalar spelled as the container or as our
key for the wrong slot. -/
def InStep (container key : String) (t : Tree) : Prop :=
  ReadsOwn container (.map true) t.entries
    ∧ ∀ e ∈ lookup container t.entries, e.2.splices → ReadsOwn key (.map true) e.2.entries

instance : Decidable (InStep container key t) :=
  inferInstanceAs (Decidable (_ ∧ _))

/-- The text holds the newline of its line, and more follows. -/
def EndsLine (content : List UInt8) (s : Span) : Prop :=
  s.bearsText ∧ content[s.stop - 1]? = some newline ∧ s.stop < content.length

instance (s : Span) : Decidable (EndsLine content s) :=
  inferInstanceAs (Decidable (_ ∧ _ ∧ _))

/-- The container's value is no alias, or the next value that is none is refused as well; and the
last text of the entry does not hold the newline of its line, nor is the entry's value an alias
with text behind it that the walk reads before the entry is closed. -/
def Bounded (content : List UInt8) (container key : String) (t : Tree) : Prop :=
  ∀ e ∈ lookup container t.entries,
    (e.2.isAlias → refusedNext (.map true) (slots (behind container t.entries)))
      ∧ (e.2.splices → ∀ f ∈ lookup key e.2.entries,
          ¬ EndsLine content (lastText f)
            ∧ (f.2.isAlias → ∀ s ∈ (eventsOf (swallowed (slots (behind key e.2.entries)))).map Prod.snd,
                s.bearsText = false))

instance : Decidable (Bounded content container key t) :=
  inferInstanceAs (Decidable (∀ e ∈ lookup container t.entries, _ ∧ _))

/-! ### Entries by name -/

theorem Tree.spells_iff {t : Tree} : t.spells name = true ↔ ∃ s, t = .scalar name s := by
  cases t <;> simp [Tree.spells, eq_comm]

/-- The first entry of that name, and what stands on both sides of it. -/
theorem lookup_split {es : List (Tree × Tree)} {e : Tree × Tree} (h : lookup name es = some e) :
    e.1.spells name = true
      ∧ ∃ before, es = before ++ e :: behind name es ∧ ∀ f ∈ before, f.1.spells name = false := by
  induction es with
  | nil => cases h
  | cons f es ih =>
      rw [lookup, List.find?_cons] at h
      cases hf : f.1.spells name with
      | true =>
          rw [hf] at h
          cases h
          exact ⟨hf, [], by simp [behind, hf], by simp⟩
      | false =>
          rw [hf] at h
          obtain ⟨he, before, hes, hbefore⟩ := ih h
          have hbehind : behind name (f :: es) = behind name es := by
            simp [behind, hf]
          refine ⟨he, f :: before, ?_, ?_⟩
          · rw [hbehind, List.cons_append, ← hes]
          · intro g hg
            rcases List.mem_cons.1 hg with rfl | hg
            · exact hf
            · exact hbefore g hg

theorem lookup_eq_none {es : List (Tree × Tree)} (h : lookup name es = none) :
    ∀ e ∈ es, e.1.spells name = false := by
  simpa [lookup] using h

/-- Where keys differ, no other key has that name. -/
theorem spells_behind {es before : List (Tree × Tree)} {e : Tree × Tree}
    (hd : ((before ++ e :: es).map fun e => e.1.node).Nodup) (he : e.1.spells name = true) :
    ∀ f ∈ es, f.1.spells name = false := by
  intro f hf
  by_contra hno
  obtain ⟨s, hs⟩ := Tree.spells_iff.1 he
  obtain ⟨s', hs'⟩ := Tree.spells_iff.1 (by simpa using hno)
  rw [List.map_append, List.map_cons, List.nodup_append] at hd
  have hnot := (List.nodup_cons.1 hd.2.1).1
  refine hnot (List.mem_map.2 ⟨f, hf, ?_⟩)
  simp only [hs, hs', Tree.node]

theorem ReadsOwn.append {c : Ctx} {es fs : List (Tree × Tree)} (h : ReadsOwn name c (es ++ fs)) :
    ReadsOwn name c es ∧ ReadsOwn name ((slots es).foldl Ctx.after c) fs := by
  induction es generalizing c with
  | nil => exact ⟨trivial, h⟩
  | cons e es ih => exact ⟨⟨h.1, h.2.1, (ih h.2.2).1⟩, (ih h.2.2).2⟩

/-- Entries with other keys are passed without one of their scalars taken for the key. -/
theorem ReadsOwn.unread {c : Ctx} {es : List (Tree × Tree)} (h : ReadsOwn name c es)
    (hkeys : ∀ e ∈ es, e.1.spells name = false) : Unread name c (slots es) := by
  induction es generalizing c with
  | nil => exact trivial
  | cons e es ih =>
      refine ⟨fun _ => hkeys e List.mem_cons_self, fun hc => ?_, ?_⟩
      · by_contra hno
        exact h.2.1 (by simpa using hno) hc
      · exact ih h.2.2 fun f hf => hkeys f (List.mem_cons_of_mem e hf)

/-- At the key of that name: what is in front is passed, the walk is at a key there, and what
follows is passed in its turn. -/
theorem ReadsOwn.at_key {es before : List (Tree × Tree)} {k v : Tree}
    (h : ReadsOwn name (.map true) (before ++ (k, v) :: es)) (hk : k.spells name = true)
    (hbefore : ∀ f ∈ before, f.1.spells name = false) (hbehind : ∀ f ∈ es, f.1.spells name = false) :
    Unread name (.map true) (slots before)
      ∧ (slots before).foldl Ctx.after (.map true) = .map true
      ∧ Unread name (.map false) (v :: slots es) := by
  obtain ⟨hfront, hkey⟩ := h.append
  have hc := hkey.1 hk
  obtain ⟨s, rfl⟩ := Tree.spells_iff.1 hk
  refine ⟨hfront.unread hbefore, hc, fun hno => absurd hno (by simp), ?_⟩
  have hrest := hkey.2.2
  rw [hc] at hrest
  exact hrest.unread hbehind

/-! ### Spans of parts -/

theorem events_sublist {t : Tree} {ts : List Tree} (h : t ∈ ts) : t.events.Sublist (eventsOf ts) := by
  induction ts with
  | nil => cases h
  | cons u ts ih =>
      rw [eventsOf_cons]
      rcases List.mem_cons.1 h with rfl | h
      · exact List.sublist_append_left _ _
      · exact (ih h).trans (List.sublist_append_right _ _)

theorem mem_mappingsOf {m : Span × List (Tree × Tree) × Span} {ts : List Tree}
    (h : m ∈ mappingsOf ts) : ∃ t ∈ ts, m ∈ t.mappings := by
  induction ts with
  | nil => simp [mappingsOf] at h
  | cons t ts ih =>
      rw [mappingsOf, List.mem_append] at h
      rcases h with h | h
      · exact ⟨t, List.mem_cons_self, h⟩
      · obtain ⟨u, hu, hm⟩ := ih h
        exact ⟨u, List.mem_cons_of_mem t hu, hm⟩

theorem mem_mappingsOfEntries {m : Span × List (Tree × Tree) × Span} {es : List (Tree × Tree)} :
    m ∈ mappingsOfEntries es ↔ ∃ t ∈ slots es, m ∈ t.mappings := by
  induction es with
  | nil => simp [mappingsOfEntries]
  | cons e es ih =>
      rw [mappingsOfEntries, List.mem_append, List.mem_append, ih]
      simp

/-- The events of a mapping's entries are among those of the tree it is in. -/
theorem entries_sublist {t : Tree} {m : Span × List (Tree × Tree) × Span} (h : m ∈ t.mappings) :
    ((eventsOf (slots m.2.1)).map Prod.snd).Sublist t.spans := by
  induction t using Tree.induct with
  | scalar v s => simp [Tree.mappings] at h
  | ref i s => simp [Tree.mappings] at h
  | seq o items c ih =>
      rw [Tree.mappings] at h
      obtain ⟨u, hu, hm⟩ := mem_mappingsOf h
      refine (ih u hu hm).trans ((List.Sublist.map _ (events_sublist hu)).trans (List.Sublist.map _ ?_))
      rw [Tree.events]
      exact (List.sublist_append_left _ _).cons _
  | map o es c ih =>
      have hes : (eventsOf (slots es)).Sublist (Tree.map o es c).events := by
        rw [Tree.events, eventsOfEntries_eq]
        exact (List.sublist_append_left _ _).cons _
      rw [Tree.mappings, List.mem_cons] at h
      rcases h with rfl | h
      · exact List.Sublist.map _ hes
      · obtain ⟨u, hu, hm⟩ := mem_mappingsOfEntries.1 h
        exact (ih u hu hm).trans
          ((List.Sublist.map _ (events_sublist hu)).trans (List.Sublist.map _ hes))

/-- The value of an entry of the root is a mapping of the tree, if it has entries at all. -/
theorem entries_cases (v : Tree) : v.entries = [] ∨ ∃ o es c, v = .map o es c := by
  cases v with
  | map o es c => exact .inr ⟨o, es, c, rfl⟩
  | _ => exact .inl rfl

/-- The events of a tree begin with its head. -/
theorem Tree.spans_head (t : Tree) : ∃ rest, t.spans = t.head :: rest := by
  cases t with
  | scalar v s => exact ⟨[], by rw [Tree.spans, Tree.events]; rfl⟩
  | «alias» i s => exact ⟨[], by rw [Tree.spans, Tree.events]; rfl⟩
  | seq o items c => exact ⟨_, by rw [Tree.spans, Tree.events]; rfl⟩
  | map o es c => exact ⟨_, by rw [Tree.spans, Tree.events]; rfl⟩

end Filigrio.Yaml
