import Filigrio.Install.Document

/-!
# Filigrio.Install.Exact

When the walk locates exactly what a document holds (`walk_located_iff`).

It misses in four ways (`walk_mislocates`). A collection in the place of a key sets the count of
keys and values back, which `InStep` excludes where it matters; an alias for the container's
value leaves the next value to be taken for it; an alias for the entry's value lets the entry run
on into what follows; and a text that holds the newline of its line puts the end one line too
far.
-/

namespace Filigrio.Yaml

variable {content : List UInt8} {container key name : String} {t : Tree}

/-! ### From the stream to the walk -/

theorem not_start_trailer (frame : Event → Span) : ∀ e ∈ trailer frame, e.1 ≠ Event.documentStart := by
  simp [trailer]

/-- The walk of a document, from what it is after a part of the tree's events. -/
theorem walk_of_steps {front rest : List (Event × Span)} {w : Walk} (frame : Event → Span)
    (hev : t.events = front ++ rest) (h : Steps content container key { docs := 1 } front w) :
    ∃ w', Steps content container key w (rest ++ trailer frame) w'
      ∧ walk content container key (stream frame t) = w'.finish content := by
  have hne : ∀ e ∈ rest ++ trailer frame, e.1 ≠ Event.documentStart := by
    intro e he
    rcases List.mem_append.1 he with he | he
    · exact t.events_ne e (by rw [hev]; exact List.mem_append_right front he)
    · exact not_start_trailer frame e he
  obtain ⟨w', hw'⟩ : ∃ w', Steps content container key w (rest ++ trailer frame) w' :=
    Steps.total _ hne w
  refine ⟨w', hw', ?_⟩
  have hstart : Steps content container key {}
      [(.streamStart, frame .streamStart), (.documentStart, frame .documentStart)] { docs := 1 } := rfl
  have hall := hstart.append (h.append hw')
  rw [← List.append_assoc front rest, ← hev] at hall
  have hrun : ({} : Walk).run content container key (stream frame t) = .ok w' := hall
  rw [walk, hrun]
  rfl

theorem walk_settled {front rest : List (Event × Span)} {w : Walk} {found : Found}
    (frame : Event → Span) (hev : t.events = front ++ rest)
    (h : Steps content container key { docs := 1 } front w) (hw : Settled found w) :
    walk content container key (stream frame t) = .ok found := by
  obtain ⟨w', hw', hwalk⟩ := walk_of_steps frame hev h
  rw [hwalk]
  exact (hw'.settled hw).finish

/-- What closes a document neither refuses nor accepts anything. -/
theorem Steps.refusal_trailer {w w' : Walk} (frame : Event → Span) (c : Span)
    (h : Steps content container key w ((.mappingEnd, c) :: trailer frame) w') :
    w'.refusal = w.refusal := by
  refine h.keeps (P := fun w' => w'.refusal = w.refusal) (fun e he w₁ w₂ hw₁ hstep => ?_) rfl
  rw [Walk.step] at hstep
  simp only [trailer, List.mem_cons, List.not_mem_nil, or_false] at he
  rcases he with rfl | rfl | rfl <;>
    (simp only [Walk.on, Except.map, Except.ok.injEq] at hstep
     subst hstep
     simpa [Walk.onClose] using hw₁)

/-! ### The root mapping -/

/-- The walk inside the root mapping, at a key. -/
def rootMapping : Walk := { stack := [.map true], docs := 1 }

/-- The walk at the container's value. -/
def atValue (keyEnd : ℕ) : Walk :=
  { stack := [.map false], docs := 1, containerKeyEnd := some keyEnd }

theorem steps_rootMapping (o : Span) :
    Steps content container key { docs := 1 } [(.mappingStart, o)] rootMapping := by
  refine .single ?_
  rw [Walk.step_of_none rfl rfl]
  rfl

theorem idle_rootMapping : Idle container key container rootMapping :=
  ⟨rfl, rfl, .inl ⟨rfl, rfl, rfl, rfl⟩⟩

/-- The walk reaches the container's value with nothing found so far. -/
theorem steps_atValue {es before : List (Tree × Tree)} {o s : Span} {v : Tree}
    (hread : ReadsOwn container (.map true) (before ++ (.scalar container s, v) :: es))
    (hbefore : ∀ f ∈ before, f.1.spells container = false)
    (hbehind : ∀ f ∈ es, f.1.spells container = false) :
    Steps content container key { docs := 1 }
      ((.mappingStart, o) :: (eventsOf (slots before) ++ [(.scalar container, s)]))
      (atValue s.stop) := by
  obtain ⟨hun, hc, -⟩ := hread.at_key (by simp [Tree.spells]) hbefore hbehind
  have hsteps : Steps content container key rootMapping (eventsOf (slots before)) _ :=
    idle_rootMapping.steps rfl hun
  have hpassed : rootMapping.passed (slots before) = rootMapping := by
    rw [Walk.passed_of_none rfl rfl]
    simp [rootMapping, onTop, hc]
  rw [hpassed] at hsteps
  refine (steps_rootMapping o).append (hsteps.append (.single ?_))
  rw [Walk.step_of_none rfl rfl]
  simp [Walk.on, Walk.onScalar, rootMapping, atValue, onTop, Ctx.flip]

theorem pending_atValue (keyEnd : ℕ) : Pending (atValue keyEnd) :=
  ⟨rfl, by simp [atValue], rfl, rfl, rfl, rfl, rfl⟩

/-- Without the container there is nothing to find. -/
theorem walk_of_absent {es : List (Tree × Tree)} {o c : Span} (frame : Event → Span)
    (hread : ReadsOwn container (.map true) es) (hkeys : ∀ e ∈ es, e.1.spells container = false) :
    walk content container key (stream frame (.map o es c)) = .ok ⟨none, none, none⟩ := by
  have hsteps : Steps content container key rootMapping (eventsOf (slots es)) _ :=
    idle_rootMapping.steps rfl (hread.unread hkeys)
  have hev : (Tree.map o es c).events
      = ([(.mappingStart, o)] ++ eventsOf (slots es)) ++ [(.mappingEnd, c)] := by
    rw [Tree.events, eventsOfEntries_eq]
    simp
  obtain ⟨w', hw', hwalk⟩ := walk_of_steps frame hev ((steps_rootMapping o).append hsteps)
  have hend : Steps content container key (rootMapping.passed (slots es))
      ([(.mappingEnd, c)] ++ trailer frame) { docs := 1 } := by
    rw [Walk.passed_of_none rfl rfl]
    rfl
  obtain rfl : w' = { docs := 1 } := Except.ok.inj (hw'.symm.trans hend)
  rw [hwalk]
  rfl

/-- A container whose value is not spliced into is refused, when it is no alias, or when the next
value is. -/
theorem walk_of_refused {es before : List (Tree × Tree)} {o c s : Span} {v : Tree}
    (frame : Event → Span)
    (hread : ReadsOwn container (.map true) (before ++ (.scalar container s, v) :: es))
    (hbefore : ∀ f ∈ before, f.1.spells container = false)
    (hbehind : ∀ f ∈ es, f.1.spells container = false) (hv : v.splices = false) :
    if v.isAlias → refusedNext (.map true) (slots es) then
      walk content container key (stream frame (.map o (before ++ (.scalar container s, v) :: es) c))
        = .error .inline
    else ∃ found,
      walk content container key (stream frame (.map o (before ++ (.scalar container s, v) :: es) c))
        = .ok found := by
  obtain ⟨w₁, hw₁, hr⟩ : ∃ w', Steps content container key (atValue s.stop)
        (eventsOf (v :: slots es)) w'
      ∧ w'.refusal = if refusedNext (.map false) (v :: slots es) then some .inline else none :=
    (pending_atValue s.stop).steps rfl (v :: slots es)
  have hev : (Tree.map o (before ++ (.scalar container s, v) :: es) c).events
      = ((.mappingStart, o) :: (eventsOf (slots before) ++ [(.scalar container, s)])
          ++ eventsOf (v :: slots es)) ++ [(.mappingEnd, c)] := by
    rw [Tree.events, eventsOfEntries_eq]
    simp [Tree.events]
  obtain ⟨w', hw', hwalk⟩ := walk_of_steps frame hev
    ((steps_atValue hread hbefore hbehind).append hw₁)
  have hfinal := hw'.refusal_trailer frame c
  rw [hr] at hfinal
  have hnext : refusedNext (.map false) (v :: slots es)
      = decide (v.isAlias → refusedNext (.map true) (slots es)) := by
    cases hal : v.isAlias with
    | true =>
        have hafter : (Ctx.map false).after v = .map true := by
          cases v <;> rfl
        simp [refusedNext, hal, hafter]
    | false => simp [refusedNext, hal, hv]
  rw [hwalk]
  split
  · rename_i hyes
    rw [hnext, decide_eq_true hyes, if_pos rfl] at hfinal
    rw [Walk.finish, hfinal]
  · rename_i hno
    rw [hnext, decide_eq_false hno, if_neg (by simp)] at hfinal
    rw [Walk.finish, hfinal]
    exact ⟨_, rfl⟩

/-! ### The container's mapping -/

/-- The mapping that opens at `o`, the value of a key that ends at `keyEnd`. -/
def mappingAt (content : List UInt8) (keyEnd : ℕ) (o : Span) : Mapping :=
  ⟨lineEnd content keyEnd, o.start - lineStart content o.start⟩

/-- The walk inside the container's mapping, at a key. -/
def inMapping (keyEnd : ℕ) (mapping : Mapping) : Walk :=
  { stack := [.map true, .map true], docs := 1, mapping := some mapping,
    containerKeyEnd := some keyEnd, inside := some 2 }

/-- The walk at the value of our key. -/
def inEntry (content : List UInt8) (keyEnd : ℕ) (mapping : Mapping) (s : Span) : Walk :=
  { inMapping keyEnd mapping with
    stack := [.map false, .map true]
    scan := some ⟨lineStart content s.start, 2, s.stop⟩
    builder := some [] }

theorem idle_inMapping (keyEnd : ℕ) (mapping : Mapping) :
    Idle container key key (inMapping keyEnd mapping) :=
  ⟨rfl, rfl, .inr ⟨rfl, rfl, rfl⟩⟩

theorem step_inMapping {o : Span} (ho : o.bearsText = false) (keyEnd : ℕ) :
    (atValue keyEnd).step content container key (.mappingStart, o)
      = .ok (inMapping keyEnd (mappingAt content keyEnd o)) := by
  rw [Walk.step_of_none rfl rfl]
  simp [Walk.on, Walk.onOpen, atValue, inMapping, mappingAt, onTop, Ctx.realign, ho]

/-- How far the walk lets the entry run: over the key, the value, and what it reads before it
closes the entry. -/
def reach (f : Tree × Tree) (es : List (Tree × Tree)) : ℕ :=
  ((⟨0, 2, f.1.head.stop⟩ : Scan).extendAll
    ((eventsOf (swallowed (f.2 :: slots es))).map Prod.snd)).last

theorem Scan.extendAll_last (a b d d' last : ℕ) (spans : List Span) :
    ((⟨a, d, last⟩ : Scan).extendAll spans).last = ((⟨b, d', last⟩ : Scan).extendAll spans).last := by
  induction spans generalizing last with
  | nil => rfl
  | cons s spans ih =>
      have h := ih (if s.bearsText then max last s.stop else last)
      cases hs : s.bearsText <;> simpa [Scan.extendAll, Scan.extend, hs] using h

/-- A container without our key. -/
theorem steps_of_missing {es : List (Tree × Tree)} {o c : Span} {keyEnd : ℕ}
    (ho : o.bearsText = false) (hread : ReadsOwn key (.map true) es)
    (hkeys : ∀ e ∈ es, e.1.spells key = false) :
    ∃ w m, Steps content container key (atValue keyEnd) (Tree.map o es c).events w
      ∧ Settled ⟨some m, none, none⟩ w := by
  have hidle : Idle container key key (inMapping keyEnd (mappingAt content keyEnd o)) :=
    idle_inMapping keyEnd (mappingAt content keyEnd o)
  have hlen : ((inMapping keyEnd (mappingAt content keyEnd o)).passed (slots es)).stack.length = 2 := by
    rw [Walk.passed_of_none rfl rfl]
    rfl
  rw [Tree.events, eventsOfEntries_eq]
  refine ⟨_, mappingAt content keyEnd o, .cons (step_inMapping ho keyEnd)
    ((hidle.steps rfl (hread.unread hkeys)).append
      (.single ((hidle.passed (slots es)).step_leave hlen c))), ?_⟩
  rw [Walk.passed_of_none rfl rfl]
  exact ⟨rfl, by simp, rfl, rfl, rfl, rfl, rfl, rfl⟩

/-- A container with our key: its entry is found, over the lines up to the one `reach` is in. -/
theorem steps_of_entry {es before : List (Tree × Tree)} {o c s : Span} {v : Tree} {keyEnd : ℕ}
    (ho : o.bearsText = false) (hc : c.bearsText = false)
    (hread : ReadsOwn key (.map true) (before ++ (.scalar key s, v) :: es))
    (hbefore : ∀ f ∈ before, f.1.spells key = false) (hbehind : ∀ f ∈ es, f.1.spells key = false) :
    ∃ w m, Steps content container key (atValue keyEnd)
        (Tree.map o (before ++ (.scalar key s, v) :: es) c).events w
      ∧ Settled ⟨some m, some (lineStart content s.start, lineEnd content (reach (.scalar key s, v) es)),
          some v.node⟩ w := by
  obtain ⟨hun, hfold, hrest⟩ := hread.at_key (by simp [Tree.spells]) hbefore hbehind
  have hidle : Idle container key key (inMapping keyEnd (mappingAt content keyEnd o)) :=
    idle_inMapping keyEnd (mappingAt content keyEnd o)
  have hsteps : Steps content container key (inMapping keyEnd (mappingAt content keyEnd o))
      (eventsOf (slots before)) _ := hidle.steps rfl hun
  have hpassed : (inMapping keyEnd (mappingAt content keyEnd o)).passed
      (slots before) = inMapping keyEnd (mappingAt content keyEnd o) := by
    rw [Walk.passed_of_none rfl rfl]
    simp [inMapping, onTop, hfold]
  rw [hpassed] at hsteps
  have hkey : (inMapping keyEnd (mappingAt content keyEnd o)).step content container key
      (.scalar key, s) = .ok (inEntry content keyEnd (mappingAt content keyEnd o) s) := by
    rw [Walk.step_of_none rfl rfl]
    simp [Walk.on, Walk.onScalar, inMapping, inEntry, onTop, Ctx.flip]
  have hopen : Open ⟨lineStart content s.start, 2, s.stop⟩
      (inEntry content keyEnd (mappingAt content keyEnd o) s) :=
    ⟨rfl, rfl, rfl, rfl, .inr rfl⟩
  have hvalue : Steps content container key (inEntry content keyEnd (mappingAt content keyEnd o) s)
      (eventsOf (v :: slots es) ++ [(.mappingEnd, c)]) _ := hopen.steps rfl hrest (by simp) hc
  have hev : (Tree.map o (before ++ (.scalar key s, v) :: es) c).events
      = (.mappingStart, o) :: (eventsOf (slots before) ++ ((.scalar key, s)
          :: (eventsOf (v :: slots es) ++ [(.mappingEnd, c)]))) := by
    rw [Tree.events, eventsOfEntries_eq]
    simp [Tree.events]
  rw [hev]
  refine ⟨_, mappingAt content keyEnd o,
    .cons (step_inMapping ho keyEnd) (hsteps.append (.cons hkey hvalue)), ?_⟩
  refine ⟨rfl, by simp, rfl, rfl, rfl, rfl, ?_, rfl⟩
  simp only
  rw [reach, Scan.extendAll_last _ 0 2 2]
  rfl

/-- A container that is spliced into: its mapping is found, and the entry in it. -/
theorem walk_of_splices {es before : List (Tree × Tree)} {o c s : Span} {v : Tree}
    (frame : Event → Span)
    (hread : ReadsOwn container (.map true) (before ++ (.scalar container s, v) :: es))
    (hbefore : ∀ f ∈ before, f.1.spells container = false)
    (hbehind : ∀ f ∈ es, f.1.spells container = false) (hv : v.splices = true)
    (hends : ∀ o es c, v = .map o es c → c.bearsText = false)
    (hdistinct : (v.entries.map fun e => e.1.node).Nodup)
    (hkeys : ReadsOwn key (.map true) v.entries) :
    ∃ m, walk content container key
        (stream frame (.map o (before ++ (.scalar container s, v) :: es) c))
      = .ok ⟨some m,
          (lookup key v.entries).map fun f =>
            (lineStart content f.1.head.start, lineEnd content (reach f (behind key v.entries))),
          (lookup key v.entries).map fun f => f.2.node⟩ := by
  have hfront : Steps content container key { docs := 1 }
      ((.mappingStart, o) :: (eventsOf (slots before) ++ [(.scalar container, s)])) _ :=
    steps_atValue hread hbefore hbehind
  have hvalue : ∃ w m, Steps content container key (atValue s.stop) v.events w
      ∧ Settled ⟨some m,
          (lookup key v.entries).map fun f =>
            (lineStart content f.1.head.start, lineEnd content (reach f (behind key v.entries))),
          (lookup key v.entries).map fun f => f.2.node⟩ w := by
    cases v with
    | scalar value sv =>
        have hb : sv.bearsText = false := by simpa [Tree.splices] using hv
        refine ⟨(atValue s.stop).onScalar content container key value sv,
          ⟨lineEnd content s.stop, DEFAULT_INDENT⟩, ?_, ?_⟩
        · rw [Tree.events]
          refine .single ?_
          rw [Walk.step_of_none rfl rfl, Walk.on]
        · simp [Walk.onScalar, atValue, onTop, hb, Tree.entries, lookup]
          exact ⟨rfl, by simp, rfl, rfl, rfl, rfl, rfl, rfl⟩
    | map o' es' c' =>
        have ho : o'.bearsText = false := by simpa [Tree.splices] using hv
        have hc := hends o' es' c' rfl
        simp only [Tree.entries] at hdistinct hkeys ⊢
        cases hl : lookup key es' with
        | none => exact steps_of_missing ho hkeys (lookup_eq_none hl)
        | some f =>
            obtain ⟨hf, before', hes, hbefore'⟩ := lookup_split hl
            obtain ⟨k, v'⟩ := f
            obtain ⟨ks, rfl⟩ := Tree.spells_iff.1 hf
            generalize behind key es' = rest at hes ⊢
            subst hes
            exact steps_of_entry ho hc hkeys hbefore' (spells_behind hdistinct hf)
    | _ => cases hv
  obtain ⟨w, m, hw, hsettled⟩ := hvalue
  have hev : (Tree.map o (before ++ (.scalar container s, v) :: es) c).events
      = ((.mappingStart, o) :: (eventsOf (slots before) ++ [(.scalar container, s)]) ++ v.events)
          ++ (eventsOf (slots es) ++ [(.mappingEnd, c)]) := by
    rw [Tree.events, eventsOfEntries_eq]
    simp [Tree.events]
  exact ⟨m, walk_settled frame hev (hfront.append hw) hsettled⟩

/-! ### The range of the entry -/

/-- Over spans in order, the entry runs to the last of them that bears text. -/
theorem Scan.extendAll_ordered {a d : ℕ} {k : Span} {spans : List Span}
    (hord : (k :: spans).Pairwise fun s s' => s.stop ≤ s'.start)
    (hle : ∀ s ∈ spans, s.start ≤ s.stop) :
    ((⟨a, d, k.stop⟩ : Scan).extendAll spans).last = ((spans.filter Span.bearsText).getLastD k).stop := by
  induction spans generalizing k with
  | nil => rfl
  | cons s spans ih =>
      have hks := (List.pairwise_cons.1 hord).1 s List.mem_cons_self
      have hss := hle s List.mem_cons_self
      have hle' : ∀ r ∈ spans, r.start ≤ r.stop := fun r hr => hle r (List.mem_cons_of_mem s hr)
      cases hs : s.bearsText with
      | true =>
          have hmax : max k.stop s.stop = s.stop := by omega
          have hrest := ih (k := s) (List.pairwise_cons.1 hord).2 hle'
          rw [List.filter_cons_of_pos hs, List.getLastD_cons, ← hrest]
          simp [Scan.extendAll, Scan.extend, hs, hmax]
      | false =>
          have hord' : (k :: spans).Pairwise fun s s' => s.stop ≤ s'.start :=
            hord.sublist ((List.sublist_cons_self s spans).cons_cons k)
          have hrest := ih hord' hle'
          rw [List.filter_cons_of_neg (by simp [hs]), ← hrest]
          simp [Scan.extendAll, Scan.extend, hs]

/-- The line of a text's end is the line of its last byte, unless it holds the newline. -/
theorem lineEnd_stop_iff {s : Span} (h : s.start ≤ s.stop) (hlen : s.stop ≤ content.length) :
    lineEnd content s.stop = lineEnd content s.lastByte ↔ ¬ EndsLine content s := by
  rw [Span.lastByte, EndsLine]
  cases hs : s.bearsText with
  | false =>
      have hge : s.stop ≤ s.start := by simpa [Span.bearsText] using hs
      simp [le_antisymm h hge]
  | true =>
      have hlt : s.start < s.stop := by simpa [Span.bearsText] using hs
      have hsucc : lineEnd content (s.stop - 1 + 1) = lineEnd content (s.stop - 1)
          ↔ content[s.stop - 1]? ≠ some newline ∨ s.stop - 1 + 1 = content.length :=
        lineEnd_succ (by omega)
      rw [Nat.sub_add_cancel (by omega)] at hsucc
      simp only [if_true, true_and, not_and_or, not_lt]
      rw [hsucc]
      constructor <;> rintro (h | h) <;> first | exact .inl h | exact .inr (by omega)

theorem swallowed_subset (ts : List Tree) : ∀ t ∈ swallowed ts, t ∈ ts := by
  induction ts with
  | nil => simp [swallowed]
  | cons t ts ih =>
      intro u hu
      by_cases hne : ∀ i s, t ≠ .alias i s
      · rw [swallowed_of_ne hne, List.mem_singleton] at hu
        exact hu ▸ List.mem_cons_self
      · obtain ⟨i, s, rfl⟩ : ∃ i s, t = .alias i s := by simpa using hne
        rw [swallowed, List.mem_cons] at hu
        rcases hu with rfl | hu
        · exact List.mem_cons_self
        · exact List.mem_cons_of_mem _ (ih u hu)

section

variable {es before : List (Tree × Tree)} {f : Tree × Tree}

/-- What a well-formed document says of the entries of one of its block mappings. -/
structure Laid (content : List UInt8) (es : List (Tree × Tree)) : Prop where
  spans : ∀ s ∈ (eventsOf (slots es)).map Prod.snd, s.start ≤ s.stop ∧ s.stop ≤ content.length
  ordered : ((eventsOf (slots es)).map Prod.snd).Pairwise fun s s' => s.stop ≤ s'.start
  lines : es.Pairwise (StartsBehind content)

theorem WellFormed.laid (h : WellFormed content t) {m : Span × List (Tree × Tree) × Span}
    (hm : m ∈ t.mappings) (hb : m.1.bearsText = false) : Laid content m.2.1 where
  spans s hs := h.spans s ((entries_sublist hm).subset hs)
  ordered := h.ordered.sublist (entries_sublist hm)
  lines := h.lines m hm hb

theorem Laid.entry_sublist (hf : f ∈ es) :
    (f.1.spans ++ f.2.spans).Sublist ((eventsOf (slots es)).map Prod.snd) := by
  induction es with
  | nil => cases hf
  | cons g es ih =>
      rw [slots_cons, eventsOf_cons, eventsOf_cons, ← List.append_assoc, List.map_append]
      rcases List.mem_cons.1 hf with rfl | hf
      · rw [List.map_append]
        exact List.sublist_append_left _ _
      · exact (ih hf).trans (List.sublist_append_right _ _)

/-- No text of an entry starts before the entry does. -/
theorem Laid.head_le (h : Laid content es) (hf : f ∈ es) {s : Span}
    (hs : s ∈ f.1.spans ++ f.2.spans) : f.1.head.start ≤ s.start := by
  have hsub := Laid.entry_sublist hf
  have hord := h.ordered.sublist hsub
  obtain ⟨rest, hrest⟩ := f.1.spans_head
  rw [hrest, List.cons_append] at hord hs hsub
  rcases List.mem_cons.1 hs with rfl | hs
  · exact le_rfl
  · have h₁ := (List.pairwise_cons.1 hord).1 s hs
    have h₂ := (h.spans _ (hsub.subset List.mem_cons_self)).1
    omega

theorem lastText_mem (f : Tree × Tree) : lastText f ∈ f.1.head :: texts f :=
  List.getLastD_mem_cons

theorem texts_subset {s : Span} (h : s ∈ texts f) : s ∈ f.1.spans ++ f.2.spans ∧ s.bearsText = true := by
  rw [texts, List.mem_filter] at h
  exact h

theorem Laid.lastText_spans (h : Laid content es) (hf : f ∈ es) :
    (lastText f).start ≤ (lastText f).stop ∧ (lastText f).stop ≤ content.length := by
  have hsub := Laid.entry_sublist hf
  refine h.spans _ (hsub.subset ?_)
  rcases List.mem_cons.1 (lastText_mem f) with hl | hl
  · rw [hl]
    obtain ⟨rest, hrest⟩ := f.1.spans_head
    rw [hrest]
    exact List.mem_cons_self
  · exact (texts_subset hl).1

/-- The range of an entry holds no text of another: what is in front ends before the key's line,
and what is behind starts after the last line. -/
theorem Laid.other_text (h : Laid content (before ++ f :: es)) {g : Tree × Tree}
    (hg : g ∈ before ∨ g ∈ es) {s : Span} (hs : s ∈ texts g) :
    s.stop ≤ (entryRange content f).1 ∨ (entryRange content f).2 ≤ s.start := by
  have hmem : g ∈ before ++ f :: es := by
    simp only [List.mem_append, List.mem_cons]
    tauto
  obtain ⟨-, hlater, hearlier⟩ := List.pairwise_append.1 h.lines
  rcases hg with hg | hg
  · obtain ⟨p, hp, hsp, hn⟩ := hearlier g hg f List.mem_cons_self s (List.mem_cons_of_mem _ hs)
    have hlt := lt_lineStart hp hn
    have hstop : s.stop ≤ s.lastByte + 1 := by
      rw [Span.lastByte, if_pos (texts_subset hs).2]
      omega
    refine .inl ?_
    simp only [entryRange]
    omega
  · obtain ⟨p, hp, hlp, hn⟩ := (List.pairwise_cons.1 hlater).1 g hg _ (lastText_mem f)
    have hle := lineEnd_le hlp hn
    have hhead := h.head_le hmem (texts_subset hs).1
    refine .inr ?_
    simp only [entryRange]
    omega

/-- The last text of an entry whose key is a scalar, found from the key on. -/
theorem lastText_eq (s : Span) (name : String) (v : Tree) :
    lastText (.scalar name s, v) = (v.spans.filter Span.bearsText).getLastD s := by
  have hspans : (Tree.scalar name s).spans = [s] := by
    rw [Tree.spans, Tree.events]
    rfl
  rw [lastText, texts, hspans, List.singleton_append]
  cases hs : s.bearsText with
  | true =>
      rw [List.filter_cons_of_pos hs, List.getLastD_cons]
  | false =>
      rw [List.filter_cons_of_neg (by simp [hs])]
      rfl

/-- What the walk reads behind the key of an entry belongs to entries behind it. -/
theorem swallowed_entry {s : Span} (hs : s ∈ (eventsOf (swallowed (slots es))).map Prod.snd) :
    ∃ g ∈ es, s ∈ g.1.spans ++ g.2.spans := by
  obtain ⟨e, he, rfl⟩ := List.mem_map.1 hs
  obtain ⟨u, hu, heu⟩ := mem_eventsOf.1 he
  have hslot := swallowed_subset _ u hu
  obtain ⟨g, hg, hug⟩ := List.mem_flatMap.1 hslot
  have hspan : e.2 ∈ u.spans := List.mem_map_of_mem heu
  refine ⟨g, hg, ?_⟩
  simp only [List.mem_cons, List.not_mem_nil, or_false] at hug
  rcases hug with rfl | rfl
  · exact List.mem_append_left _ hspan
  · exact List.mem_append_right _ hspan

theorem swallowed_sublist (ts : List Tree) : (eventsOf (swallowed ts)).Sublist (eventsOf ts) := by
  induction ts with
  | nil => exact .slnil
  | cons t ts ih =>
      by_cases hne : ∀ i s, t ≠ .alias i s
      · rw [swallowed_of_ne hne]
        simp
      · obtain ⟨i, s, rfl⟩ : ∃ i s, t = .alias i s := by simpa using hne
        rw [swallowed, eventsOf_cons, eventsOf_cons]
        exact (List.Sublist.refl _).append ih

/-- The walk ends the entry where it ends exactly when its last text does not hold the newline
of its line, and, if its value is an alias, nothing read behind it before the entry is closed
bears text. -/
theorem Laid.reach_iff {s : Span} {v : Tree} (h : Laid content (before ++ (.scalar key s, v) :: es)) :
    lineEnd content (reach (.scalar key s, v) es) = lineEnd content (lastText (.scalar key s, v)).lastByte
      ↔ ¬ EndsLine content (lastText (.scalar key s, v))
        ∧ (v.isAlias → ∀ r ∈ (eventsOf (swallowed (slots es))).map Prod.snd, r.bearsText = false) := by
  have hf : (Tree.scalar key s, v) ∈ before ++ (.scalar key s, v) :: es := by simp
  have hkey : (Tree.scalar key s).spans = [s] := by
    rw [Tree.spans, Tree.events]
    rfl
  have hL := h.lastText_spans hf
  have hstop := lineEnd_stop_iff hL.1 hL.2
  by_cases hne : ∀ i s, v ≠ .alias i s
  · have hal : ¬ v.isAlias = true := by
      cases v <;> simp_all [Tree.isAlias]
    have hsub := Laid.entry_sublist hf
    rw [hkey, List.singleton_append] at hsub
    have hlast := Scan.extendAll_ordered (a := 0) (d := 2) (h.ordered.sublist hsub)
      fun r hr => (h.spans r (hsub.subset (List.mem_cons_of_mem s hr))).1
    have hreach : reach (.scalar key s, v) es = (lastText (.scalar key s, v)).stop := by
      rw [lastText_eq, ← hlast, reach, swallowed_of_ne hne, eventsOf_cons, eventsOf_nil,
        List.append_nil]
      rfl
    rw [hreach, hstop]
    exact ⟨fun hno => ⟨hno, fun hyes => absurd hyes hal⟩, fun hno => hno.1⟩
  · obtain ⟨i, sv, rfl⟩ : ∃ i s, v = .alias i s := by simpa using hne
    have hvalue : (Tree.alias i sv).spans = [sv] := by
      rw [Tree.spans, Tree.events]
      rfl
    have hall : (s :: ([sv] ++ (eventsOf (swallowed (slots es))).map Prod.snd)).Sublist
        ((eventsOf (slots (before ++ (.scalar key s, .alias i sv) :: es))).map Prod.snd) := by
      rw [slots_append, eventsOf_append, List.map_append]
      refine List.Sublist.trans ?_ (List.sublist_append_right _ _)
      simp only [slots_cons, eventsOf_cons, Tree.events, List.singleton_append, List.map_cons]
      exact ((List.Sublist.map _ (swallowed_sublist _)).cons_cons _).cons_cons _
    have hlast := Scan.extendAll_ordered (a := 0) (d := 2) (h.ordered.sublist hall)
      fun r hr => (h.spans r (hall.subset (List.mem_cons_of_mem s hr))).1
    have hreach : reach (.scalar key s, .alias i sv) es
        = ((([sv] ++ (eventsOf (swallowed (slots es))).map Prod.snd).filter Span.bearsText).getLastD s).stop := by
      rw [← hlast, reach, swallowed, eventsOf_cons, Tree.events]
      rfl
    rw [List.filter_append] at hreach
    by_cases hT : ((eventsOf (swallowed (slots es))).map Prod.snd).filter Span.bearsText = []
    · rw [hT, List.append_nil, ← hvalue, ← lastText_eq s key] at hreach
      rw [hreach, hstop]
      refine ⟨fun hno => ⟨hno, fun _ r hr => ?_⟩, fun hno => hno.1⟩
      simpa using List.filter_eq_nil_iff.1 hT r hr
    · obtain ⟨r, hr⟩ : ∃ r, r ∈ ((eventsOf (swallowed (slots es))).map Prod.snd).filter Span.bearsText
          ∧ reach (.scalar key s, .alias i sv) es = r.stop := by
        refine ⟨_, List.getLast_mem hT, ?_⟩
        rw [hreach, List.getLastD_eq_getLast?, List.getLast?_append_of_ne_nil _ hT,
          List.getLast?_eq_some_getLast hT]
        rfl
      obtain ⟨hr, hreach⟩ := hr
      obtain ⟨hrmem, hrtext⟩ := List.mem_filter.1 hr
      obtain ⟨g, hg, hrg⟩ := swallowed_entry hrmem
      have hgmem : g ∈ before ++ (.scalar key s, .alias i sv) :: es := by simp [hg]
      obtain ⟨-, hlater, -⟩ := List.pairwise_append.1 h.lines
      obtain ⟨p, hp, hlp, hn⟩ := (List.pairwise_cons.1 hlater).1 g hg _ (lastText_mem _)
      have hle := lineEnd_le hlp hn
      have hhead := h.head_le hgmem hrg
      have hlt : r.start < r.stop := by simpa [Span.bearsText] using hrtext
      have hrlen := (h.spans r ((Laid.entry_sublist hgmem).subset hrg)).2
      have hge := le_lineEnd hrlen
      rw [hreach]
      refine ⟨fun heq => by omega, fun hno => ?_⟩
      exact absurd (hno.2 rfl r hrmem) (by simp [hrtext])

end

/-! ### Exactness -/

/-- A document that is no mapping has no container. -/
theorem walk_of_not_mapping (frame : Event → Span) (ht : ∀ o es c, t ≠ .map o es c) :
    walk content container key (stream frame t) = .ok ⟨none, none, none⟩ := by
  have hsteps : Steps content container key { docs := 1 } t.events { docs := 1 } := by
    cases t with
    | scalar v s =>
        rw [Tree.events]
        refine .single ?_
        rw [Walk.step_of_none rfl rfl]
        simp [Walk.on, Walk.onScalar, onTop]
    | «alias» i s =>
        rw [Tree.events]
        exact .single (by rw [Walk.step_of_none rfl rfl]; rfl)
    | seq o items c =>
        have hquiet : Quiet { docs := 1, stack := [.seq] } :=
          ⟨.inr ⟨rfl, rfl⟩, by simp, by simp, by simp⟩
        have hitems : Steps content container key _ (eventsOf items) _ :=
          Quiet.steps_all (fun t _ => steps_quiet t) _ hquiet
        rw [Walk.passed_of_none rfl rfl] at hitems
        rw [Tree.events]
        refine .cons ?_ (hitems.append (.single ?_))
        · rw [Walk.step_of_none rfl rfl]
          rfl
        · rw [Walk.step_of_none rfl rfl]
          rfl
    | map o es c => exact absurd rfl (ht o es c)
  obtain ⟨w', hw', hwalk⟩ := walk_of_steps frame (t.events.append_nil).symm hsteps
  have htrailer : Steps content container key { docs := 1 } ([] ++ trailer frame) { docs := 1 } := rfl
  obtain rfl : w' = { docs := 1 } := Except.ok.inj (hw'.symm.trans htrailer)
  rw [hwalk]
  rfl

theorem Tree.isAlias_of_splices {v : Tree} (h : v.splices = true) : v.isAlias = false := by
  cases v <;> first | rfl | cases h

/-- A mapping that is the value of an entry of the root is one of the document's. -/
theorem Tree.value_mappings {e : Tree × Tree} {o c : Span} {es : List (Tree × Tree)}
    (he : e ∈ t.entries) (hv : e.2 = .map o es c) : (o, es, c) ∈ t.mappings := by
  rcases entries_cases t with h | ⟨o', es', c', rfl⟩
  · rw [h] at he
    cases he
  · rw [Tree.mappings]
    refine List.mem_cons_of_mem _ (mem_mappingsOfEntries.2 ⟨e.2, ?_, ?_⟩)
    · exact List.mem_flatMap.2 ⟨e, he, by simp⟩
    · rw [hv, Tree.mappings]
      exact List.mem_cons_self

theorem Tree.block_of_splices {v : Tree} {o c : Span} {es : List (Tree × Tree)}
    (h : v.splices = true) (hv : v = .map o es c) : o.bearsText = false := by
  subst hv
  simpa [Tree.splices] using h

/-- The entries of the container are laid out as a block mapping's are. -/
theorem WellFormed.laid_value (h : WellFormed content t) {e f : Tree × Tree} (he : e ∈ t.entries)
    (hs : e.2.splices = true) (hf : f ∈ e.2.entries) : Laid content e.2.entries := by
  rcases entries_cases e.2 with hnil | ⟨o, es, c, hv⟩
  · rw [hnil] at hf
    cases hf
  · have hl := h.laid (Tree.value_mappings he hv) (Tree.block_of_splices hs hv)
    simpa [hv] using hl

/-- The walk over the root mapping finds what is there exactly when the condition holds. -/
theorem walk_located_map {o c : Span} {es : List (Tree × Tree)} (frame : Event → Span)
    (hwf : WellFormed content (.map o es c)) (hstep : InStep container key (.map o es c)) :
    (walk content container key (stream frame (.map o es c))).map Found.summary
        = located content container key (.map o es c)
      ↔ Bounded content container key (.map o es c) := by
  have hdist := hwf.distinct (o, es, c) (by rw [Tree.mappings]; exact List.mem_cons_self)
  obtain ⟨hread, hinner⟩ := hstep
  simp only [Tree.entries_map] at hread hinner
  rw [located, Bounded]
  simp only [Tree.entries_map]
  cases hl : lookup container es with
  | none =>
      rw [walk_of_absent frame hread (lookup_eq_none hl)]
      simp [Except.map, Found.summary]
  | some e =>
      obtain ⟨hk, before, hes, hbefore⟩ := lookup_split hl
      obtain ⟨k, v⟩ := e
      obtain ⟨s, rfl⟩ := Tree.spells_iff.1 hk
      have hinner' := hinner _ hl
      generalize behind container es = rest at hes ⊢
      subst hes
      have hbehind := spells_behind hdist hk
      simp only [Option.mem_some_iff, forall_eq']
      cases hv : v.splices with
      | false =>
          have hwalk := @walk_of_refused content container key rest before o c s v frame hread
            hbefore hbehind hv
          split at hwalk
          · rename_i hyes
            simpa [hwalk, Except.map, hv] using hyes
          · rename_i hno
            obtain ⟨found, hwalk⟩ := hwalk
            simpa [hwalk, Except.map, hv] using hno
      | true =>
          have hal := Tree.isAlias_of_splices hv
          have hin : (Tree.scalar container s, v)
              ∈ (Tree.map o (before ++ (.scalar container s, v) :: rest) c).entries := by simp
          have hdist' : (v.entries.map fun e => e.1.node).Nodup := by
            rcases entries_cases v with he | ⟨o', es', c', hv'⟩
            · simp [he]
            · have hd := hwf.distinct _ (Tree.value_mappings hin hv')
              simpa [hv'] using hd
          obtain ⟨m, hwalk⟩ := @walk_of_splices content container key rest before o c s v frame hread
            hbefore hbehind hv
            (fun o' es' c' hv' => hwf.ends _ (Tree.value_mappings hin hv')
              (Tree.block_of_splices hv hv'))
            hdist' (hinner' hv)
          rw [hwalk]
          cases hl' : lookup key v.entries with
          | none => simp [Except.map, Found.summary, hal]
          | some f =>
              obtain ⟨hf, before', hes', -⟩ := lookup_split hl'
              obtain ⟨k', v'⟩ := f
              obtain ⟨s', rfl⟩ := Tree.spells_iff.1 hf
              have hlaid := hwf.laid_value hin hv (List.mem_of_find?_eq_some hl')
              simp only at hlaid
              rw [hes'] at hlaid
              have hiff := hlaid.reach_iff
              simpa [Except.map, Found.summary, hal, entryRange, Tree.head] using hiff

/-- The walk locates what the document holds, entry and value included, exactly when the
condition holds; and the range of the entry then holds no text of another. -/
theorem walk_located_iff (frame : Event → Span) (hwf : WellFormed content t)
    (hstep : InStep container key t) :
    ((walk content container key (stream frame t)).map Found.summary = located content container key t
        ↔ Bounded content container key t)
      ∧ ∀ e ∈ lookup container t.entries, e.2.splices → ∀ f ∈ lookup key e.2.entries,
          ∀ g ∈ e.2.entries, g.1.spells key = false → ∀ s ∈ texts g,
            s.stop ≤ (entryRange content f).1 ∨ (entryRange content f).2 ≤ s.start := by
  constructor
  · by_cases ht : ∃ o es c, t = .map o es c
    · obtain ⟨o, es, c, rfl⟩ := ht
      exact walk_located_map frame hwf hstep
    · have hne : ∀ o es c, t ≠ .map o es c := fun o es c h => ht ⟨o, es, c, h⟩
      have hentries : t.entries = [] := by
        rcases entries_cases t with he | he
        · exact he
        · exact absurd he ht
      rw [walk_of_not_mapping frame hne, located, Bounded, hentries]
      simp [lookup, Except.map, Found.summary]
  · intro e he hsplices f hf g hg hkey s hs
    have hlaid := hwf.laid_value (List.mem_of_find?_eq_some he) hsplices (List.mem_of_find?_eq_some hf)
    obtain ⟨hfkey, before, hes, -⟩ := lookup_split hf
    generalize behind key e.2.entries = rest at hes
    rw [hes] at hlaid hg
    refine hlaid.other_text ?_ hs
    rcases List.mem_append.1 hg with hg | hg
    · exact .inl hg
    · rcases List.mem_cons.1 hg with rfl | hg
      · rw [hkey] at hfkey
        cases hfkey
      · exact .inr hg

/-- Two servers, ours the first, with the spans of
`mcp_servers:\n  filigrio: x\n  sentry: npx\n`. -/
def twoServers : List UInt8 × Tree :=
  ("mcp_servers:\n  filigrio: x\n  sentry: npx\n".toUTF8.toList,
    .map ⟨0, 0⟩
      [(.scalar "mcp_servers" ⟨0, 11⟩, .map ⟨15, 15⟩
        [(.scalar "filigrio" ⟨15, 23⟩, .scalar "x" ⟨25, 26⟩),
          (.scalar "sentry" ⟨29, 35⟩, .scalar "npx" ⟨37, 40⟩)] ⟨41, 41⟩)] ⟨41, 41⟩)

theorem walk_located_twoServers :
    (walk twoServers.1 "mcp_servers" "filigrio" (stream (fun _ => ⟨0, 0⟩) twoServers.2)).map
        Found.summary = .ok (true, some (13, 27), some (.scalar "x")) := by
  have h := (@walk_located_iff twoServers.1 "mcp_servers" "filigrio" twoServers.2
    (fun _ => ⟨0, 0⟩) (by decide +kernel) (by decide +kernel)).1.2 (by decide +kernel)
  rw [h]
  decide +kernel

/-- `x: &a npx\nmcp_servers:\n  filigrio: *a\n  sentry: npx\n`: the entry's value is an alias. -/
def aliasedEntry : List UInt8 × Tree :=
  ("x: &a npx\nmcp_servers:\n  filigrio: *a\n  sentry: npx\n".toUTF8.toList,
    .map ⟨0, 0⟩
      [(.scalar "x" ⟨0, 1⟩, .scalar "npx" ⟨6, 9⟩),
        (.scalar "mcp_servers" ⟨10, 21⟩, .map ⟨25, 25⟩
          [(.scalar "filigrio" ⟨25, 33⟩, .alias 1 ⟨35, 37⟩),
            (.scalar "sentry" ⟨40, 46⟩, .scalar "npx" ⟨48, 51⟩)] ⟨52, 52⟩)] ⟨52, 52⟩)

/-- `x: &a\n  filigrio: y\nmcp_servers: *a\nother:\n  filigrio: z\n`: the container's value is. -/
def aliasedContainer : List UInt8 × Tree :=
  ("x: &a\n  filigrio: y\nmcp_servers: *a\nother:\n  filigrio: z\n".toUTF8.toList,
    .map ⟨0, 0⟩
      [(.scalar "x" ⟨0, 1⟩, .map ⟨8, 8⟩
          [(.scalar "filigrio" ⟨8, 16⟩, .scalar "y" ⟨18, 19⟩)] ⟨20, 20⟩),
        (.scalar "mcp_servers" ⟨20, 31⟩, .alias 1 ⟨33, 35⟩),
        (.scalar "other" ⟨36, 41⟩, .map ⟨45, 45⟩
          [(.scalar "filigrio" ⟨45, 53⟩, .scalar "z" ⟨55, 56⟩)] ⟨57, 57⟩)] ⟨57, 57⟩)

/-- `? [a]\n: b\nmcp_servers:\n  filigrio: x\n`: a key of the root is a collection. -/
def collectionKey : List UInt8 × Tree :=
  ("? [a]\n: b\nmcp_servers:\n  filigrio: x\n".toUTF8.toList,
    .map ⟨0, 0⟩
      [(.seq ⟨2, 3⟩ [.scalar "a" ⟨3, 4⟩] ⟨5, 5⟩, .scalar "b" ⟨8, 9⟩),
        (.scalar "mcp_servers" ⟨10, 21⟩, .map ⟨25, 25⟩
          [(.scalar "filigrio" ⟨25, 33⟩, .scalar "x" ⟨35, 36⟩)] ⟨37, 37⟩)] ⟨37, 37⟩)

/-- `mcp_servers:\n  filigrio: |\n    a\n  sentry: npx\n`, the block scalar with its line break. -/
def blockScalar : List UInt8 × Tree :=
  ("mcp_servers:\n  filigrio: |\n    a\n  sentry: npx\n".toUTF8.toList,
    .map ⟨0, 0⟩
      [(.scalar "mcp_servers" ⟨0, 11⟩, .map ⟨15, 15⟩
        [(.scalar "filigrio" ⟨15, 23⟩, .scalar "a\n" ⟨25, 33⟩),
          (.scalar "sentry" ⟨35, 41⟩, .scalar "npx" ⟨43, 46⟩)] ⟨47, 47⟩)] ⟨47, 47⟩)

/-- The entry runs over the line of the next one; another mapping's entry is taken for ours; an
entry that is there is missed; and again the line of the next entry is taken in. -/
theorem walk_mislocates :
    (WellFormed aliasedEntry.1 aliasedEntry.2
      ∧ located aliasedEntry.1 "mcp_servers" "filigrio" aliasedEntry.2
        = .ok (true, some (23, 38), some (.alias 1))
      ∧ (walk aliasedEntry.1 "mcp_servers" "filigrio" (stream (fun _ => ⟨0, 0⟩) aliasedEntry.2)).map
          Found.summary = .ok (true, some (23, 52), some (.alias 1)))
    ∧ (WellFormed aliasedContainer.1 aliasedContainer.2
      ∧ located aliasedContainer.1 "mcp_servers" "filigrio" aliasedContainer.2 = .error .inline
      ∧ (walk aliasedContainer.1 "mcp_servers" "filigrio"
          (stream (fun _ => ⟨0, 0⟩) aliasedContainer.2)).map Found.summary
        = .ok (true, some (43, 57), some (.scalar "z")))
    ∧ (WellFormed collectionKey.1 collectionKey.2
      ∧ located collectionKey.1 "mcp_servers" "filigrio" collectionKey.2
        = .ok (true, some (23, 37), some (.scalar "x"))
      ∧ (walk collectionKey.1 "mcp_servers" "filigrio"
          (stream (fun _ => ⟨0, 0⟩) collectionKey.2)).map Found.summary = .ok (false, none, none))
    ∧ WellFormed blockScalar.1 blockScalar.2
      ∧ located blockScalar.1 "mcp_servers" "filigrio" blockScalar.2
        = .ok (true, some (13, 33), some (.scalar "a\n"))
      ∧ (walk blockScalar.1 "mcp_servers" "filigrio" (stream (fun _ => ⟨0, 0⟩) blockScalar.2)).map
          Found.summary = .ok (true, some (13, 47), some (.scalar "a\n")) := by
  refine ⟨⟨?_, ?_, ?_⟩, ⟨?_, ?_, ?_⟩, ⟨?_, ?_, ?_⟩, ?_, ?_, ?_⟩ <;> decide +kernel

end Filigrio.Yaml
