import Filigrio.Ledger.References

/-!
# Filigrio.Ledger.Safety

Linker safety. What a resolved reference may be bound to, said about the nodes of
the graph: a linkable node; in the source's project, unless imported or qualified
by a workspace crate; in the source's file, unless imported, when nothing is known
about the receiver; owned by the receiver's type, unless imported, when it is known.
-/

namespace Filigrio

variable {C : Type}

/-- `t` is the import-scope binding of a name the reference is looked up under. -/
def ImportBound (s : GraphState) (source : Source C) (nr : String × Reference) (t : NodeId) : Prop :=
  ∃ nm ∈ lookedUp s.idx.candidates s.workspace nr.1,
    importedDef (s.ctx source) nr.2.source nm = some t

/-- The receiver type a reference resolves under, and whether it is opaque. -/
def GraphState.receiver (s : GraphState) (source : Source C) (r : Reference) :
    Option String × Bool := Filigrio.receiver s.idx.candidates (s.ctx source) r

/-- The name starts with a workspace crate's name followed by `::`. -/
def WorkspaceQualified (s : GraphState) (name : String) : Prop :=
  (stripWorkspaceQualifier name s.workspace).isSome = true

/-- What the linker guarantees about a reference bound to `t`; `n` and `m` are the
nodes of the target and of the source. -/
structure BoundSafely (s : GraphState) (source : Source C) (nr : String × Reference) (t : NodeId)
    (n m : Node) : Prop where
  targetNode : n ∈ s.graph.nodes ∧ n.id = t
  sourceNode : m ∈ s.graph.nodes ∧ m.id = nr.2.source
  linkable : ∃ d ∈ s.graph.nodes, d.id = t ∧ isLinkable d = true
  project : ImportBound s source nr t ∨ WorkspaceQualified s nr.1 ∨
    n.projectRoot s.workspace = m.projectRoot s.workspace
  unknownReceiver : s.receiver source nr.2 = (none, true) → ImportBound s source nr t ∨
    (m.sourceFile.isSome = true ∧ n.sourceFile = m.sourceFile)
  knownReceiver : ∀ ty, (s.receiver source nr.2).1 = some ty → ImportBound s source nr t ∨
    ∃ owner, n.attrs[attrImpl]? = some owner ∧ normType owner = normType ty

namespace Ledger

variable {st : Stages C} {ex : Extractor C} {L : Ledger} {s : GraphState} {source : Source C}

/-- A reference of a state that is bound at all is bound safely. -/
theorem boundSafely (hex : ex.PerFile) (hno : ex.NoOverlay) (hs : Reflects ex source L s)
    {nr : String × Reference} (hnr : nr ∈ BTreeMap.pairs s.reverse.refs) {t : NodeId}
    (ht : (s.link source nr).target = .node t) : ∃ n m, BoundSafely s source nr t n m := by
  have hsub : ∀ n ∈ s.symbolNodes, n ∈ s.graph.nodes := fun n hn => (List.mem_filter.mp hn).1
  have hsymbols := symbolNodes_eq hno hs.toListed
  rw [hs.reverse] at hnr
  obtain ⟨f, hf, -, hsource⟩ := source_mem_of_pairs hex hs.ok hnr
  obtain ⟨d, hd, hlinkable, hid⟩ : ∃ d ∈ s.symbolNodes, isLinkable d = true ∧ d.id = t := by
    rw [(state_link_eq hno hs source).2] at ht
    rw [hsymbols]
    exact link_target ht
  obtain ⟨n, hn, hn_id, hn_lookup⟩ := exists_lookup_node (List.mem_map.mpr ⟨d, hd, hid⟩)
  have hsource_mem : nr.2.source ∈ s.symbolNodes.map Node.id := by
    obtain ⟨m, hm, hid⟩ := List.mem_map.mp hsource
    rw [hsymbols]
    exact List.mem_map.mpr ⟨m, mem_nodes.mpr ⟨f, hf, hm⟩, hid⟩
  obtain ⟨m, hm, hm_id, hm_lookup⟩ := exists_lookup_node hsource_mem
  obtain ⟨nm, hnm, hbound⟩ := linkRef_node ht
  have himport : importedDef (s.ctx source) nr.2.source nm = some t → ImportBound s source nr t :=
    fun h => ⟨nm, hnm, h⟩
  refine ⟨n, m,
    { targetNode := ⟨hsub n hn, hn_id⟩
      sourceNode := ⟨hsub m hm, hm_id⟩
      linkable := ⟨d, hsub d hd, hid, hlinkable⟩
      project := ?_
      unknownReceiver := fun hrecv => ?_
      knownReceiver := fun ty hty => ?_ }⟩
  · refine hbound.imp himport fun ⟨_, hproject, _⟩ => hproject.imp id fun hsame => ?_
    have hroots := of_decide_eq_true hsame
    exact (hn_lookup _).symm.trans (hroots.trans (hm_lookup _))
  · refine hbound.imp himport fun ⟨_, _, hok⟩ => ?_
    have hok : ReceiverOk (s.ctx source) nr.2.source (s.receiver source nr.2) t := hok
    rw [hrecv] at hok
    obtain ⟨hsome, hsame⟩ := Bool.and_eq_true_iff.mp (hok rfl)
    refine ⟨(congrArg Option.isSome (hm_lookup Node.sourceFile)).symm.trans hsome, ?_⟩
    exact (hn_lookup _).symm.trans ((of_decide_eq_true hsame).trans (hm_lookup _))
  · refine hbound.imp himport fun ⟨_, _, hok⟩ => ?_
    have hok : ReceiverOk (s.ctx source) nr.2.source (s.receiver source nr.2) t := hok
    rw [ReceiverOk, hty] at hok
    obtain ⟨owner, howner, heq⟩ := (Option.any_eq_true _ _).mp hok
    exact ⟨owner, (hn_lookup _).symm.trans howner, of_decide_eq_true heq⟩

end Ledger

/-- Every edge at a reference site is the link of a reference, bound safely if at all. -/
def LinkerSafe (s : GraphState) (source : Source C) : Prop :=
  ∀ e ∈ s.graph.edges, e.site ∈ refSites s.reverse.refs →
    ∃ nr ∈ BTreeMap.pairs s.reverse.refs, nr.2.site = e.site ∧ s.link source nr = e ∧
      ∀ t, e.target = .node t → ∃ n m, BoundSafely s source nr t n m

/-- **Linker safety.** In every state reached by global applies each reference edge
is the link of one of the references at its site, and a resolved one is bound safely. -/
theorem linker_safe {st : Stages C} {ex : Extractor C} {source : Source C} {s : GraphState}
    (hex : ex.PerFile) (hno : ex.NoOverlay) (hunmixed : ex.Unmixed)
    (h : Reach st ex globalApply source s) : LinkerSafe s source := by
  intro e he hsite
  obtain ⟨L, hs⟩ := Ledger.exists_reflects hex hno hunmixed h
  obtain ⟨nr, hnr, hsite', rfl⟩ := Ledger.exists_link_eq hs hno he hsite
  exact ⟨nr, hnr, hsite', rfl, fun t ht => Ledger.boundSafely hex hno hs hnr ht⟩

/-- `linker_safe` on a file that calls a definition of another. -/
theorem linker_safe_sample : ∃ (source : Source Snippet) (s : GraphState),
    Snippet.runGlobal Snippet.extractor .empty
        [(.allAdded ["a.ts", "b.ts"], [("a.ts", .caller "f"), ("b.ts", .plain "f")])] = .ok s ∧
      LinkerSafe s source := by
  have hok : (Snippet.runGlobal Snippet.extractor .empty
      [(.allAdded ["a.ts", "b.ts"], [("a.ts", .caller "f"), ("b.ts", .plain "f")])]).isOk = true := by
    decide +kernel
  cases hrun : Snippet.runGlobal Snippet.extractor .empty
      [(.allAdded ["a.ts", "b.ts"], [("a.ts", .caller "f"), ("b.ts", .plain "f")])] with
  | error e => rw [hrun] at hok; cases hok
  | ok s =>
      obtain ⟨source, hreach⟩ := Snippet.reach_runGlobal (.empty (Snippet.source [])) hrun
      exact ⟨source, s, rfl, linker_safe Snippet.perFile Snippet.noOverlay Snippet.unmixed hreach⟩

/-! ### Where the guarantee stops -/

/-- Linker safety with the opaque mark taken on its own, whatever else the
reference says about its receiver. -/
def OpaqueSafe (s : GraphState) (source : Source C) : Prop :=
  ∀ e ∈ s.graph.edges, e.site ∈ refSites s.reverse.refs →
    ∃ nr ∈ BTreeMap.pairs s.reverse.refs, nr.2.site = e.site ∧ s.link source nr = e ∧
      ∀ t, e.target = .node t → ∃ n m, BoundSafely s source nr t n m ∧
        (nr.2.recvOpaque = true → ImportBound s source nr t ∨
          (m.sourceFile.isSome = true ∧ n.sourceFile = m.sourceFile))

/-- A run of the extractor that ends in an unsafe binding. -/
def BreaksSafety (ex : Extractor Snippet) : Prop :=
  ∃ source s, Reach Snippet.stages ex globalApply source s ∧ ¬ OpaqueSafe s source

namespace Snippet

/-- Is an edge at a reference site bound to an id that no linkable node has? -/
def boundToUnlinkable (s : GraphState) : Bool :=
  s.graph.edges.any fun e => e.site ∈ refSites s.reverse.refs && match e.target with
    | .node t => s.graph.nodes.all fun n => !(decide (n.id = t) && isLinkable n)
    | .symbol _ => false

/-- Are all references at a bound edge's site opaque and not imported, and its ends
in different files? -/
def opaqueAcrossFiles (s : GraphState) (source : Source Snippet) : Bool :=
  s.graph.edges.any fun e => e.site ∈ refSites s.reverse.refs && match e.target with
    | .node t =>
      ((BTreeMap.pairs s.reverse.refs).all fun nr => nr.2.site ≠ e.site || nr.2.recvOpaque &&
        (lookedUp s.idx.candidates s.workspace nr.1).all fun nm =>
          importedDef (s.ctx source) nr.2.source nm = none) &&
      s.graph.nodes.all fun n => s.graph.nodes.all fun m =>
        n.id ≠ t || m.id ≠ e.source || n.sourceFile ≠ m.sourceFile
    | .symbol _ => false

end Snippet

theorem not_safe_of_unlinkable {s : GraphState} (h : Snippet.boundToUnlinkable s = true)
    (source : Source Snippet) : ¬ OpaqueSafe s source := by
  intro hsafe
  obtain ⟨e, he, hbad⟩ := List.any_eq_true.mp h
  obtain ⟨hsite, hbad⟩ := Bool.and_eq_true_iff.mp hbad
  obtain ⟨nr, -, -, -, hbound⟩ := hsafe e he (of_decide_eq_true hsite)
  split at hbad
  · rename_i t ht
    obtain ⟨n, m, hb, -⟩ := hbound t ht
    obtain ⟨d, hd, hid, hlinkable⟩ := hb.linkable
    have := List.all_eq_true.mp hbad d hd
    simp [hid, hlinkable] at this
  · cases hbad

theorem not_safe_of_opaque {s : GraphState} {source : Source Snippet}
    (h : Snippet.opaqueAcrossFiles s source = true) : ¬ OpaqueSafe s source := by
  intro hsafe
  obtain ⟨e, he, hbad⟩ := List.any_eq_true.mp h
  obtain ⟨hsite, hbad⟩ := Bool.and_eq_true_iff.mp hbad
  obtain ⟨nr, hnr, hsite', -, hbound⟩ := hsafe e he (of_decide_eq_true hsite)
  split at hbad
  · rename_i t ht
    obtain ⟨n, m, hb, hlocal⟩ := hbound t ht
    obtain ⟨hrefs, hfiles⟩ := Bool.and_eq_true_iff.mp hbad
    have hnr' := List.all_eq_true.mp hrefs nr hnr
    simp only [hsite', ne_eq, not_true_eq_false, decide_false, Bool.false_or, Bool.and_eq_true]
      at hnr'
    rcases hlocal hnr'.1 with ⟨nm, hnm, himport⟩ | ⟨-, hfile⟩
    · have hnone := of_decide_eq_true (List.all_eq_true.mp hnr'.2 nm hnm)
      rw [hnone] at himport
      cases himport
    · have hsource : m.id = e.source := hb.sourceNode.2.trans
        (congrArg (fun site => (ofLex site).1) hsite')
      have := List.all_eq_true.mp (List.all_eq_true.mp hfiles n hb.targetNode.1) m hb.sourceNode.1
      simp [hb.targetNode.2, hsource, hfile] at this
  · cases hbad

theorem breaksSafety_of_run {ex : Extractor Snippet}
    (steps : List (ChangeSet × List (String × Snippet)))
    (h : (Snippet.runGlobal ex .empty steps).map Snippet.boundToUnlinkable = .ok true) :
    BreaksSafety ex := by
  cases hrun : Snippet.runGlobal ex .empty steps with
  | error e => rw [hrun] at h; cases h
  | ok s =>
      rw [hrun] at h
      obtain ⟨source, hreach⟩ := Snippet.reach_runGlobal (.empty (Snippet.source [])) hrun
      exact ⟨source, s, hreach, not_safe_of_unlinkable (Except.ok.inj h) source⟩

/-- A call with a type hint and an opaque receiver, and a method of that type elsewhere. -/
def hintedTree : List (String × Snippet) :=
  [("a.ts", ⟨"main", [], [(calls, "f", [("type", "T"), ("recv", "opaque")])], []⟩),
    ("b.ts", ⟨"f", [(attrImpl, "T")], [], []⟩)]

theorem breaksSafety_hinted : BreaksSafety Snippet.extractor := by
  have h : (Engine.apply Snippet.stages .empty (.allAdded ["a.ts", "b.ts"])
      (Snippet.source hintedTree) Snippet.extractor).map
        (fun δ => Snippet.opaqueAcrossFiles (merge .empty δ) (Snippet.source hintedTree))
      = .ok true := by
    decide +kernel
  cases hrun : Engine.apply Snippet.stages .empty (.allAdded ["a.ts", "b.ts"])
      (Snippet.source hintedTree) Snippet.extractor with
  | error e => rw [hrun] at h; cases h
  | ok δ =>
      rw [hrun] at h
      exact ⟨_, _, .apply (a := ⟨.allAdded ["a.ts", "b.ts"], Snippet.source hintedTree, .global,
        .inline⟩) (.empty (Snippet.source [])) rfl hrun, not_safe_of_opaque (Except.ok.inj h)⟩

/-- Linker safety needs its provisos. A type hint overrides the opaque mark; when
two files share an id the edge goes to the node that was there first, linkable or
not; and a structural edge at a reference site is bound to whatever the extractor says. -/
theorem linker_unsafe :
    BreaksSafety Snippet.extractor ∧
    BreaksSafety (Snippet.extractorWith sharedId sharedId fun p => if p = "a.ts" then "variable" else "function") ∧
    BreaksSafety (Snippet.extractorWith Snippet.defId Snippet.fileId fun _ => "variable") := by
  refine ⟨breaksSafety_hinted,
    breaksSafety_of_run
      [(.allAdded ["a.ts", "c.ts"], [("a.ts", .plain "g"), ("c.ts", .caller "f")]),
        (⟨["b.ts"], [], []⟩, [("a.ts", .plain "g"), ("b.ts", .plain "f"), ("c.ts", .caller "f")])]
      (by decide +kernel),
    breaksSafety_of_run
      [(.allAdded ["a.ts"], [("a.ts", ⟨"f", [], [(contains, "g", [])], []⟩)])]
      (by decide +kernel)⟩

end Filigrio
