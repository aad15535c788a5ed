import Filigrio.Ledger.Basic

/-!
# Filigrio.Ledger.Binding

What one linked edge can be: the rules of `linkRef`, read backwards. A reference
is looked up under one to three names (`lookedUp`); a bound target is either
the import-scope binding of one of them or one of their candidates that satisfies the
project, receiver and type rules. Read forwards, the edge depends on nothing but
the entries of those names and the attributes of those candidates.
-/

namespace Filigrio

/-- The fallback names of a workspace-qualified name: stripped, then its last segment. -/
def fallbackNames (ws : Workspace) (name : String) : List String :=
  match stripWorkspaceQualifier name ws with
  | some q => if Text.contains q.1 "::" then [q.1, lastSegment q.1] else [q.1]
  | none => []

/-- The names a reference under `name` is looked up under: the fallbacks only
when the name itself has no candidates. -/
def lookedUp (candidates : BTreeMap String (List NodeId)) (ws : Workspace) (name : String) :
    List String :=
  if candidates[name]?.isSome then [name] else name :: fallbackNames ws name

theorem self_mem_lookedUp (candidates : BTreeMap String (List NodeId)) (ws : Workspace)
    (name : String) : name ∈ lookedUp candidates ws name := by
  unfold lookedUp
  split
  · exact List.mem_singleton_self name
  · exact List.mem_cons_self

@[simp] theorem linkRef_source (candidates : BTreeMap String (List NodeId)) (ctx : LinkCtx)
    (name : String) (r : Reference) : (linkRef candidates ctx name r).source = r.source := by
  unfold linkRef
  dsimp only
  repeat' split
  all_goals rfl

@[simp] theorem linkRef_relation (candidates : BTreeMap String (List NodeId)) (ctx : LinkCtx)
    (name : String) (r : Reference) : (linkRef candidates ctx name r).relation = r.relation := by
  unfold linkRef
  dsimp only
  repeat' split
  all_goals rfl

@[simp] theorem linkRef_site (candidates : BTreeMap String (List NodeId)) (ctx : LinkCtx)
    (name : String) (r : Reference) : (linkRef candidates ctx name r).site = r.site := by
  simp only [Edge.site, Reference.site, linkRef_source, linkRef_relation]

/-! ### The rules, read backwards -/

section Rules

variable {ctx : LinkCtx} {source t : NodeId}

/-- What the receiver rules require of a target bound by name. -/
def ReceiverOk (ctx : LinkCtx) (source : NodeId) (recv : Option String × Bool) (t : NodeId) : Prop :=
  match recv.1 with
  | some ty => ownerIs ctx (normType ty) t = true
  | none => recv.2 = true → sameFile ctx source t = true

theorem resolveTyped_node {name ty : String} {ids : List NodeId}
    (h : (resolveTyped name ids ty ctx).1 = .node t) :
    t ∈ ids ∧ ownerIs ctx (normType ty) t = true := by
  have hmem : t ∈ ids.filter (ownerIs ctx (normType ty)) := by
    unfold resolveTyped at h
    split at h
    · cases h
    · rename_i only hids; cases h; rw [hids]; exact List.mem_singleton_self t
    · rename_i first rest _ hids; cases h; rw [hids]; exact List.mem_cons_self
  exact List.mem_filter.mp hmem

theorem resolveNamed_node {name : String} {ids : List NodeId} {recvOpaque : Bool}
    (h : (resolveNamed name source ids recvOpaque ctx).1 = .node t) :
    t ∈ ids ∧ (recvOpaque = true → sameFile ctx source t = true) := by
  have hlocal : ∀ {d : NodeId}, d ∈ ids.filter (sameFile ctx source) →
      d ∈ ids ∧ (recvOpaque = true → sameFile ctx source d = true) := fun hd =>
    ⟨(List.mem_filter.mp hd).1, fun _ => (List.mem_filter.mp hd).2⟩
  unfold resolveNamed at h
  generalize ids.filter (sameFile ctx source) = here at h hlocal
  cases here with
  | cons first rest =>
      have ht : t = first := by
        cases rest with
        | nil => cases h; rfl
        | cons => cases h; rfl
      exact ht ▸ hlocal List.mem_cons_self
  | nil =>
      dsimp only at h
      split at h
      · cases h
      · rename_i hopaque
        refine ⟨?_, fun ho => absurd ho hopaque⟩
        split at h
        · cases h; exact List.mem_singleton_self t
        · cases h; exact List.mem_cons_self
        · cases h

/-- A bound target is imported, or a candidate that meets the project and the
receiver rules. -/
theorem resolve_node {name : String} {cands : Option (List NodeId)} {recv : Option String × Bool}
    {cross : Bool} (h : (resolve name source cands recv.1 recv.2 cross ctx).1 = .node t) :
    importedDef ctx source name = some t ∨
      (t ∈ cands.getD [] ∧ (cross = true ∨ sameProject ctx source t = true) ∧
        ReceiverOk ctx source recv t) := by
  unfold resolve at h
  split at h
  · rename_i d hd; cases h; exact Or.inl hd
  · right
    dsimp only at h
    have hpool : ∀ id ∈ (if cross = true then cands.getD []
        else (cands.getD []).filter (sameProject ctx source)),
        id ∈ cands.getD [] ∧ (cross = true ∨ sameProject ctx source id = true) := by
      intro id hid
      cases cross with
      | true => exact ⟨hid, Or.inl rfl⟩
      | false =>
          obtain ⟨hmem, hproj⟩ := List.mem_filter.mp hid
          exact ⟨hmem, Or.inr hproj⟩
    generalize (if cross = true then cands.getD []
        else (cands.getD []).filter (sameProject ctx source)) = pool at h hpool
    by_cases hempty : pool = []
    · rw [if_pos hempty] at h; cases h
    · rw [if_neg hempty] at h
      unfold ReceiverOk
      cases hty : recv.1 with
      | some ty =>
          rw [hty] at h
          obtain ⟨hmem, howner⟩ := resolveTyped_node h
          exact ⟨(hpool t hmem).1, (hpool t hmem).2, howner⟩
      | none =>
          rw [hty] at h
          obtain ⟨hmem, hopaque⟩ := resolveNamed_node h
          exact ⟨(hpool t hmem).1, (hpool t hmem).2, hopaque⟩

theorem resolveP0c_node {name : String} {cands : Option (List NodeId)}
    {recv : Option String × Bool} {cross : Bool} {qualifier : Option String}
    (h : (resolveP0c name source cands recv.1 recv.2 cross ctx qualifier).1 = .node t) :
    importedDef ctx source name = some t ∨
      (t ∈ cands.getD [] ∧ (cross = true ∨ sameProject ctx source t = true) ∧
        ReceiverOk ctx source recv t) := by
  unfold resolveP0c at h
  split at h
  · rename_i crateName ids
    split at h
    · split at h
      · rename_i narrowed hnarrowed
        refine (resolve_node h).imp id fun ⟨hmem, hrest⟩ => ⟨?_, hrest⟩
        obtain ⟨root, -, hroot⟩ := Option.bind_eq_some_iff.mp hnarrowed
        dsimp only at hroot
        split at hroot
        · cases hroot
        · cases hroot
          exact (List.mem_filter.mp hmem).1
      · cases h
    · exact resolve_node h
  · exact resolve_node h

theorem resolveRef_node {name : String} {r : Reference} {cands : Option (List NodeId)}
    {candidates : BTreeMap String (List NodeId)} {cross : Bool} {qualifier : Option String}
    (h : (resolveRef name r cands candidates cross ctx qualifier).target = .node t) :
    importedDef ctx r.source name = some t ∨
      (t ∈ cands.getD [] ∧ (cross = true ∨ sameProject ctx r.source t = true) ∧
        ReceiverOk ctx r.source (receiver candidates ctx r) t) := by
  unfold resolveRef at h
  dsimp only at h
  refine @resolveP0c_node _ _ _ _ _ _ _ qualifier ?_
  unfold markOpaque at h
  split at h
  · cases h
  · rename_i id hid; cases h; exact hid

/-- **What a linked edge binds to.** The import binding of a name it is looked up
under, or a candidate of such a name that lies in the source's project (or the
name is workspace-qualified) and meets the receiver rules. -/
theorem linkRef_node {candidates : BTreeMap String (List NodeId)} {name : String} {r : Reference}
    (h : (linkRef candidates ctx name r).target = .node t) :
    ∃ nm ∈ lookedUp candidates ctx.workspace name,
      importedDef ctx r.source nm = some t ∨
        (t ∈ BTreeMap.list candidates nm ∧
          ((stripWorkspaceQualifier name ctx.workspace).isSome = true ∨
            sameProject ctx r.source t = true) ∧
          ReceiverOk ctx r.source (receiver candidates ctx r) t) := by
  -- an edge resolved under the name itself, within the project
  have hself : ∀ {q : Option String},
      (resolveRef name r candidates[name]? candidates false ctx q).target = .node t →
      importedDef ctx r.source name = some t ∨
        (t ∈ BTreeMap.list candidates name ∧
          ((stripWorkspaceQualifier name ctx.workspace).isSome = true ∨
            sameProject ctx r.source t = true) ∧
          ReceiverOk ctx r.source (receiver candidates ctx r) t) := by
    intro q hq
    refine (resolveRef_node hq).imp id fun ⟨hmem, hproj, hrecv⟩ => ⟨hmem, Or.inr ?_, hrecv⟩
    exact hproj.resolve_left (by decide)
  unfold linkRef at h
  dsimp only at h
  split at h
  · exact ⟨name, self_mem_lookedUp .., hself h⟩
  · exact ⟨name, self_mem_lookedUp .., hself h⟩
  · rename_i stripped crateName hids hq
    have hnames : lookedUp candidates ctx.workspace name
        = name :: (if Text.contains stripped "::" then [stripped, lastSegment stripped]
          else [stripped]) := by
      simp only [lookedUp, hids, Option.isSome_none, Bool.false_eq_true, if_false, fallbackNames, hq]
    have hcross : ∀ {nm : String} {q : Option String},
        (resolveRef nm r candidates[nm]? candidates true ctx q).target = .node t →
        importedDef ctx r.source nm = some t ∨
          (t ∈ BTreeMap.list candidates nm ∧
            ((stripWorkspaceQualifier name ctx.workspace).isSome = true ∨
              sameProject ctx r.source t = true) ∧
            ReceiverOk ctx r.source (receiver candidates ctx r) t) := fun hnm =>
      (resolveRef_node hnm).imp id fun ⟨hmem, _, hrecv⟩ => ⟨hmem, Or.inl (by rw [hq]; rfl), hrecv⟩
    rw [hnames]
    split at h
    · refine ⟨stripped, ?_, hcross h⟩
      split <;> simp
    · split at h
      · rename_i hmulti
        split at h
        · exact ⟨lastSegment stripped, by simp [hmulti], hcross h⟩
        · exact ⟨name, by simp, hself h⟩
      · exact ⟨name, by simp, hself h⟩

end Rules

/-! ### The rules, read forwards -/

/-- Two contexts know the same about a node. -/
structure SameAttrs (ctx ctx' : LinkCtx) (id : NodeId) : Prop where
  fileOf : lookup ctx.fileOf id = lookup ctx'.fileOf id
  implOf : lookup ctx.implOf id = lookup ctx'.implOf id
  returnsOf : lookup ctx.returnsOf id = lookup ctx'.returnsOf id
  projectOf : lookup ctx.projectOf id = lookup ctx'.projectOf id

section Congr

variable {ctx ctx' : LinkCtx} {source : NodeId}

theorem ownerIs_congr {id : NodeId} (h : SameAttrs ctx ctx' id) (want : String) :
    ownerIs ctx want id = ownerIs ctx' want id := by
  rw [ownerIs, ownerIs, h.implOf]

variable (hsource : SameAttrs ctx ctx' source)
include hsource

theorem sameProject_congr {id : NodeId} (h : SameAttrs ctx ctx' id) :
    sameProject ctx source id = sameProject ctx' source id := by
  rw [sameProject, sameProject, h.projectOf, hsource.projectOf]

theorem sameFile_congr {id : NodeId} (h : SameAttrs ctx ctx' id) :
    sameFile ctx source id = sameFile ctx' source id := by
  rw [sameFile, sameFile, h.fileOf, hsource.fileOf]

/-- The pool of the project scope. -/
theorem filter_sameProject_congr {ids : List NodeId} (h : ∀ id ∈ ids, SameAttrs ctx ctx' id) :
    ids.filter (sameProject ctx source) = ids.filter (sameProject ctx' source) :=
  List.filter_congr fun id hid => sameProject_congr hsource (h id hid)

theorem returnTypeOf_congr {callee : String} {owner : Option String}
    {m m' : BTreeMap String (List NodeId)} (hcallee : m[callee]? = m'[callee]?)
    (h : ∀ id ∈ BTreeMap.list m callee, SameAttrs ctx ctx' id) :
    returnTypeOf callee owner source m ctx = returnTypeOf callee owner source m' ctx' := by
  unfold returnTypeOf
  rw [← hcallee]
  cases hids : m[callee]? with
  | none => rfl
  | some ids =>
      have h : ∀ id ∈ ids, SameAttrs ctx ctx' id := by rwa [BTreeMap.list, hids] at h
      have hpool := filter_sameProject_congr hsource h
      have hmem : ∀ id ∈ ids.filter (sameProject ctx' source), SameAttrs ctx ctx' id :=
        fun id hid => h id (List.mem_filter.mp hid).1
      simp only [Option.bind_some, hpool]
      cases owner with
      | none =>
          simp only
          rw [List.filterMap_congr fun id hid => (hmem id hid).returnsOf]
      | some o =>
          simp only
          rw [List.filter_congr fun id hid => ownerIs_congr (hmem id hid) (normType o),
            List.filterMap_congr fun id hid => (hmem id (List.mem_filter.mp hid).1).returnsOf]

theorem resolve_congr {name : String} {cands : Option (List NodeId)} {typeHint : Option String}
    {recvOpaque cross : Bool}
    (himport : importedDef ctx source name = importedDef ctx' source name)
    (h : ∀ id ∈ cands.getD [], SameAttrs ctx ctx' id) :
    resolve name source cands typeHint recvOpaque cross ctx
      = resolve name source cands typeHint recvOpaque cross ctx' := by
  unfold resolve
  rw [himport]
  split
  · rfl
  · dsimp only
    rw [filter_sameProject_congr hsource h]
    have hmem : ∀ id ∈ (if cross = true then cands.getD []
        else (cands.getD []).filter (sameProject ctx' source)), SameAttrs ctx ctx' id := by
      intro id hid
      split at hid
      · exact h id hid
      · exact h id (List.mem_filter.mp hid).1
    generalize (if cross = true then cands.getD []
      else (cands.getD []).filter (sameProject ctx' source)) = ids at hmem
    split
    · rfl
    · cases typeHint with
      | some ty =>
          simp only [resolveTyped]
          rw [List.filter_congr fun id hid => ownerIs_congr (hmem id hid) (normType ty)]
      | none =>
          simp only [resolveNamed]
          rw [List.filter_congr fun id hid => sameFile_congr hsource (hmem id hid)]

theorem resolveP0c_congr {name : String} {cands : Option (List NodeId)} {typeHint : Option String}
    {recvOpaque cross : Bool} {qualifier : Option String} (hws : ctx.workspace = ctx'.workspace)
    (himport : importedDef ctx source name = importedDef ctx' source name)
    (h : ∀ id ∈ cands.getD [], SameAttrs ctx ctx' id) :
    resolveP0c name source cands typeHint recvOpaque cross ctx qualifier
      = resolveP0c name source cands typeHint recvOpaque cross ctx' qualifier := by
  have hresolve : resolve name source cands typeHint recvOpaque cross ctx
      = resolve name source cands typeHint recvOpaque cross ctx' := resolve_congr hsource himport h
  unfold resolveP0c
  split
  · rename_i crateName ids
    have hcrate : disambiguateByCrate ids crateName ctx
        = disambiguateByCrate ids crateName ctx' := by
      unfold disambiguateByCrate
      rw [hws]
      congr 1
      funext root
      dsimp only
      rw [List.filter_congr fun id hid => by rw [(h id hid).projectOf]]
    rw [hcrate]
    split
    · split
      · rename_i narrowed hnarrowed
        refine resolve_congr hsource himport fun id hid => h id ?_
        obtain ⟨root, -, hroot⟩ := Option.bind_eq_some_iff.mp hnarrowed
        dsimp only at hroot
        split at hroot
        · cases hroot
        · cases hroot
          exact (List.mem_filter.mp hid).1
      · rfl
    · exact hresolve
  · exact hresolve

end Congr

/-- **What a linked edge depends on.** The candidates and import bindings of the
names it is looked up under, the candidates of its deferred callee, and the
attributes of its source and of those candidates. -/
theorem linkRef_congr {m m' : BTreeMap String (List NodeId)} {ctx ctx' : LinkCtx} {name : String}
    {r : Reference} (hws : ctx.workspace = ctx'.workspace)
    (hcands : ∀ nm ∈ lookedUp m ctx.workspace name, m[nm]? = m'[nm]?)
    (himport : ∀ nm ∈ lookedUp m ctx.workspace name,
      importedDef ctx r.source nm = importedDef ctx' r.source nm)
    (hcallee : ∀ callee, r.recvReturns = some callee → m[callee]? = m'[callee]?)
    (hsource : SameAttrs ctx ctx' r.source)
    (hids : ∀ nm ∈ lookedUp m ctx.workspace name, ∀ id ∈ BTreeMap.list m nm, SameAttrs ctx ctx' id)
    (hreturns : ∀ callee, r.recvReturns = some callee →
      ∀ id ∈ BTreeMap.list m callee, SameAttrs ctx ctx' id) :
    linkRef m ctx name r = linkRef m' ctx' name r := by
  have hrecv : receiver m ctx r = receiver m' ctx' r := by
    unfold receiver
    cases hr : r.recvReturns with
    | none => rfl
    | some callee =>
        simp only
        rw [returnTypeOf_congr hsource (hcallee callee hr) (hreturns callee hr)]
  have href : ∀ nm ∈ lookedUp m ctx.workspace name, ∀ (cross : Bool) (q : Option String),
      resolveRef nm r m[nm]? m cross ctx q = resolveRef nm r m'[nm]? m' cross ctx' q := by
    intro nm hnm cross q
    unfold resolveRef
    rw [← hcands nm hnm, hrecv]
    dsimp only
    rw [resolveP0c_congr hsource hws (himport nm hnm) (hids nm hnm)]
  have hself := href name (self_mem_lookedUp ..)
  unfold linkRef
  dsimp only
  rw [← hws, ← hcands name (self_mem_lookedUp ..)]
  have hself' : ∀ (cross : Bool) (q : Option String),
      resolveRef name r m[name]? m cross ctx q = resolveRef name r m[name]? m' cross ctx' q :=
    fun cross q => (hself cross q).trans (by rw [hcands name (self_mem_lookedUp ..)])
  split
  · exact hself' _ _
  · exact hself' _ _
  · rename_i stripped crateName hname hq
    have hnames : lookedUp m ctx.workspace name
        = name :: (if Text.contains stripped "::" then [stripped, lastSegment stripped]
          else [stripped]) := by
      simp only [lookedUp, hname, Option.isSome_none, Bool.false_eq_true, if_false, fallbackNames, hq]
    have hstripped := href stripped (by rw [hnames]; split <;> simp) true (some crateName)
    rw [hself' false none, hstripped]
    split
    · rfl
    · split
      · rename_i hmulti
        rw [href (lastSegment stripped) (by rw [hnames]; simp [hmulti]) true none]
      · rfl

/-! ### Where an import leads -/

namespace ExportGraph

/-- Every terminal entry of a table is one of the local definitions. -/
def TerminalsFrom (localDef : LocalDef) (table : BTreeMap String Entry) : Prop :=
  ∀ (nm : String) (d : NodeId), table[nm]? = some (Entry.terminal d) → ∃ k : ModuleId ×ₗ String, localDef[k]? = some d

theorem tableStep_terminals {localDef : LocalDef} {module : ModuleId}
    {table : BTreeMap String Entry} (h : TerminalsFrom localDef table) (e : Export) :
    TerminalsFrom localDef (tableStep localDef module table e) := by
  intro nm d hnm
  cases e with
  | «local» name =>
      simp only [tableStep] at hnm
      split at hnm
      · rename_i d' hdef
        rw [BTreeMap.get_insert] at hnm
        split at hnm
        · cases hnm; exact ⟨_, hdef⟩
        · exact h nm d hnm
      · exact h nm d hnm
  | reExport name specifier imported =>
      simp only [tableStep, BTreeMap.get_insert] at hnm
      split at hnm
      · cases hnm
      · exact h nm d hnm
  | star specifier => exact h nm d hnm

theorem foldl_tableStep_terminals {localDef : LocalDef} {module : ModuleId} (exports : List Export)
    {table : BTreeMap String Entry} (h : TerminalsFrom localDef table) :
    TerminalsFrom localDef (exports.foldl (tableStep localDef module) table) := by
  induction exports generalizing table with
  | nil => exact h
  | cons e exports ih => exact ih (tableStep_terminals h e)

/-- The tables of a built graph only end in local definitions. -/
theorem build_terminals (exportsByFile : BTreeMap String (List Export)) (localDef : LocalDef)
    (resolver : ModuleResolver) {m : ModuleId} {table : BTreeMap String Entry}
    (h : (build exportsByFile localDef resolver).tables[m]? = some table) :
    TerminalsFrom localDef table := by
  revert m table
  unfold build
  dsimp only
  refine List.foldlRecOn exportsByFile.toList _
    (motive := fun tables : BTreeMap ModuleId (BTreeMap String Entry) =>
      ∀ {m table}, tables[m]? = some table → TerminalsFrom localDef table) ?_ ?_
  · intro m table h; simp at h
  · intro tables ih fe _ m table h
    rw [BTreeMap.get_insert] at h
    split at h
    · cases h
      refine foldl_tableStep_terminals fe.2 ?_
      cases hprev : tables[moduleOf fe.1]? with
      | none => intro nm d hnm; simp at hnm
      | some prev => exact ih hprev
    · exact ih h

/-- What every step of a fold keeps to, its result keeps to. -/
theorem foldl_answer {α : Type} {P : NodeId → Prop}
    {step : Option NodeId × List (ModuleId × String) → α → Option NodeId × List (ModuleId × String)}
    (hstep : ∀ acc a, (∀ d, acc.1 = some d → P d) → ∀ d, (step acc a).1 = some d → P d)
    (l : List α) {acc : Option NodeId × List (ModuleId × String)}
    (hacc : ∀ d, acc.1 = some d → P d) : ∀ d, (l.foldl step acc).1 = some d → P d := by
  induction l generalizing acc with
  | nil => exact hacc
  | cons a l ih => exact ih (hstep acc a hacc)

/-- The walk only ever answers with a terminal entry. -/
theorem walk_terminal (g : ExportGraph) {P : NodeId → Prop}
    (htables : ∀ (m : ModuleId) (table : BTreeMap String Entry) (nm : String) (d : NodeId),
      g.tables[m]? = some table → table[nm]? = some (Entry.terminal d) → P d)
    (fuel : ℕ) (module : ModuleId) (name : String) (visited : List (ModuleId × String))
    (d : NodeId) (h : (g.walk fuel module name visited).1 = some d) : P d := by
  induction fuel generalizing module name visited d with
  | zero => cases h
  | succ fuel ih =>
      unfold walk at h
      split at h
      · cases h
      · dsimp only at h
        split at h
        · rename_i d' hentry
          obtain ⟨table, htable, hname⟩ := Option.bind_eq_some_iff.mp hentry
          cases h
          exact htables module table name d htable hname
        · split at h
          · cases h
          · exact ih _ _ _ _ h
        · -- `export *`: the fold keeps the first answer it finds
          refine foldl_answer (fun acc spec hacc d hd => ?_) _ (fun d hd => ?_) d h
          · split at hd
            · exact hacc d hd
            · split at hd
              · exact hacc d hd
              · exact ih _ _ _ _ hd
          · cases hd

/-- An import resolves to a local definition of some module. -/
theorem resolveImport_localDef {exportsByFile : BTreeMap String (List Export)}
    {localDef : LocalDef} {resolver : ModuleResolver} {entry : ModuleId} {imported : String}
    {d : NodeId} (h : (build exportsByFile localDef resolver).resolveImport entry imported = some d) :
    ∃ k : ModuleId ×ₗ String, localDef[k]? = some d := by
  unfold resolveImport at h
  rcases Option.or_eq_some_iff.mp h with hwalk | ⟨-, hlocal⟩
  · exact walk_terminal _ (fun m table nm d hm hnm => build_terminals _ _ _ hm nm d hnm) _ _ _ _ _ hwalk
  · exact ⟨_, hlocal⟩

end ExportGraph

/-- A local definition is a linkable node. -/
theorem localDef_linkable {ns : List Node} {k : ModuleId ×ₗ String} {d : NodeId}
    (h : (buildLocalDef ns)[k]? = some d) : ∃ n ∈ ns, isLinkable n = true ∧ n.id = d := by
  rw [Ledger.get_buildLocalDef] at h
  obtain ⟨n, hn, hdef⟩ := List.mem_filterMap.mp (List.mem_of_head? h)
  obtain ⟨f, -, hid⟩ := Option.bind_eq_some_iff.mp hdef
  split at hid
  · exact ⟨n, (List.mem_filter.mp hn).1, (List.mem_filter.mp hn).2, Option.some.inj hid⟩
  · cases hid

/-- An import-scope binding is a linkable node. -/
theorem importScope_linkable {refsByName : BTreeMap String (List Reference)} {ns : List Node}
    {exportsByFile : BTreeMap String (List Export)} {fileOf : BTreeMap NodeId (Option String)}
    {resolver : ModuleResolver} {k : String ×ₗ String} {d : NodeId}
    (h : (buildImportScope refsByName ns exportsByFile fileOf resolver)[k]? = some d) :
    ∃ n ∈ ns, isLinkable n = true ∧ n.id = d := by
  unfold buildImportScope at h
  dsimp only at h
  rw [BTreeMap.get_insertAll, Std.ExtTreeMap.getElem?_empty, Option.or_none] at h
  obtain ⟨p, hp, rfl⟩ := Option.map_eq_some_iff.mp h
  obtain ⟨hp, -⟩ := List.mem_filter.mp (List.mem_of_getLast? hp)
  obtain ⟨nr, -, hbinding⟩ := List.mem_filterMap.mp hp
  unfold importBinding at hbinding
  split at hbinding
  · cases hbinding
  · obtain ⟨spec, -, hbinding⟩ := Option.bind_eq_some_iff.mp hbinding
    obtain ⟨importing, -, hbinding⟩ := Option.bind_eq_some_iff.mp hbinding
    obtain ⟨entry, -, hbinding⟩ := Option.bind_eq_some_iff.mp hbinding
    obtain ⟨d, hd, rfl⟩ := Option.map_eq_some_iff.mp hbinding
    obtain ⟨k, hk⟩ := ExportGraph.resolveImport_localDef hd
    exact localDef_linkable hk

/-- A candidate of a name is a linkable node with that label. -/
theorem mem_candidates {ns : List Node} {nm : String} {t : NodeId} :
    t ∈ BTreeMap.list (buildCandidates ns) nm ↔
      ∃ n ∈ ns, isLinkable n = true ∧ n.label = nm ∧ n.id = t := by
  rw [buildCandidates, ← BTreeMap.index, BTreeMap.list_index, Canon.mem_canon,
    BTreeMap.mem_valuesOf]
  simp only [List.mem_map, List.mem_filter, Prod.mk.injEq, and_assoc]

namespace Ledger

variable {C : Type}

/-- **Linked targets exist.** A linked edge is bound to a linkable node of the ledger. -/
theorem link_target {L : Ledger} {ws : Workspace} {source : Source C} {nr : String × Reference}
    {t : NodeId} (h : (link L ws source nr).target = .node t) :
    ∃ n ∈ nodes L, isLinkable n = true ∧ n.id = t := by
  obtain ⟨nm, -, himport | ⟨hcand, -⟩⟩ := linkRef_node h
  · obtain ⟨f, -, hscope⟩ := Option.bind_eq_some_iff.mp himport
    exact importScope_linkable hscope
  · obtain ⟨n, hn, hlink, -, hid⟩ := mem_candidates.mp hcand
    exact ⟨n, hn, hlink, hid⟩

end Ledger

end Filigrio
