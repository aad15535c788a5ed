import Filigrio.Ledger.Sample

/-!
# Filigrio.Ledger.Qualified

Names that start with a workspace crate. The linker tries such a name as it stands, then
without its crate, then its last segment. Only several candidates of the stripped (or of
the full) name are narrowed to the crate; `Escapes` lists the routes that are not, and
`resolveAll_inside_iff` says that these are all.
-/

namespace Filigrio

variable {candidates : BTreeMap String (List NodeId)} {ctx : LinkCtx} {name rest c : String}
  {r : Reference} {source t : NodeId} {recv : Option String × Bool} {cross : Bool}
  {cands : Option (List NodeId)}

/-- Is `id` in a project that the crate name `c` denotes? Roots are compared as the
linker does, up to the separator. -/
def InCrate (ctx : LinkCtx) (c : String) (id : NodeId) : Prop :=
  ∃ p ∈ ctx.workspace.values,
    (p.name.any fun n => decide (normalizeCrate c = normalizeCrate n)) = true ∧
    ((lookup ctx.projectOf id).any fun root => decide (slashed root = slashed p.root)) = true

/-- The candidates that the project and the receiver allow, in order: those of the
receiver's type, or else those of the source's file, or else all of them unless the
receiver is opaque. -/
def eligible (ctx : LinkCtx) (source : NodeId) (recv : Option String × Bool) (cross : Bool)
    (cands : Option (List NodeId)) : List NodeId :=
  let ids := if cross then cands.getD [] else (cands.getD []).filter (sameProject ctx source)
  match recv.1 with
  | some ty => ids.filter (ownerIs ctx (normType ty))
  | none =>
    match ids.filter (sameFile ctx source) with
    | [] => if recv.2 then [] else ids
    | first :: others => first :: others

theorem resolveTyped_iff {ids : List NodeId} {ty : String} :
    (resolveTyped name ids ty ctx).1 = .node t ↔
      (ids.filter (ownerIs ctx (normType ty))).head? = some t := by
  unfold resolveTyped
  rcases ids.filter (ownerIs ctx (normType ty)) with - | ⟨first, - | ⟨second, others⟩⟩ <;>
    simp [unresolved]

theorem resolveNamed_iff {ids : List NodeId} {recvOpaque : Bool} :
    (resolveNamed name source ids recvOpaque ctx).1 = .node t ↔
      (match ids.filter (sameFile ctx source) with
        | [] => if recvOpaque then [] else ids
        | first :: others => first :: others).head? = some t := by
  unfold resolveNamed
  rcases ids.filter (sameFile ctx source) with - | ⟨first, - | ⟨second, others⟩⟩
  · cases recvOpaque with
    | true => simp [unresolved]
    | false => rcases ids with - | ⟨first, - | ⟨second, others⟩⟩ <;> simp [unresolved]
  · simp
  · simp

/-- A reference is bound to what the file imports under the name, or else to its first
eligible candidate. -/
theorem resolve_iff :
    (resolve name source cands recv.1 recv.2 cross ctx).1 = .node t ↔
      importedDef ctx source name = some t ∨ importedDef ctx source name = none ∧
        (eligible ctx source recv cross cands).head? = some t := by
  unfold resolve
  cases himported : importedDef ctx source name with
  | some d => simp
  | none =>
      unfold eligible
      dsimp only
      generalize (if cross = true then cands.getD []
        else (cands.getD []).filter (sameProject ctx source)) = ids
      by_cases hids : ids = []
      · rw [if_pos hids, hids]
        cases recv.1 <;> simp [unresolved]
      · rw [if_neg hids]
        cases recv.1 with
        | some ty => simp [resolveTyped_iff]
        | none => simp [resolveNamed_iff]

/-- Several candidates are narrowed to the crate. -/
theorem disambiguate_inCrate {ids narrowed : List NodeId}
    (h : disambiguateByCrate ids c ctx = some narrowed) : ∀ id ∈ narrowed, InCrate ctx c id := by
  obtain ⟨root, hroot, hnarrowed⟩ := Option.bind_eq_some_iff.mp h
  obtain ⟨p, hp, rfl⟩ := Option.map_eq_some_iff.mp hroot
  dsimp only at hnarrowed
  split at hnarrowed
  · cases hnarrowed
  · cases hnarrowed
    intro id hid
    have hname : (p.name.any fun n => decide (normalizeCrate c = normalizeCrate n)) = true :=
      List.find?_some (p := fun p : Project =>
        p.name.any fun n => decide (normalizeCrate c = normalizeCrate n)) hp
    exact ⟨p, List.mem_of_find?_eq_some hp, hname, (List.mem_filter.mp hid).2⟩

theorem mem_of_eligible {ids : List NodeId} {id : NodeId}
    (h : id ∈ eligible ctx source recv cross (some ids)) : id ∈ ids := by
  have hids : ∀ j, j ∈ (if cross = true then ids else ids.filter (sameProject ctx source)) →
      j ∈ ids := by
    intro j hj
    cases cross with
    | true => exact hj
    | false => exact (List.mem_filter.mp hj).1
  unfold eligible at h
  dsimp only [Option.getD_some] at h
  cases hrecv : recv.1 with
  | some ty =>
      rw [hrecv] at h
      exact hids id (List.mem_filter.mp h).1
  | none =>
      rw [hrecv] at h
      dsimp only at h
      split at h
      · split at h
        · cases h
        · exact hids id h
      · rename_i first others hhere
        exact hids id (List.mem_filter.mp (hhere ▸ h)).1

/-- The candidates a qualified name is tried with: several are narrowed to the crate. -/
def narrowed (ctx : LinkCtx) (c : String) : Option (List NodeId) → Option (List NodeId)
  | some ids => if 1 < ids.length then disambiguateByCrate ids c ctx else some ids
  | none => none

/-- Several candidates, none of them in the crate: the reference stays unresolved. -/
def Declined (ctx : LinkCtx) (c : String) (cands : Option (List NodeId)) : Prop :=
  cands.isSome = true ∧ narrowed ctx c cands = none

theorem eligible_none : eligible ctx source recv cross none = [] := by
  unfold eligible
  cases cross <;> rcases recv with ⟨_ | _, _ | _⟩ <;> rfl

theorem resolveP0c_iff :
    (resolveP0c name source cands recv.1 recv.2 cross ctx (some c)).1 = .node t ↔
      ¬ Declined ctx c cands ∧ (importedDef ctx source name = some t ∨
        importedDef ctx source name = none ∧
          (eligible ctx source recv cross (narrowed ctx c cands)).head? = some t) := by
  cases cands with
  | none =>
      show (resolve name source none recv.1 recv.2 cross ctx).1 = .node t ↔ _
      rw [resolve_iff]
      simp [Declined, narrowed]
  | some ids =>
      unfold resolveP0c Declined narrowed
      dsimp only
      split
      · cases hcrate : disambiguateByCrate ids c ctx with
        | none => simp [unresolved]
        | some ids' =>
            dsimp only
            rw [resolve_iff]
            simp
      · rw [resolve_iff]
        simp

theorem resolveRef_iff {qualifier : Option String} :
    (resolveRef name r cands candidates cross ctx qualifier).target = .node t ↔
      (resolveP0c name r.source cands (receiver candidates ctx r).1 (receiver candidates ctx r).2
        cross ctx qualifier).1 = .node t := by
  unfold resolveRef markOpaque
  dsimp only
  split
  · rename_i tref hsymbol
    rw [hsymbol]
    simp
  · rename_i id hnode
    rw [hnode]

/-! ### The routes that leave the crate -/

/-- Nothing is bound under the name without its crate. -/
def Unbound (candidates : BTreeMap String (List NodeId)) (ctx : LinkCtx) (rest c : String)
    (r : Reference) : Prop :=
  Declined ctx c candidates[rest]? ∨ importedDef ctx r.source rest = none ∧
    eligible ctx r.source (receiver candidates ctx r) true (narrowed ctx c candidates[rest]?) = []

/-- The ways a reference `c::rest` is bound outside the crate `c`. -/
inductive Escapes (candidates : BTreeMap String (List NodeId)) (ctx : LinkCtx)
    (name rest c : String) (r : Reference) : Prop
  /-- The full name is the label of one definition only. -/
  | literal {id : NodeId} : candidates[name]? = some [id] →
      id ∈ eligible ctx r.source (receiver candidates ctx r) false (some [id]) →
      ¬ InCrate ctx c id → Escapes candidates ctx name rest c r
  /-- The file imports the stripped name from elsewhere. -/
  | imported {id : NodeId} : candidates[name]? = none → ¬ Declined ctx c candidates[rest]? →
      importedDef ctx r.source rest = some id →
      ¬ InCrate ctx c id → Escapes candidates ctx name rest c r
  /-- The stripped name has one definition only. -/
  | single {id : NodeId} : candidates[name]? = none → importedDef ctx r.source rest = none →
      candidates[rest]? = some [id] →
      id ∈ eligible ctx r.source (receiver candidates ctx r) true (some [id]) →
      ¬ InCrate ctx c id → Escapes candidates ctx name rest c r
  /-- The file imports the last segment from elsewhere. -/
  | lastImported {id : NodeId} : candidates[name]? = none → Unbound candidates ctx rest c r →
      Text.contains rest "::" = true → importedDef ctx r.source (lastSegment rest) = some id →
      ¬ InCrate ctx c id → Escapes candidates ctx name rest c r
  /-- The first eligible definition of the last segment is elsewhere. -/
  | last {id : NodeId} : candidates[name]? = none → Unbound candidates ctx rest c r →
      Text.contains rest "::" = true → importedDef ctx r.source (lastSegment rest) = none →
      (eligible ctx r.source (receiver candidates ctx r) true
        candidates[lastSegment rest]?).head? = some id →
      ¬ InCrate ctx c id → Escapes candidates ctx name rest c r

/-- What the narrowed candidates bind outside the crate is a single candidate. -/
theorem single_of_narrowed {ids : Option (List NodeId)}
    (h : (eligible ctx source recv cross (narrowed ctx c ids)).head? = some t)
    (hout : ¬ InCrate ctx c t) :
    ids = some [t] ∧ t ∈ eligible ctx source recv cross (some [t]) := by
  have hmem := List.mem_of_mem_head? h
  cases ids with
  | none =>
      rw [narrowed, eligible_none] at hmem
      cases hmem
  | some ids =>
      by_cases hseveral : 1 < ids.length
      · rw [narrowed, if_pos hseveral] at hmem
        cases hcrate : disambiguateByCrate ids c ctx with
        | none =>
            rw [hcrate, eligible_none] at hmem
            cases hmem
        | some ids' =>
            rw [hcrate] at hmem
            exact absurd (disambiguate_inCrate hcrate t (mem_of_eligible hmem)) hout
      · rw [narrowed, if_neg hseveral] at hmem
        have hids : ids = [t] := by
          match ids, hseveral, mem_of_eligible hmem with
          | [id], _, hin => rw [List.mem_singleton.mp hin]
          | _ :: _ :: _, hseveral, _ => simp at hseveral
        exact ⟨congrArg some hids, hids ▸ hmem⟩

theorem narrowed_single : narrowed ctx c (some [t]) = some [t] := rfl

/-- The one candidate, when it is eligible, is the first. -/
theorem head_of_mem_single (h : t ∈ eligible ctx source recv cross (some [t])) :
    (eligible ctx source recv cross (some [t])).head? = some t := by
  cases hlist : eligible ctx source recv cross (some [t]) with
  | nil =>
      rw [hlist] at h
      cases h
  | cons first others =>
      have hfirst : first ∈ eligible ctx source recv cross (some [t]) :=
        hlist ▸ List.mem_cons_self
      rw [List.mem_singleton.mp (mem_of_eligible hfirst)]
      rfl

theorem isNode_iff {target : EdgeTarget} : target.isNode = true ↔ ∃ id, target = .node id := by
  cases target <;> simp [EdgeTarget.isNode]

section
variable {n : String}

theorem resolveRef_qualified_iff :
    (resolveRef n r cands candidates cross ctx (some c)).target = .node t ↔
      ¬ Declined ctx c cands ∧ (importedDef ctx r.source n = some t ∨
        importedDef ctx r.source n = none ∧ (eligible ctx r.source (receiver candidates ctx r)
          cross (narrowed ctx c cands)).head? = some t) :=
  resolveRef_iff.trans resolveP0c_iff

theorem resolveRef_plain_iff :
    (resolveRef n r cands candidates cross ctx none).target = .node t ↔
      importedDef ctx r.source n = some t ∨ importedDef ctx r.source n = none ∧
        (eligible ctx r.source (receiver candidates ctx r) cross cands).head? = some t :=
  resolveRef_iff.trans resolve_iff

/-- A name that is neither imported nor defined is not bound. -/
theorem resolveRef_unknown (candidates : BTreeMap String (List NodeId)) (cross : Bool)
    (h : importedDef ctx r.source n = none) :
    (resolveRef n r none candidates cross ctx none).target.isNode = false := by
  rw [Bool.eq_false_iff, ne_eq, isNode_iff]
  intro ⟨id, hid⟩
  rcases resolveRef_plain_iff.mp hid with hbound | ⟨-, hhead⟩
  · rw [h] at hbound
    cases hbound
  · rw [eligible_none] at hhead
    cases hhead

end

theorem unbound_iff :
    Unbound candidates ctx rest c r ↔
      (resolveRef rest r candidates[rest]? candidates true ctx (some c)).target.isNode = false := by
  rw [Bool.eq_false_iff, ne_eq, isNode_iff]
  constructor
  · intro h ⟨id, hid⟩
    obtain ⟨hdeclined, hbound⟩ := resolveRef_qualified_iff.mp hid
    rcases h with h | ⟨himported, hnil⟩
    · exact hdeclined h
    · rw [himported, hnil] at hbound
      simp at hbound
  · intro h
    by_cases hdeclined : Declined ctx c candidates[rest]?
    · exact .inl hdeclined
    · cases himported : importedDef ctx r.source rest with
      | some id =>
          exact absurd ⟨id, resolveRef_qualified_iff.mpr ⟨hdeclined, .inl himported⟩⟩ h
      | none =>
          refine .inr ⟨himported, List.head?_eq_none_iff.mp ?_⟩
          rw [Option.eq_none_iff_forall_ne_some]
          intro id hhead
          exact h ⟨id, resolveRef_qualified_iff.mpr ⟨hdeclined, .inr ⟨himported, hhead⟩⟩⟩

/-- The full name is a label: its candidates decide. -/
theorem linkRef_literal (hq : stripWorkspaceQualifier name ctx.workspace = some (rest, c))
    {ids : List NodeId} (hcands : candidates[name]? = some ids) :
    linkRef candidates ctx name r = resolveRef name r (some ids) candidates false ctx (some c) := by
  rw [linkRef, hcands, hq]
  rfl

/-- The full name is no label, and the stripped name is bound. -/
theorem linkRef_stripped (hq : stripWorkspaceQualifier name ctx.workspace = some (rest, c))
    (hcands : candidates[name]? = none) (hbound : ¬ Unbound candidates ctx rest c r) :
    linkRef candidates ctx name r
      = resolveRef rest r candidates[rest]? candidates true ctx (some c) := by
  rw [unbound_iff, Bool.not_eq_false] at hbound
  rw [linkRef, hcands, hq]
  dsimp only
  rw [if_pos hbound]

/-- Neither the full name is a label nor the stripped name is bound: only the last segment
of a longer name can still be. -/
theorem linkRef_unbound (hq : stripWorkspaceQualifier name ctx.workspace = some (rest, c))
    (himported : importedDef ctx r.source name = none) (hcands : candidates[name]? = none)
    (hunbound : Unbound candidates ctx rest c r) :
    (linkRef candidates ctx name r).target = .node t ↔
      Text.contains rest "::" = true ∧
        (resolveRef (lastSegment rest) r candidates[lastSegment rest]? candidates true ctx
          none).target = .node t := by
  have hplain : ∀ id, (resolveRef name r none candidates false ctx none).target ≠ .node id := by
    intro id hid
    have h := resolveRef_unknown candidates false himported
    rw [hid] at h
    cases h
  rw [unbound_iff] at hunbound
  rw [linkRef, hcands, hq]
  dsimp only
  rw [if_neg (by rw [hunbound]; exact Bool.false_ne_true)]
  by_cases hlong : Text.contains rest "::" = true
  · rw [if_pos hlong]
    split
    · simp [hlong]
    · rename_i hlast
      rw [isNode_iff] at hlast
      constructor
      · intro h
        exact absurd h (hplain t)
      · intro h
        exact absurd ⟨t, h.2⟩ hlast
  · rw [if_neg hlong]
    constructor
    · intro h
      exact absurd h (hplain t)
    · intro h
      exact absurd h.1 hlong

/-- **A qualified reference leaves its crate only on these routes.** -/
theorem linkRef_escapes_iff (hq : stripWorkspaceQualifier name ctx.workspace = some (rest, c))
    (himported : importedDef ctx r.source name = none) :
    (∃ id, (linkRef candidates ctx name r).target = .node id ∧ ¬ InCrate ctx c id) ↔
      Escapes candidates ctx name rest c r := by
  constructor
  · intro ⟨id, hid, hout⟩
    cases hcands : candidates[name]? with
    | some ids =>
        rw [linkRef_literal hq hcands] at hid
        obtain ⟨-, hscope | ⟨-, hhead⟩⟩ := resolveRef_qualified_iff.mp hid
        · cases himported.symm.trans hscope
        · obtain ⟨hids, hmem⟩ := single_of_narrowed hhead hout
          exact .literal (hcands.trans hids) hmem hout
    | none =>
        by_cases hunbound : Unbound candidates ctx rest c r
        · obtain ⟨hlong, hlast⟩ := (linkRef_unbound hq himported hcands hunbound).mp hid
          rcases resolveRef_plain_iff.mp hlast with hscope | ⟨hscope, hhead⟩
          · exact .lastImported hcands hunbound hlong hscope hout
          · exact .last hcands hunbound hlong hscope hhead hout
        · rw [linkRef_stripped hq hcands hunbound] at hid
          obtain ⟨hdeclined, hscope | ⟨hscope, hhead⟩⟩ := resolveRef_qualified_iff.mp hid
          · exact .imported hcands hdeclined hscope hout
          · obtain ⟨hids, hmem⟩ := single_of_narrowed hhead hout
            exact .single hcands hscope hids hmem hout
  · intro h
    cases h with
    | @literal id hcands hmem hout =>
        refine ⟨id, ?_, hout⟩
        rw [linkRef_literal hq hcands]
        exact resolveRef_qualified_iff.mpr
          ⟨fun h => Option.some_ne_none _ h.2, .inr ⟨himported, head_of_mem_single hmem⟩⟩
    | @imported id hcands hdeclined hscope hout =>
        have hbound : ¬ Unbound candidates ctx rest c r := by
          intro hunbound
          rcases hunbound with h | ⟨h, -⟩
          · exact hdeclined h
          · cases hscope.symm.trans h
        refine ⟨id, ?_, hout⟩
        rw [linkRef_stripped hq hcands hbound]
        exact resolveRef_qualified_iff.mpr ⟨hdeclined, .inl hscope⟩
    | @single id hcands hscope hrest hmem hout =>
        have hdeclined : ¬ Declined ctx c candidates[rest]? := by
          rw [hrest]
          exact fun h => Option.some_ne_none _ h.2
        have hhead : (eligible ctx r.source (receiver candidates ctx r) true
            (narrowed ctx c candidates[rest]?)).head? = some id := by
          rw [hrest]
          exact head_of_mem_single hmem
        have hbound : ¬ Unbound candidates ctx rest c r := by
          intro hunbound
          rcases hunbound with h | ⟨-, h⟩
          · exact hdeclined h
          · rw [h] at hhead
            cases hhead
        refine ⟨id, ?_, hout⟩
        rw [linkRef_stripped hq hcands hbound]
        exact resolveRef_qualified_iff.mpr ⟨hdeclined, .inr ⟨hscope, hhead⟩⟩
    | @lastImported id hcands hunbound hlong hscope hout =>
        exact ⟨id, (linkRef_unbound hq himported hcands hunbound).mpr
          ⟨hlong, resolveRef_plain_iff.mpr (.inl hscope)⟩, hout⟩
    | @last id hcands hunbound hlong hscope hhead hout =>
        exact ⟨id, (linkRef_unbound hq himported hcands hunbound).mpr
          ⟨hlong, resolveRef_plain_iff.mpr (.inr ⟨hscope, hhead⟩)⟩, hout⟩

/-! ### The names that are stripped -/

theorem splitAux_colons {s : List Char} (h : ':' ∉ s) (cur : List Char) (rest : List Char) :
    (Text.splitAux [':', ':'] 0 cur (s ++ ':' :: ':' :: rest)).headD [] = cur.reverse ++ s := by
  induction s generalizing cur with
  | nil => simp [Text.splitAux]
  | cons a s ih =>
      have ha : a ≠ ':' := fun heq => h (heq ▸ List.mem_cons_self)
      have hs : ':' ∉ s := fun hmem => h (List.mem_cons_of_mem a hmem)
      have hprefix : [':', ':'].isPrefixOf (a :: (s ++ ':' :: ':' :: rest)) = false := by
        simp [List.isPrefixOf, ha.symm]
      rw [List.cons_append, Text.splitAux, hprefix, if_neg Bool.false_ne_true, ih hs]
      simp

/-- A name headed by a crate of the workspace is stripped of it. -/
theorem stripWorkspaceQualifier_of_named {ws : Workspace} (hc : ':' ∉ c.toList)
    (hnamed : (findCrate c ws).isSome = true) :
    stripWorkspaceQualifier (c ++ "::" ++ rest) ws = some (rest, c) := by
  have hchars : (c ++ "::" ++ rest).toList = c.toList ++ ':' :: ':' :: rest.toList := by
    simp [String.toList_append]
  have hhead : (c ++ "::" ++ rest).toList = (c ++ "::").toList ++ rest.toList :=
    String.toList_append
  have hcontains : Text.contains (c ++ "::" ++ rest) "::" = true := by
    rw [Text.contains, List.any_eq_true]
    refine ⟨':' :: ':' :: rest.toList, ?_, rfl⟩
    rw [hchars, List.mem_tails]
    exact List.suffix_append _ _
  have hbefore : Text.before (c ++ "::" ++ rest) "::" = c := by
    rw [Text.before, Text.splitChars, hchars]
    show String.ofList ((Text.splitAux [':', ':'] 0 [] _).headD []) = c
    rw [splitAux_colons hc]
    simp
  have hstrip : Text.stripPrefix (c ++ "::" ++ rest) (c ++ "::") = some rest := by
    have hprefix : Text.startsWith (c ++ "::" ++ rest) (c ++ "::") = true := by
      rw [Text.startsWith, List.isPrefixOf_iff_prefix, hhead]
      exact List.prefix_append _ _
    rw [Text.stripPrefix, if_pos hprefix, hhead, List.drop_left]
    simp
  obtain ⟨p, hp⟩ := Option.isSome_iff_exists.mp hnamed
  unfold stripWorkspaceQualifier
  rw [hcontains]
  dsimp only
  rw [hbefore, hp, hstrip]
  rfl

/-- What is stripped is the name of a crate of the workspace. -/
theorem named_of_stripWorkspaceQualifier {ws : Workspace}
    (h : stripWorkspaceQualifier name ws = some (rest, c)) :
    name = c ++ "::" ++ rest ∧ (findCrate c ws).isSome = true := by
  unfold stripWorkspaceQualifier at h
  split at h
  · cases h
  · obtain ⟨p, hp, hrest⟩ := Option.bind_eq_some_iff.mp h
    obtain ⟨stripped, hstripped, hpair⟩ := Option.map_eq_some_iff.mp hrest
    cases hpair
    refine ⟨?_, by rw [hp]; rfl⟩
    unfold Text.stripPrefix at hstripped
    split at hstripped
    · rename_i hstarts
      rw [Text.startsWith, List.isPrefixOf_iff_prefix] at hstarts
      obtain ⟨tail, htail⟩ := hstarts
      have hrest : String.ofList tail = rest := by
        rw [← Option.some.inj hstripped, ← htail, List.drop_left]
      rw [← hrest]
      apply String.toList_injective
      rw [← htail]
      simp [String.toList_append]
    · cases hstripped

/-! ### All references -/

/-- Every reference `c::rest` that no import of its file binds is unresolved or bound
inside the crate `c`. -/
def Inside (refsByName : BTreeMap String (List Reference))
    (candidates : BTreeMap String (List NodeId)) (ctx : LinkCtx) : Prop :=
  ∀ nre ∈ (BTreeMap.pairs refsByName).zip (resolveAll refsByName candidates ctx),
    ∀ rest c, stripWorkspaceQualifier nre.1.1 ctx.workspace = some (rest, c) →
      importedDef ctx nre.1.2.source nre.1.1 = none →
        ∀ id, nre.2.target = .node id → InCrate ctx c id

theorem mem_zip_resolveAll {refsByName : BTreeMap String (List Reference)}
    {nre : (String × Reference) × Edge} :
    nre ∈ (BTreeMap.pairs refsByName).zip (resolveAll refsByName candidates ctx) ↔
      nre.1 ∈ BTreeMap.pairs refsByName ∧ nre.2 = linkRef candidates ctx nre.1.1 nre.1.2 := by
  rw [resolveAll, ← List.map_prod_left_eq_zip]
  simp only [List.mem_map]
  constructor
  · intro ⟨nr, hnr, h⟩
    cases h
    exact ⟨hnr, rfl⟩
  · intro ⟨hnr, h⟩
    refine ⟨nre.1, hnr, ?_⟩
    exact Prod.ext rfl h.symm

/-- **The linker keeps qualified references inside their crates exactly when none of them
takes one of the routes that ignore the crate.** -/
theorem resolveAll_inside_iff (refsByName : BTreeMap String (List Reference))
    (candidates : BTreeMap String (List NodeId)) (ctx : LinkCtx) :
    Inside refsByName candidates ctx ↔ ∀ nr ∈ BTreeMap.pairs refsByName,
      ∀ rest c, stripWorkspaceQualifier nr.1 ctx.workspace = some (rest, c) →
        importedDef ctx nr.2.source nr.1 = none → ¬ Escapes candidates ctx nr.1 rest c nr.2 := by
  constructor
  · intro h nr hnr rest c hq himported hescapes
    obtain ⟨id, hid, hout⟩ := (linkRef_escapes_iff hq himported).mpr hescapes
    have hnre : (nr, linkRef candidates ctx nr.1 nr.2)
        ∈ (BTreeMap.pairs refsByName).zip (resolveAll refsByName candidates ctx) :=
      mem_zip_resolveAll.mpr ⟨hnr, rfl⟩
    exact hout (h _ hnre rest c hq himported id hid)
  · intro h nre hnre rest c hq himported id hid
    obtain ⟨hnr, hedge⟩ := mem_zip_resolveAll.mp hnre
    rw [hedge] at hid
    by_contra hout
    exact h nre.1 hnr rest c hq himported
      ((linkRef_escapes_iff hq himported).mp ⟨id, hid, hout⟩)

instance (ctx : LinkCtx) (c : String) (id : NodeId) : Decidable (InCrate ctx c id) :=
  inferInstanceAs (Decidable (∃ p ∈ ctx.workspace.values, _ ∧ _))

namespace Snippet

/-- Two crates, with a call in `path` and one definition in `other/b.rs`. -/
def twoCrates (path call label : String) : List (String × Snippet) :=
  [("core/Cargo.toml", plain "core"), ("other/Cargo.toml", plain "other"),
    (path, caller call), ("other/b.rs", plain label)]

/-- The paths of its files. -/
def twoPaths (path : String) : List String :=
  ["core/Cargo.toml", "other/Cargo.toml", path, "other/b.rs"]

/-- Is the reference `c::rest` bound outside `c`? -/
def leavesCrate (nre : (String × Reference) × Edge) (ctx : LinkCtx) : Bool :=
  match stripWorkspaceQualifier nre.1.1 ctx.workspace, nre.2.target with
  | some (_, c), .node id =>
      decide (importedDef ctx nre.1.2.source nre.1.1 = none) && !decide (InCrate ctx c id)
  | _, _ => false

/-- Does a cold build of the two crates bind a reference outside its crate? -/
def coldLeaves (path call label : String) : Except Error Bool :=
  (frontExtract stages .empty (.allAdded (twoPaths path))
    (Snippet.source (twoCrates path call label)) extractor).map fun fx =>
      let fl := frontLink .empty (Snippet.source (twoCrates path call label)) fx
      ((BTreeMap.pairs fl.refsByName).zip
        (resolveAll fl.refsByName fl.idx.candidates (linkCtx fx fl))).any fun nre =>
          leavesCrate nre (linkCtx fx fl)

/-- A cold build of the two crates that does not keep its references inside. -/
def ColdEscapes (path call label : String) : Prop :=
  ∃ fx, frontExtract stages .empty (.allAdded (twoPaths path))
      (Snippet.source (twoCrates path call label)) extractor = .ok fx ∧
    ¬ Inside (frontLink .empty (Snippet.source (twoCrates path call label)) fx).refsByName
      (frontLink .empty (Snippet.source (twoCrates path call label)) fx).idx.candidates
      (linkCtx fx (frontLink .empty (Snippet.source (twoCrates path call label)) fx))

theorem coldEscapes_of_leaves {path call label : String}
    (h : coldLeaves path call label = .ok true) :
    ColdEscapes path call label := by
  unfold coldLeaves at h
  cases hfx : frontExtract stages .empty (.allAdded (twoPaths path))
      (Snippet.source (twoCrates path call label)) extractor with
  | error e =>
      rw [hfx] at h
      cases h
  | ok fx =>
      rw [hfx] at h
      refine ⟨fx, hfx, fun hinside => ?_⟩
      obtain ⟨nre, hnre, hleaves⟩ := List.any_eq_true.mp (Except.ok.inj h)
      unfold leavesCrate at hleaves
      split at hleaves
      · rename_i rest c id hq hid
        rw [Bool.and_eq_true, decide_eq_true_eq, Bool.not_eq_true', decide_eq_false_iff_not]
          at hleaves
        exact hleaves.2 (hinside nre hnre rest c hq hleaves.1 id hid)
      · cases hleaves

end Snippet

/-- A call to `core` is bound in `other` when the stripped name, its last segment or the
full name is the label of a definition there only. -/
theorem resolveAll_not_inside :
    Snippet.ColdEscapes "core/a.rs" "core::f" "f" ∧
      Snippet.ColdEscapes "core/a.rs" "core::util::f" "f" ∧
      Snippet.ColdEscapes "other/a.rs" "core::f" "core::f" :=
  ⟨Snippet.coldEscapes_of_leaves (by decide +kernel),
    Snippet.coldEscapes_of_leaves (by decide +kernel),
    Snippet.coldEscapes_of_leaves (by decide +kernel)⟩

end Filigrio
