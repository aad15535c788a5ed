import Filigrio.Ledger.Tree

/-!
# Filigrio.Ledger.Workspace

Is the workspace history-independent? Projects are keyed by directory, changes
arrive per manifest file. A touched manifest drops the project of its directory,
and what the directory ends with is the manifest the changeset names last there;
the cold workspace has the manifest that comes last in sorted order. The two agree
along every run whose steps name that manifest last (`NamesLast`).
-/

namespace Filigrio

variable {C : Type}

/-! ### Which manifest declares the project of a directory -/

/-- Does `p` name a manifest of the directory `d`? -/
def manifestOf (d p : String) : Bool := isManifest p && decide (dirOf p = d)

/-- The manifest of `d` that a list of paths names last. -/
def lastManifest (paths : List String) (d : String) : Option String :=
  (paths.filter (manifestOf d)).getLast?

/-- The project a manifest declares with the content the source has. -/
def declared (st : Stages C) (source : Source C) (path : String) : Option Project :=
  (manifestBasename path).bind fun base =>
    (source.read path).toOption.map (projectFrom st path base)

section Maintain

variable {st : Stages C} {source : Source C} {d : String}

/-- A directory loses its project as soon as one of its manifests is touched. -/
theorem get_dropManifests (projects : BTreeMap String Project) (paths : List String) :
    (dropManifests projects paths)[d]?
      = if paths.any (manifestOf d) then none else projects[d]? := by
  induction paths generalizing projects with
  | nil => rfl
  | cons p paths ih =>
      unfold dropManifests at ih ⊢
      rw [List.foldl_cons, ih, List.any_cons]
      by_cases hbase : (manifestBasename p).isSome = true
      · rw [if_pos hbase, BTreeMap.get_erase]
        by_cases hd : dirOf p = d
        · simp [manifestOf, isManifest, hbase, hd]
        · simp [manifestOf, hd]
      · rw [if_neg hbase]
        simp [manifestOf, isManifest, hbase]

/-- The last manifest of a directory declares its project; a directory without one
keeps what it had. -/
theorem get_insertManifests {projects projects' : BTreeMap String Project} {paths : List String}
    (h : insertManifests st source projects paths = .ok projects') :
    projects'[d]? = match lastManifest paths d with
      | some p => declared st source p
      | none => projects[d]? := by
  induction paths using List.reverseRecOn generalizing projects' with
  | nil => cases h; rfl
  | append_singleton paths p ih =>
      unfold insertManifests at h
      rw [List.foldlM_append] at h
      obtain ⟨before, hbefore, h⟩ := bind_eq_ok.mp h
      rw [List.foldlM_cons] at h
      obtain ⟨after, hp, h⟩ := bind_eq_ok.mp h
      cases h
      have hlast : lastManifest (paths ++ [p]) d
          = if manifestOf d p then some p else lastManifest paths d := by
        unfold lastManifest
        rw [List.filter_append]
        by_cases hm : manifestOf d p = true
        · simp [hm]
        · simp [hm]
      rw [hlast]
      cases hbase : manifestBasename p with
      | none =>
          rw [hbase] at hp
          cases hp
          simpa [manifestOf, isManifest, hbase] using ih hbefore
      | some base =>
          rw [hbase] at hp
          obtain ⟨bytes, hread, hp⟩ := bind_eq_ok.mp hp
          cases hp
          rw [BTreeMap.get_insert]
          by_cases hd : dirOf p = d
          · have hdeclared : declared st source p = some (projectFrom st p base bytes) := by
              simp [declared, hbase, hread, Except.toOption]
            simp [manifestOf, isManifest, hbase, hd, hdeclared]
          · simpa [manifestOf, hd] using ih hbefore

/-- Reading every manifest is all that maintaining the workspace asks for. -/
theorem exists_insertManifests (st : Stages C) {paths : List String}
    (hread : ∀ p ∈ paths, ∃ c, source.read p = .ok c) (projects : BTreeMap String Project) :
    ∃ projects', insertManifests st source projects paths = .ok projects' := by
  induction paths generalizing projects with
  | nil => exact ⟨projects, rfl⟩
  | cons p paths ih =>
      have hrest := fun q hq => hread q (List.mem_cons_of_mem p hq)
      obtain ⟨c, hc⟩ := hread p (by simp)
      unfold insertManifests at ih ⊢
      rw [List.foldlM_cons]
      cases hbase : manifestBasename p with
      | none =>
          obtain ⟨projects', h⟩ := ih hrest projects
          exact ⟨projects', bind_eq_ok.mpr ⟨projects, rfl, h⟩⟩
      | some base =>
          obtain ⟨projects', h⟩ := ih hrest (projects.insert (dirOf p) (projectFrom st p base c))
          refine ⟨projects', bind_eq_ok.mpr ⟨_, ?_, h⟩⟩
          exact bind_eq_ok.mpr ⟨c, hc, rfl⟩

/-- **What a step leaves of a directory.** Nothing touched, nothing changed; else
the manifest named last. -/
theorem get_maintainWorkspace {ws ws' : Workspace} {changes : ChangeSet}
    (h : maintainWorkspace st ws changes source = .ok ws') :
    ws'.projects[d]? = if changes.touched.any (manifestOf d)
      then (lastManifest changes.toIndex d).bind (declared st source) else ws.projects[d]? := by
  obtain ⟨projects, hinsert, h⟩ := bind_eq_ok.mp h
  cases h
  rw [get_insertManifests hinsert, get_dropManifests]
  cases hlast : lastManifest changes.toIndex d with
  | none => rfl
  | some p =>
      obtain ⟨hp, hm⟩ := List.mem_filter.mp (List.mem_of_getLast? hlast)
      have htouched : changes.touched.any (manifestOf d) = true :=
        List.any_eq_true.mpr ⟨p, ChangeSet.mem_touched.mpr (Or.inl hp), hm⟩
      rw [if_pos htouched, if_pos htouched, Option.bind_some]

end Maintain

/-! ### Runs -/

/-- `changes` leads from one tree to the next, and the paths to index exist. -/
structure Describes (changes : ChangeSet) (tree tree' : Tree C) : Prop
    extends Names changes tree tree' where
  indexed : ∀ p ∈ changes.toIndex, tree'[p]?.isSome = true

/-- Maintaining a workspace from nothing, over a changing tree, in steps that meet `P`. -/
inductive WorkspaceRun (st : Stages C) (P : Tree C → ChangeSet → Prop) :
    Tree C → Workspace → Prop
  | empty : WorkspaceRun st P ∅ ⟨∅⟩
  | step {tree tree' : Tree C} {ws ws' : Workspace} {changes : ChangeSet} {source : Source C} :
      WorkspaceRun st P tree ws → Describes changes tree tree' → P tree' changes →
      Holds source tree' → maintainWorkspace st ws changes source = .ok ws' →
      WorkspaceRun st P tree' ws'

/-- In the directory of each touched manifest, the changeset names last the manifest
that comes last among those of the tree (none, when none is left). -/
def NamesLast (tree : Tree C) (changes : ChangeSet) : Prop :=
  ∀ p ∈ changes.touched, isManifest p = true →
    lastManifest changes.toIndex (dirOf p) = lastManifest tree.keys (dirOf p)

instance (tree : Tree C) (changes : ChangeSet) : Decidable (NamesLast tree changes) :=
  inferInstanceAs (Decidable (∀ p ∈ changes.touched, isManifest p = true →
    lastManifest changes.toIndex (dirOf p) = lastManifest tree.keys (dirOf p)))

/-- The workspace of a tree: each directory has the project its last manifest declares. -/
def Discovered (st : Stages C) (source : Source C) (tree : Tree C) (ws : Workspace) : Prop :=
  ∀ d, ws.projects[d]? = (lastManifest tree.keys d).bind (declared st source)

section Runs

variable {st : Stages C} {source source' : Source C} {tree tree' : Tree C} {ws ws' : Workspace}
  {changes : ChangeSet}

theorem keys_pairwise (tree : Tree C) : tree.keys.Pairwise (· < ·) :=
  Std.ExtTreeMap.ordered_keys.imp fun h => compare_lt_iff_lt.mp h

/-- Trees that agree on the manifests of a directory have the same last one there. -/
theorem lastManifest_congr {d : String}
    (h : ∀ p, manifestOf d p = true → tree[p]? = tree'[p]?) :
    lastManifest tree.keys d = lastManifest tree'.keys d := by
  have hkeys : tree.keys.filter (manifestOf d) = tree'.keys.filter (manifestOf d) := by
    refine Canon.eq_of_mem_iff ((keys_pairwise tree).filter _) ((keys_pairwise tree').filter _)
      fun p => ?_
    simp only [List.mem_filter, Std.ExtTreeMap.mem_keys, Std.ExtTreeMap.mem_iff_isSome_getElem?]
    refine and_congr_left fun hm => ?_
    rw [h p hm]
  rw [lastManifest, lastManifest, hkeys]

/-- A manifest declares what its content says, whichever source holds the tree. -/
theorem declared_congr (hholds : Holds source tree) (hholds' : Holds source' tree') {p : String}
    (hp : p ∈ tree) (h : tree[p]? = tree'[p]?) : declared st source p = declared st source' p := by
  obtain ⟨c, hc⟩ := Option.isSome_iff_exists.mp (Std.ExtTreeMap.mem_iff_isSome_getElem?.mp hp)
  rw [declared, declared, hholds.read p c hc, hholds'.read p c (h ▸ hc)]

theorem lastManifest_mem {d p : String} (h : lastManifest tree.keys d = some p) :
    p ∈ tree ∧ manifestOf d p = true := by
  obtain ⟨hp, hm⟩ := List.mem_filter.mp (List.mem_of_getLast? h)
  exact ⟨Std.ExtTreeMap.mem_keys.mp hp, hm⟩

/-- A discovered workspace stays so while the tree does, under any source of it. -/
theorem discovered_congr {d : String} (hholds : Holds source tree) (hholds' : Holds source' tree')
    (h : ∀ p, manifestOf d p = true → tree[p]? = tree'[p]?) :
    (lastManifest tree.keys d).bind (declared st source)
      = (lastManifest tree'.keys d).bind (declared st source') := by
  rw [← lastManifest_congr h]
  cases hlast : lastManifest tree.keys d with
  | none => rw [Option.bind_none, Option.bind_none]
  | some p =>
      obtain ⟨hp, hm⟩ := lastManifest_mem hlast
      rw [Option.bind_some, Option.bind_some, declared_congr hholds hholds' hp (h p hm)]

/-- A step that names the last manifests last ends in the discovered workspace. -/
theorem discovered_step (hws : Discovered st source tree ws) (hholds : Holds source tree)
    (hchanges : Describes changes tree tree') (hlast : NamesLast tree' changes)
    (hholds' : Holds source' tree') (h : maintainWorkspace st ws changes source' = .ok ws') :
    Discovered st source' tree' ws' := by
  intro d
  rw [get_maintainWorkspace h]
  split
  · rename_i htouched
    obtain ⟨p, hp, hm⟩ := List.any_eq_true.mp htouched
    obtain ⟨hmanifest, hd⟩ := Bool.and_eq_true_iff.mp hm
    obtain rfl := of_decide_eq_true hd
    rw [hlast p hp hmanifest]
  · rename_i huntouched
    rw [hws d]
    refine discovered_congr hholds hholds' fun p hm => ?_
    by_contra hne
    exact huntouched (List.any_eq_true.mpr ⟨p, hchanges.changed p hne, hm⟩)

/-- The cold workspace is the discovered one. -/
theorem discovered_cold (st : Stages C) (hholds : Holds source tree) :
    ∃ ws, maintainWorkspace st ⟨∅⟩ (coldChanges tree) source = .ok ws ∧
      Discovered st source tree ws := by
  have hread : ∀ p ∈ (coldChanges tree).toIndex, ∃ c, source.read p = .ok c := by
    intro p hp
    have hmem : p ∈ tree := by
      simpa [coldChanges, ChangeSet.allAdded, ChangeSet.toIndex] using hp
    obtain ⟨c, hc⟩ := Option.isSome_iff_exists.mp (Std.ExtTreeMap.mem_iff_isSome_getElem?.mp hmem)
    exact ⟨c, hholds.read p c hc⟩
  obtain ⟨projects, hinsert⟩ := exists_insertManifests st hread
    (dropManifests ∅ (coldChanges tree).touched)
  have hcold : maintainWorkspace st ⟨∅⟩ (coldChanges tree) source = .ok ⟨projects⟩ :=
    bind_eq_ok.mpr ⟨projects, hinsert, rfl⟩
  refine ⟨⟨projects⟩, hcold, fun d => ?_⟩
  have htoIndex : (coldChanges tree).toIndex = tree.keys := by
    simp [coldChanges, ChangeSet.allAdded, ChangeSet.toIndex]
  rw [get_maintainWorkspace hcold, htoIndex]
  split
  · rfl
  · rename_i huntouched
    have hnone : lastManifest tree.keys d = none := by
      cases hlast : lastManifest tree.keys d with
      | none => rfl
      | some p =>
          refine absurd (List.any_eq_true.mpr ⟨p, ?_, (lastManifest_mem hlast).2⟩) huntouched
          rw [ChangeSet.mem_touched, htoIndex]
          exact Or.inl (Std.ExtTreeMap.mem_keys.mpr (lastManifest_mem hlast).1)
    rw [hnone]
    rfl

/-- Every workspace of such a run is the discovered one. -/
theorem exists_discovered (h : WorkspaceRun st NamesLast tree ws) :
    ∃ source, Holds source tree ∧ Discovered st source tree ws := by
  induction h with
  | empty =>
      -- the empty tree is held by the source that has no file
      refine ⟨⟨fun _ => false, fun p => .error (.notFound p), fun _ => true, none⟩,
        ⟨fun p => ?_, fun p c hc => ?_⟩, fun d => ?_⟩
      · simp
      · simp at hc
      · have hkeys : (∅ : Tree C).keys = [] :=
          List.eq_nil_iff_forall_not_mem.mpr fun p hp => by simp at hp
        rw [hkeys, Std.ExtTreeMap.getElem?_empty]
        rfl
  | step _ hchanges hlast hholds hstep ih =>
      obtain ⟨prev, hprev, hws⟩ := ih
      exact ⟨_, hholds, discovered_step hws hprev hchanges hlast hholds hstep⟩

end Runs

/-- **Workspace maintenance is history-independent** on every run whose steps name
the last manifest of each touched directory last: it ends with what one call on the
empty workspace makes of the whole final tree in sorted order. -/
theorem workspace_history_independent {st : Stages C} {tree : Tree C} {ws : Workspace}
    {source : Source C} (hrun : WorkspaceRun st NamesLast tree ws) (hholds : Holds source tree) :
    maintainWorkspace st ⟨∅⟩ (coldChanges tree) source = .ok ws := by
  obtain ⟨prev, hprev, hws⟩ := exists_discovered hrun
  obtain ⟨cold, hcold, hdiscovered⟩ := discovered_cold st hholds
  have hsame : ws = cold := by
    refine congrArg Workspace.mk (BTreeMap.ext_get fun d => ?_)
    rw [hws d, hdiscovered d]
    exact discovered_congr hprev hholds fun p _ => rfl
  rw [hcold, hsame]

/-! ### Sample histories -/

namespace Snippet

/-- The workspace after a cold build of `before` and one more step to `after`. -/
def twoSteps (before after : List (String × Snippet)) (changes : ChangeSet) :
    Except Error Workspace := do
  let ws ← maintainWorkspace stages ⟨∅⟩ (coldChanges (tree before)) (source before)
  maintainWorkspace stages ws changes (source after)

theorem describes_cold (files : List (String × Snippet)) :
    Describes (coldChanges (tree files)) ∅ (tree files) where
  toNames := names_coldChanges _
  indexed p hp := by
    have hmem : p ∈ tree files := by
      simpa [coldChanges, ChangeSet.allAdded, ChangeSet.toIndex] using hp
    exact Std.ExtTreeMap.mem_iff_isSome_getElem?.mp hmem

theorem run_twoSteps {P : Tree Snippet → ChangeSet → Prop} {before after : List (String × Snippet)}
    {changes : ChangeSet} {ws : Workspace} (hcold : P (tree before) (coldChanges (tree before)))
    (hP : P (tree after) changes) (hchanges : Describes changes (tree before) (tree after))
    (h : twoSteps before after changes = .ok ws) : WorkspaceRun stages P (tree after) ws := by
  obtain ⟨first, hfirst, h⟩ := bind_eq_ok.mp h
  have hrun : WorkspaceRun stages P (tree before) first :=
    .step .empty (describes_cold before) hcold (holds_source before) hfirst
  exact .step hrun hchanges hP (holds_source after) h

/-- Two manifests of one directory, the first with a given package name. -/
def manifests (name : String) : List (String × Snippet) :=
  [("package.json", plain "web")] ++ [("Cargo.toml", plain name)]

end Snippet

/-- `workspace_history_independent` on a manifest added below another one. -/
theorem workspace_history_independent_sample : ∃ ws,
    Snippet.twoSteps [("Cargo.toml", .plain "core")]
        ([("Cargo.toml", .plain "core")] ++ [("web/package.json", .plain "web")])
        ⟨["web/package.json"], [], []⟩ = .ok ws ∧
      maintainWorkspace Snippet.stages ⟨∅⟩
        (coldChanges (Snippet.tree
          ([("Cargo.toml", .plain "core")] ++ [("web/package.json", .plain "web")])))
        (Snippet.source ([("Cargo.toml", .plain "core")] ++ [("web/package.json", .plain "web")]))
        = .ok ws := by
  have hok : (Snippet.twoSteps [("Cargo.toml", .plain "core")]
      ([("Cargo.toml", .plain "core")] ++ [("web/package.json", .plain "web")])
      ⟨["web/package.json"], [], []⟩).isOk = true := by decide +kernel
  cases hrun : Snippet.twoSteps [("Cargo.toml", .plain "core")]
      ([("Cargo.toml", .plain "core")] ++ [("web/package.json", .plain "web")])
      ⟨["web/package.json"], [], []⟩ with
  | error e => rw [hrun] at hok; cases hok
  | ok ws =>
      refine ⟨ws, rfl, workspace_history_independent (Snippet.run_twoSteps ?_ ?_ ?_ hrun)
        (Snippet.holds_source _)⟩
      · decide +kernel
      · decide +kernel
      · exact { toNames := Snippet.names_add _ _ _
                indexed := fun p hp => by
                  cases List.mem_singleton.mp hp
                  rw [Snippet.get_tree]
                  decide }

/-- A run whose workspace is not that of the final tree. -/
def BreaksHistory (before after : List (String × Snippet)) (changes : ChangeSet) : Prop :=
  ∃ ws, WorkspaceRun Snippet.stages (fun _ _ => True) (Snippet.tree after) ws ∧
    Describes changes (Snippet.tree before) (Snippet.tree after) ∧
    maintainWorkspace Snippet.stages ⟨∅⟩ (coldChanges (Snippet.tree after)) (Snippet.source after)
      ≠ .ok ws

theorem breaksHistory_of_run {before after : List (String × Snippet)} {changes : ChangeSet}
    (hchanges : Describes changes (Snippet.tree before) (Snippet.tree after))
    (h : (Snippet.twoSteps before after changes >>= fun ws =>
        maintainWorkspace Snippet.stages ⟨∅⟩ (coldChanges (Snippet.tree after))
          (Snippet.source after) >>= fun cold => pure (decide (cold = ws))) = .ok false) :
    BreaksHistory before after changes := by
  obtain ⟨ws, hrun, h⟩ := bind_eq_ok.mp h
  obtain ⟨cold, hcold, h⟩ := bind_eq_ok.mp h
  refine ⟨ws, Snippet.run_twoSteps trivial trivial hchanges hrun, hchanges, fun hws => ?_⟩
  cases hcold.symm.trans hws
  exact of_decide_eq_false (Except.ok.inj h) rfl

/-- Two manifests in one directory make the workspace depend on its history: editing
the one replaces the project of the other, removing it loses that project. -/
theorem workspace_history_dependent :
    BreaksHistory (Snippet.manifests "core") (Snippet.manifests "kernel") ⟨[], ["Cargo.toml"], []⟩ ∧
      BreaksHistory (Snippet.manifests "core") [("package.json", .plain "web")]
        ⟨[], [], ["Cargo.toml"]⟩ := by
  refine ⟨breaksHistory_of_run ?_ (by decide +kernel), breaksHistory_of_run ?_ (by decide +kernel)⟩
  · exact { toNames := Snippet.names_edit _ _ _ _
            indexed := fun p hp => by
              cases List.mem_singleton.mp hp
              rw [Snippet.get_tree]
              decide }
  · exact { toNames := Snippet.names_drop _ _ _ (by decide)
            indexed := fun p hp => by cases hp }

end Filigrio
