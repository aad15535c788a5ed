import Filigrio.Pipeline.Disk
import Filigrio.Store.Merge

/-!
# Filigrio.Pipeline.Apply

The orchestrator: gate a raw signal (`gateChangeset`) or detect drift
(`reconcile`), then one `apply`: run the engine, stamp the manifest entries of the
changed files, check the shrink guard, merge.
-/

namespace Filigrio

variable {C : Type}

namespace Fs

variable (fs : Fs C) (disk : Disk C)

/-- Does a named path pass the gate: in scope, and not found unchanged? -/
def keep (prior : GraphState) (rel : String) : Bool :=
  fs.inScope rel && !fs.isUnchanged disk prior.manifest false rel

/-- Turn a producer's raw changeset into the effective one; `removed` passes through. -/
def gateChangeset (cs : ChangeSet) (prior : GraphState) : ChangeSet where
  added := cs.added.filter (fs.keep disk prior)
  modified := cs.modified.filter (fs.keep disk prior)
  removed := cs.removed

/-- Report from reconciliation. -/
structure ReconcileReport where
  filesChecked : ℕ
  filesChanged : ℕ
  filesAdded : ℕ
  filesRemoved : ℕ
  hasDrift : Bool
  deriving DecidableEq, Repr

/-- Reconcile a project against its manifest: the drift as a changeset. Only files
whose changes affect the graph are checked; an entry that left the walk is removed,
and an unreadable file counts as changed. -/
def reconcile (state : GraphState) (deep : Bool) : ReconcileReport × ChangeSet :=
  let files := fs.walk disk
  let result := fun p => fs.dedupFile disk p state.manifest (disk.getMtime p) deep
  let checked := files.filter isIndexable
  let added := checked.filter fun p => result p matches .ok .notFound
  let modified := checked.filter fun p =>
    match result p with
    | .ok .changed => true
    | .error _ => true
    | _ => false
  let removed := state.manifest.entries.keys.filter fun p => p ∉ files
  ({ filesChecked := files.length
     filesChanged := modified.length
     filesAdded := added.length
     filesRemoved := removed.length
     hasDrift := !added.isEmpty || !modified.isEmpty || !removed.isEmpty },
    { added := added, modified := modified, removed := removed })

/-! ### Stamping -/

/-- The real modification time and hash of a file in its entry; a file that cannot
be hashed keeps the stub. -/
def stampEntry (rel : String) (entry : ManifestEntry) : ManifestEntry :=
  { entry with
    lastModified := disk.getMtime rel
    hash := match fs.hashFile disk rel with
      | .ok h => h
      | .error _ => entry.hash }

/-- Stamp the entries of the changed files, as far as there are any. -/
def stamp (manifest : Manifest) (paths : List String) : Manifest :=
  ⟨paths.foldl (fun m rel => m.alter rel (Option.map (fs.stampEntry disk rel))) manifest.entries⟩

end Fs

/-! ### The shrink guard -/

/-- An apply may remove only nodes of files it touched (and nodes without a file). -/
def checkShrinkGuard (prior : Graph) (removed : List NodeId) (touched : List String) :
    Except Error Unit :=
  if removed = [] then .ok ()
  else
    match prior.nodes.filter fun n => n.id ∈ removed && n.sourceFile.any (· ∉ touched) with
    | [] => .ok ()
    | first :: rest => .error (.other ("shrink guard: apply would drop "
        ++ toString (1 + rest.length) ++ " node(s) from files it did not touch (first: `"
        ++ first.id.val ++ "` in `" ++ first.sourceFile.getD "" ++ "`)"))

/-! ### The pipeline -/

/-- Summary of one apply. -/
structure BuildReport where
  changed : ℕ := 0
  nodesAdded : ℕ := 0
  nodesRemoved : ℕ := 0
  edgesAdded : ℕ := 0
  edgesRemoved : ℕ := 0
  affected : ℕ := 0
  vanished : ℕ := 0
  deriving DecidableEq, Repr

def reportOf (changes : ChangeSet) (delta : GraphDelta) : BuildReport where
  changed := changes.touched.length
  nodesAdded := delta.nodesAdded.length
  nodesRemoved := delta.nodesRemoved.length
  edgesAdded := delta.edgesAdded.length
  edgesRemoved := delta.edgesRemoved.length
  affected := delta.affected
  vanished := delta.vanished

/-- The ports and settings of a pipeline; its store is in memory, forced or deferred. -/
structure Pipeline (C : Type) where
  fs : Fs C
  stages : Stages C
  extractor : Extractor C
  shrinkGuard : Bool
  linkScope : LinkScope
  clusterTiming : ClusterTiming

namespace Pipeline

variable (pl : Pipeline C) (disk : Disk C)

/-- The apply core over an already-final changeset, merged. -/
def apply (prior : GraphState) (changes : ChangeSet) : Except Error (GraphState × BuildReport) := do
  let delta ← Engine.applyWith pl.stages prior changes (pl.fs.source disk) pl.extractor
    pl.linkScope pl.clusterTiming
  let delta := { delta with manifest := pl.fs.stamp disk delta.manifest changes.toIndex }
  if pl.shrinkGuard then checkShrinkGuard prior.graph delta.nodesRemoved delta.dirtyFiles
  pure (merge prior delta, reportOf changes delta)

/-- Apply a raw producer signal: gate it, then apply what is left, if anything is. -/
def applySignal (prior : GraphState) (raw : ChangeSet) :
    Except Error (GraphState × BuildReport) :=
  let effective := pl.fs.gateChangeset disk raw prior
  if effective.isEmpty then pure (prior, {})
  else pl.apply disk prior effective

/-- Reconcile the project against disk and apply the drift. -/
def reconcileAndApply (prior : GraphState) (deep : Bool) :
    Except Error (GraphState × Fs.ReconcileReport × BuildReport) :=
  let (report, changes) := pl.fs.reconcile disk prior deep
  if report.hasDrift then do
    let (state, build) ← pl.apply disk prior changes
    pure (state, report, build)
  else pure (prior, report, {})

/-- Cold or warm build: a shallow reconcile, applied. -/
def build (prior : GraphState) : Except Error (GraphState × BuildReport) := do
  let (state, _, report) ← pl.reconcileAndApply disk prior false
  pure (state, report)

end Pipeline

/-! ### What stamping and the guard leave -/

section Lemmas

variable {fs : Fs C} {disk : Disk C} {p : String}

theorem stampEntry_idem (e : ManifestEntry) :
    fs.stampEntry disk p (fs.stampEntry disk p e) = fs.stampEntry disk p e := by
  unfold Fs.stampEntry
  cases fs.hashFile disk p <;> rfl

/-- Stamping touches the entries of the listed paths only, each once. -/
theorem get_stamp (manifest : Manifest) (paths : List String) :
    (fs.stamp disk manifest paths).entries[p]?
      = if p ∈ paths then manifest.entries[p]?.map (fs.stampEntry disk p)
        else manifest.entries[p]? := by
  unfold Fs.stamp
  induction paths using List.reverseRecOn with
  | nil => simp
  | append_singleton paths q ih =>
      rw [List.foldl_append, List.foldl_cons, List.foldl_nil, Std.ExtTreeMap.getElem?_alter]
      simp only [compare_eq_iff_eq]
      by_cases hq : q = p
      · subst hq
        have hlisted : q ∈ paths ++ [q] := by simp
        rw [if_pos rfl, if_pos hlisted, ih]
        split
        · -- an earlier mention has stamped the entry already
          cases manifest.entries[q]? with
          | none => rfl
          | some e => simp only [Option.map_some, stampEntry_idem]
        · rfl
      · have hmem : p ∈ paths ++ [q] ↔ p ∈ paths := by simp [Ne.symm hq]
        rw [if_neg hq, ih]
        simp only [hmem]

theorem mem_stamp {manifest : Manifest} {paths : List String} :
    p ∈ (fs.stamp disk manifest paths).entries ↔ p ∈ manifest.entries := by
  rw [Std.ExtTreeMap.mem_iff_isSome_getElem?, Std.ExtTreeMap.mem_iff_isSome_getElem?, get_stamp]
  split <;> simp

/-- The guard passes when every removed node lives in a touched file or in none. -/
theorem checkShrinkGuard_ok {prior : Graph} {removed : List NodeId} {touched : List String}
    (h : ∀ n ∈ prior.nodes, n.id ∈ removed → ∀ p, n.sourceFile = some p → p ∈ touched) :
    checkShrinkGuard prior removed touched = .ok () := by
  unfold checkShrinkGuard
  split
  · rfl
  · have hnone : (prior.nodes.filter fun n =>
        n.id ∈ removed && n.sourceFile.any (· ∉ touched)) = [] := by
      refine List.filter_eq_nil_iff.mpr fun n hn hstray => ?_
      obtain ⟨hremoved, hfile⟩ := Bool.and_eq_true_iff.mp hstray
      obtain ⟨p, hp, hnot⟩ := (Option.any_eq_true ..).mp hfile
      exact of_decide_eq_true hnot (h n hn (of_decide_eq_true hremoved) p hp)
    rw [hnone]

end Lemmas

end Filigrio
