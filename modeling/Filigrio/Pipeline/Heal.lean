import Filigrio.Pipeline.Applied
import Filigrio.Ledger.Cold
import Filigrio.Pipeline.Signal

/-!
# Filigrio.Pipeline.Heal

The recovery path. Whatever a project went through under global linking, its state is
rebuilt from a tree of its own: the files as they were when they were last named
(`indexed`). The stamped hashes are those of that tree, so a deep reconcile finds where
it differs from the disk, and applies exactly that.
-/

namespace Filigrio

variable {C : Type}

/-- A pipeline of these stages, extractor and content hash that links globally. -/
structure Pipeline.Links (pl : Pipeline C) (st : Stages C) (ex : Extractor C) (hash : C → ℕ) :
    Prop where
  stages : pl.stages = st
  extractor : pl.extractor = ex
  hash : pl.fs.hash = hash
  linkScope : pl.linkScope = .global

/-- The states of a project under global linking, over any disks and changesets that
name a path once; `source` is the one of the last apply. -/
inductive GlobalReach (st : Stages C) (ex : Extractor C) (hash : C → ℕ) :
    Source C → GraphState → Prop
  | empty (source : Source C) : GlobalReach st ex hash source GraphState.empty
  | apply {pl : Pipeline C} {disk : Disk C} {prev : Source C} {s s' : GraphState}
      {changes : ChangeSet} {report : BuildReport} : GlobalReach st ex hash prev s →
      pl.Links st ex hash → changes.touched.Nodup →
      pl.apply disk s changes = .ok (s', report) → GlobalReach st ex hash (pl.fs.source disk) s'

/-- Every file the extractor handles is code. -/
def Extractor.CodeOnly (ex : Extractor C) : Prop :=
  ∀ p, ex.handles (classify p) = true → isIndexable p = true

/-! ### The tree a state stands for -/

/-- The tree after an apply: the indexed files as they are on disk, the other files as
they were when last indexed. -/
def Tree.indexed (tree : Tree C) (disk : Disk C) (changes : ChangeSet) : Tree C :=
  BTreeMap.insertAll (Std.ExtTreeMap.filter (fun p _ => p ∉ changes.touched) tree)
    (Std.ExtTreeMap.map (fun _ f => f.content)
      (Std.ExtTreeMap.filter (fun p _ => p ∈ changes.toIndex) disk)).toList

/-- The hash of a handled file is that of its content in the tree. -/
def Stamped (ex : Extractor C) (hash : C → ℕ) (tree : Tree C) (s : GraphState) : Prop :=
  ∀ p e, s.manifest.entries[p]? = some e → ex.handles (classify p) = true →
    ∃ c, tree[p]? = some c ∧ e.hash = hash c

section Indexed

variable {st : Stages C} {ex : Extractor C} {hash : C → ℕ} {fs : Fs C} {disk : Disk C}
  {tree : Tree C} {changes : ChangeSet} {s s' : GraphState} {prev source : Source C} {p : String}
  {pl : Pipeline C} {report : BuildReport} {L : Ledger}

theorem get_indexed (tree : Tree C) (disk : Disk C) (changes : ChangeSet) (p : String) :
    (tree.indexed disk changes)[p]? = if p ∈ changes.toIndex then disk[p]?.map File.content
      else if p ∈ changes.touched then none else tree[p]? := by
  unfold Tree.indexed
  rw [BTreeMap.get_insertAll_toList, Std.ExtTreeMap.getElem?_map, BTreeMap.get_filter,
    BTreeMap.get_filter]
  by_cases hp : p ∈ changes.toIndex
  · have htouched : p ∈ changes.touched := ChangeSet.mem_touched.mpr (Or.inl hp)
    cases disk[p]? <;> cases tree[p]? <;> simp [hp, htouched]
  · by_cases htouched : p ∈ changes.touched <;>
      cases disk[p]? <;> cases tree[p]? <;> simp [hp, htouched]

theorem indexes_indexed : Indexes (fs.source disk) changes (tree.indexed disk changes) where
  «exists» p hp := by
    rw [get_indexed, if_pos hp]
    show disk[p]?.isSome = _
    cases disk[p]? <;> rfl
  read p hp _ c hread := by
    obtain ⟨f, hf, -, rfl⟩ := read_eq_ok.mp hread
    rw [get_indexed, if_pos hp, hf]
    rfl

theorem names_indexed (honce : changes.touched.Nodup) :
    Names changes tree (tree.indexed disk changes) where
  once := honce
  changed p hp := by
    by_contra htouched
    refine hp ?_
    rw [get_indexed, if_neg fun h => htouched (ChangeSet.mem_touched.mpr (Or.inl h)),
      if_neg htouched]
  removed p hp := by
    have hlisted : p ∉ changes.toIndex := fun h =>
      (List.nodup_append'.mp honce).2.2 h hp
    rw [get_indexed, if_neg hlisted, if_pos (ChangeSet.mem_touched.mpr (Or.inr hp))]

/-- The entry of a path after an apply. -/
theorem get_manifest_apply (h : pl.apply disk s changes = .ok (s', report)) :
    s'.manifest.entries[p]? =
      if p ∈ changes.toIndex then
        if disk[p]?.isSome = true ∧ p ∉ changes.removed then
          some (pl.fs.stampEntry disk p ⟨0, none, none⟩) else none
      else if p ∈ changes.removed then none else s.manifest.entries[p]? := by
  obtain ⟨fx, partition, hfx, rfl⟩ := Pipeline.apply_ok h
  obtain ⟨files, hf⟩ := frontExtract_ok hfx
  show (pl.fs.stamp disk (maintainManifest s.manifest fx.changes) changes.toIndex).entries[p]? = _
  rw [get_stamp, get_maintainManifest, hf.changes, toIndex_foldVanished, removed_foldVanished]
  have hexists : (pl.fs.source disk).exists p = disk[p]?.isSome := rfl
  by_cases hp : p ∈ changes.toIndex <;> by_cases hremoved : p ∈ changes.removed <;>
    cases hsome : disk[p]?.isSome <;>
    simp [hp, hremoved, hexists, hsome]

/-- One apply keeps a state to its tree, and its hashes. -/
theorem rebuilt_apply (hex : ex.PerFile) (hno : ex.NoOverlay) (hunmixed : ex.Unmixed)
    (hinside : ex.TargetsInside) (hs : Ledger.Rebuilt ex prev tree L s)
    (hstamped : Stamped ex hash tree s) (hlinks : pl.Links st ex hash)
    (honce : changes.touched.Nodup) (h : pl.apply disk s changes = .ok (s', report)) :
    (∃ L', Ledger.Rebuilt ex (pl.fs.source disk) (tree.indexed disk changes) L' s') ∧
      Stamped ex hash (tree.indexed disk changes) s' := by
  obtain ⟨rfl, rfl, rfl, hscope⟩ := hlinks
  obtain ⟨fx, partition, hfx, heq⟩ := Pipeline.apply_ok h
  obtain ⟨files, hf⟩ := frontExtract_ok hfx
  constructor
  · obtain ⟨L', hr⟩ := Ledger.rebuilt_step hex hno hunmixed hinside hs (names_indexed honce)
      indexes_indexed hfx partition
    rw [hscope] at heq
    subst heq
    exact ⟨L', { hr with keys := fun p => mem_stamp.trans (hr.keys p) }⟩
  · intro p e hentry hhandles
    rw [get_manifest_apply h] at hentry
    rw [get_indexed]
    by_cases hp : p ∈ changes.toIndex
    · -- the file has just been read, so it is hashed
      rw [if_pos hp] at hentry ⊢
      split at hentry
      · rename_i hkept
        cases hentry
        have hlisted : p ∈ fx.changes.toIndex := by
          rw [hf.changes, toIndex_foldVanished, List.mem_filter]
          exact ⟨hp, hkept.1⟩
        obtain ⟨g, hg, rfl⟩ := Ledger.exists_mem_extractFiles hf.extract hlisted hhandles
        obtain ⟨-, -, c, hread, -⟩ := (mem_extractFiles hf.extract).mp hg
        obtain ⟨f, hfile, hreadable, rfl⟩ := read_eq_ok.mp hread
        have hhash : pl.fs.hashFile disk g.1 = .ok (pl.fs.hash f.content) :=
          map_eq_ok.mpr ⟨f.content, hread, rfl⟩
        refine ⟨f.content, by rw [hfile]; rfl, ?_⟩
        unfold Fs.stampEntry
        rw [hhash]
      · cases hentry
    · rw [if_neg hp] at hentry ⊢
      split at hentry
      · cases hentry
      · rename_i hremoved
        rw [if_neg fun h => (ChangeSet.mem_touched.mp h).elim hp hremoved]
        exact hstamped p e hentry hhandles

/-- Every state of a project is rebuilt from a tree, and its hashes are those of the tree. -/
theorem exists_rebuilt_stamped (hex : ex.PerFile) (hno : ex.NoOverlay) (hunmixed : ex.Unmixed)
    (hinside : ex.TargetsInside) (h : GlobalReach st ex hash source s) :
    ∃ tree L, Ledger.Rebuilt ex source tree L s ∧ Stamped ex hash tree s := by
  induction h with
  | empty source => exact ⟨∅, [], Ledger.rebuilt_empty ex source, fun p e he => by simp [GraphState.empty] at he⟩
  | apply _ hlinks honce happly ih =>
      obtain ⟨tree, L, hs, hstamped⟩ := ih
      obtain ⟨⟨L', hs'⟩, hstamped'⟩ :=
        rebuilt_apply hex hno hunmixed hinside hs hstamped hlinks honce happly
      exact ⟨_, L', hs', hstamped'⟩

/-! ### What a deep reconcile finds -/

theorem mem_walk : p ∈ fs.walk disk ↔ p ∈ disk ∧ fs.inScope p = true := by
  rw [Fs.walk, List.mem_filter, Std.ExtTreeMap.mem_keys]

theorem nodup_walk (fs : Fs C) (disk : Disk C) : (fs.walk disk).Nodup := by
  have hkeys : disk.keys.Nodup := Std.ExtTreeMap.distinct_keys.imp fun h heq =>
    h (compare_eq_iff_eq.mpr heq)
  exact hkeys.filter _

/-- A file with the stamped hash is found unchanged. -/
theorem isUnchanged_of_hash {manifest : Manifest} {e : ManifestEntry} {f : File C}
    (hentry : manifest.entries[p]? = some e) (hfile : disk[p]? = some f)
    (hreadable : f.readable = true) (hhash : fs.hash f.content = e.hash) (deep : Bool) :
    fs.isUnchanged disk manifest deep p = true := by
  have hhashed : fs.hashFile disk p = .ok e.hash :=
    map_eq_ok.mpr ⟨f.content, read_eq_ok.mpr ⟨f, hfile, hreadable, rfl⟩, hhash⟩
  refine decide_eq_true ?_
  unfold Fs.dedupFile
  rw [hentry]
  dsimp only
  split
  · rfl
  · rw [hhashed]
    show (if e.hash = e.hash then _ else _) = _
    rw [if_pos rfl]

/-- The deep check goes by the hash alone. -/
theorem hash_of_isUnchanged {manifest : Manifest} (h : fs.isUnchanged disk manifest true p = true) :
    ∃ e f, manifest.entries[p]? = some e ∧ disk[p]? = some f ∧ fs.hash f.content = e.hash := by
  have hdedup := of_decide_eq_true h
  unfold Fs.dedupFile at hdedup
  cases hentry : manifest.entries[p]? with
  | none => rw [hentry] at hdedup; cases hdedup
  | some e =>
      rw [hentry] at hdedup
      obtain ⟨h', hhash, hdedup⟩ := bind_eq_ok.mp hdedup
      obtain ⟨c, hread, rfl⟩ := map_eq_ok.mp hhash
      obtain ⟨f, hf, -, rfl⟩ := read_eq_ok.mp hread
      by_cases heq : fs.hash f.content = e.hash
      · exact ⟨e, f, rfl, hf, heq⟩
      · rw [if_neg heq] at hdedup
        cases hdedup

section Reconcile

variable {deep : Bool}

/-- What a reconcile lists to index. -/
theorem mem_toIndex_reconcile : p ∈ (fs.reconcile disk s deep).2.toIndex ↔
    p ∈ fs.walk disk ∧ isIndexable p = true ∧ fs.isUnchanged disk s.manifest deep p = false := by
  have hresult : (fs.isUnchanged disk s.manifest deep p = false) ↔
      fs.dedupFile disk p s.manifest (disk.getMtime p) deep ≠ .ok .unchanged := by
    simp [Fs.isUnchanged]
  rw [hresult]
  simp only [Fs.reconcile, ChangeSet.toIndex, List.mem_append, List.mem_filter, and_assoc,
    ← and_or_left]
  refine and_congr_right fun _ => and_congr_right fun _ => ?_
  cases fs.dedupFile disk p s.manifest (disk.getMtime p) deep with
  | error e => simp
  | ok result => cases result <;> simp

theorem mem_removed_reconcile : p ∈ (fs.reconcile disk s deep).2.removed ↔
    p ∈ s.manifest.entries ∧ p ∉ fs.walk disk := by
  simp only [Fs.reconcile, List.mem_filter, Std.ExtTreeMap.mem_keys, decide_eq_true_eq]

theorem nodup_reconcile : (fs.reconcile disk s deep).2.touched.Nodup := by
  have hchecked : ((fs.walk disk).filter isIndexable).Nodup := (nodup_walk fs disk).filter _
  have hkeys : s.manifest.entries.keys.Nodup := Std.ExtTreeMap.distinct_keys.imp fun h heq =>
    h (compare_eq_iff_eq.mpr heq)
  refine List.nodup_append'.mpr ⟨List.nodup_append'.mpr ⟨hchecked.filter _, hchecked.filter _,
    fun p hadded hmodified => ?_⟩, hkeys.filter _, fun p hlisted hremoved => ?_⟩
  · -- a file without an entry cannot have changed
    have hadded := (List.mem_filter.mp hadded).2
    have hmodified := (List.mem_filter.mp hmodified).2
    split at hadded
    · rename_i hresult
      rw [hresult] at hmodified
      cases hmodified
    · cases hadded
  · exact (mem_removed_reconcile.mp hremoved).2 (mem_toIndex_reconcile.mp hlisted : p ∈ fs.walk disk ∧ _).1

theorem hasDrift_reconcile : (fs.reconcile disk s deep).1.hasDrift = false ↔
    (fs.reconcile disk s deep).2 = ⟨[], [], []⟩ := by
  simp only [Fs.reconcile, ChangeSet.mk.injEq, Bool.or_eq_false_iff, Bool.not_eq_false',
    List.isEmpty_iff, and_assoc]

end Reconcile

/-! ### What it leaves -/

/-- The state is in line with the disk: every entry is in the walk, and every checked
file has the hash it is stamped with. -/
structure InLine (fs : Fs C) (disk : Disk C) (s : GraphState) : Prop where
  keys : ∀ p, p ∈ s.manifest.entries → p ∈ fs.walk disk
  hashed : ∀ p ∈ fs.walk disk, isIndexable p = true → ∃ e f, s.manifest.entries[p]? = some e ∧
    disk[p]? = some f ∧ f.readable = true ∧ fs.hash f.content = e.hash

/-- Where the state is in line, a reconcile finds nothing. -/
theorem InLine.noDrift (h : InLine fs disk s) (deep : Bool) :
    (fs.reconcile disk s deep).1.hasDrift = false ∧ (fs.reconcile disk s deep).2 = ⟨[], [], []⟩ := by
  rw [hasDrift_reconcile, and_self]
  have hindex : (fs.reconcile disk s deep).2.toIndex = [] := by
    refine List.eq_nil_iff_forall_not_mem.mpr fun p hp => ?_
    obtain ⟨hwalk, hindexable, hchanged⟩ := mem_toIndex_reconcile.mp hp
    obtain ⟨e, f, hentry, hfile, hreadable, hhash⟩ := h.hashed p hwalk hindexable
    rw [isUnchanged_of_hash hentry hfile hreadable hhash deep] at hchanged
    cases hchanged
  have hremoved : (fs.reconcile disk s deep).2.removed = [] := by
    refine List.eq_nil_iff_forall_not_mem.mpr fun p hp => ?_
    obtain ⟨hkey, hwalk⟩ := mem_removed_reconcile.mp hp
    exact hwalk (h.keys p hkey)
  obtain ⟨hadded, hmodified⟩ := List.append_eq_nil_iff.mp hindex
  cases hchanges : (fs.reconcile disk s deep).2 with
  | mk added modified removed =>
      rw [hchanges] at hadded hmodified hremoved
      have hadded : added = [] := hadded
      have hmodified : modified = [] := hmodified
      have hremoved : removed = [] := hremoved
      rw [hadded, hmodified, hremoved]

/-- A reconcile that cannot be misled by a modification time: a deep one, or one onto
a state without entries. -/
theorem hash_of_unchanged {deep : Bool} (hdeep : deep = true ∨ s.manifest.entries = ∅)
    (h : fs.isUnchanged disk s.manifest deep p = true) :
    ∃ e f, s.manifest.entries[p]? = some e ∧ disk[p]? = some f ∧ fs.hash f.content = e.hash := by
  rcases hdeep with rfl | hempty
  · exact hash_of_isUnchanged h
  · obtain ⟨e, f, hentry, -⟩ := entry_of_isUnchanged h
    rw [hempty] at hentry
    simp at hentry

/-- The handled files of the tree that a reconcile leaves are those of the walk. -/
theorem get_reconciled {deep : Bool} (hcode : ex.CodeOnly) (hs : Ledger.Rebuilt ex source tree L s)
    (hstamped : Stamped ex fs.hash tree s) (hinj : Function.Injective fs.hash)
    (hdeep : deep = true ∨ s.manifest.entries = ∅) (hhandles : ex.handles (classify p) = true) :
    (tree.indexed disk (fs.reconcile disk s deep).2)[p]? =
      if p ∈ fs.walk disk then disk[p]?.map File.content else none := by
  rw [get_indexed]
  by_cases hwalk : p ∈ fs.walk disk
  · rw [if_pos hwalk]
    by_cases hp : p ∈ (fs.reconcile disk s deep).2.toIndex
    · rw [if_pos hp]
    · -- the hash says that the tree has the content of the disk
      have hremoved : p ∉ (fs.reconcile disk s deep).2.removed := fun h =>
        (mem_removed_reconcile.mp h).2 hwalk
      rw [if_neg hp, if_neg fun h => (ChangeSet.mem_touched.mp h).elim hp hremoved]
      have hunchanged : fs.isUnchanged disk s.manifest deep p = true := by
        by_contra h
        exact hp (mem_toIndex_reconcile.mpr ⟨hwalk, hcode p hhandles, by simpa using h⟩)
      obtain ⟨e, f, hentry, hfile, hhash⟩ := hash_of_unchanged hdeep hunchanged
      obtain ⟨c, hc, hhash'⟩ := hstamped p e hentry hhandles
      have hsame : f.content = c := hinj (hhash.trans hhash')
      rw [hc, hfile, Option.map_some, hsame]
  · have hp : p ∉ (fs.reconcile disk s deep).2.toIndex := fun h =>
      hwalk (mem_toIndex_reconcile.mp h).1
    rw [if_neg hwalk, if_neg hp]
    split
    · rfl
    · rename_i htouched
      by_contra hsome
      have hkey : p ∈ s.manifest.entries := (hs.keys p).mpr
        (Std.ExtTreeMap.mem_iff_isSome_getElem?.mpr (Option.isSome_iff_ne_none.mpr hsome))
      exact htouched (ChangeSet.mem_touched.mpr (Or.inr (mem_removed_reconcile.mpr ⟨hkey, hwalk⟩)))

/-- What a reconcile that applies its changes leaves is in line. -/
theorem inLine_apply {deep : Bool} (hdeep : deep = true ∨ s.manifest.entries = ∅)
    (hreadable : ∀ p f, disk[p]? = some f → pl.fs.inScope p = true → f.readable = true)
    (h : pl.apply disk s (pl.fs.reconcile disk s deep).2 = .ok (s', report)) :
    InLine pl.fs disk s' := by
  have hfile : ∀ p ∈ pl.fs.walk disk, ∃ f, disk[p]? = some f ∧ f.readable = true := by
    intro p hp
    obtain ⟨hmem, hscope⟩ := mem_walk.mp hp
    obtain ⟨f, hf⟩ := Option.isSome_iff_exists.mp (Std.ExtTreeMap.mem_iff_isSome_getElem?.mp hmem)
    exact ⟨f, hf, hreadable p f hf hscope⟩
  have hkept : ∀ p ∈ pl.fs.walk disk, p ∉ (pl.fs.reconcile disk s deep).2.removed := fun p hp h =>
    (mem_removed_reconcile.mp h).2 hp
  refine ⟨fun p hp => ?_, fun p hwalk hindexable => ?_⟩
  · by_contra hwalk
    rw [Std.ExtTreeMap.mem_iff_isSome_getElem?, get_manifest_apply h,
      if_neg fun h => hwalk (mem_toIndex_reconcile.mp h).1] at hp
    split at hp
    · cases hp
    · rename_i hremoved
      exact hremoved (mem_removed_reconcile.mpr
        ⟨Std.ExtTreeMap.mem_iff_isSome_getElem?.mpr hp, hwalk⟩)
  · obtain ⟨f, hf, hread⟩ := hfile p hwalk
    by_cases hp : p ∈ (pl.fs.reconcile disk s deep).2.toIndex
    · have hentry : s'.manifest.entries[p]? = some (pl.fs.stampEntry disk p ⟨0, none, none⟩) := by
        rw [get_manifest_apply h, if_pos hp, if_pos ⟨by rw [hf]; rfl, hkept p hwalk⟩]
      refine ⟨_, f, hentry, hf, hread, ?_⟩
      have hhash : pl.fs.hashFile disk p = .ok (pl.fs.hash f.content) :=
        map_eq_ok.mpr ⟨f.content, read_eq_ok.mpr ⟨f, hf, hread, rfl⟩, rfl⟩
      unfold Fs.stampEntry
      rw [hhash]
    · have hunchanged : pl.fs.isUnchanged disk s.manifest deep p = true := by
        by_contra h
        exact hp (mem_toIndex_reconcile.mpr ⟨hwalk, hindexable, by simpa using h⟩)
      obtain ⟨e, f', hentry, hf', hhash⟩ := hash_of_unchanged hdeep hunchanged
      cases hf.symm.trans hf'
      refine ⟨e, f, ?_, hf, hread, hhash⟩
      rw [get_manifest_apply h, if_neg hp, if_neg (hkept p hwalk), hentry]

/-- A state that a reconcile finds in line is. -/
theorem inLine_of_noDrift {deep : Bool} (hdeep : deep = true ∨ s.manifest.entries = ∅)
    (hreadable : ∀ p f, disk[p]? = some f → fs.inScope p = true → f.readable = true)
    (h : (fs.reconcile disk s deep).2 = ⟨[], [], []⟩) : InLine fs disk s := by
  refine ⟨fun p hp => ?_, fun p hwalk hindexable => ?_⟩
  · by_contra hwalk
    have hremoved : p ∈ (fs.reconcile disk s deep).2.removed :=
      mem_removed_reconcile.mpr ⟨hp, hwalk⟩
    rw [h] at hremoved
    cases hremoved
  · have hunchanged : fs.isUnchanged disk s.manifest deep p = true := by
      by_contra hchanged
      have hlisted : p ∈ (fs.reconcile disk s deep).2.toIndex := mem_toIndex_reconcile.mpr
        ⟨hwalk, hindexable, (by simpa using hchanged : fs.isUnchanged disk s.manifest deep p = false)⟩
      rw [h] at hlisted
      cases hlisted
    obtain ⟨e, f, hentry, hf, hhash⟩ := hash_of_unchanged hdeep hunchanged
    exact ⟨e, f, hentry, hf, hreadable p f hf (mem_walk.mp hwalk).2, hhash⟩

/-- **What a reconcile leaves**: a state rebuilt from the handled files of the walk, in
line with the disk, and linked in it if anything had drifted. -/
theorem rebuilt_reconcile {deep : Bool} {reconciled : Fs.ReconcileReport} (hex : ex.PerFile)
    (hno : ex.NoOverlay) (hunmixed : ex.Unmixed) (hinside : ex.TargetsInside) (hcode : ex.CodeOnly)
    (hlinks : pl.Links st ex hash) (hinj : Function.Injective hash)
    (hs : Ledger.Rebuilt ex prev tree L s) (hstamped : Stamped ex hash tree s)
    (hreadable : ∀ p f, disk[p]? = some f → pl.fs.inScope p = true → f.readable = true)
    (hdeep : deep = true ∨ s.manifest.entries = ∅)
    (hrun : pl.reconcileAndApply disk s deep = .ok (s', reconciled, report)) :
    ∃ source' tree' L', Ledger.Rebuilt ex source' tree' L' s' ∧
      (∀ p, ex.handles (classify p) = true →
        tree'[p]? = if p ∈ pl.fs.walk disk then disk[p]?.map File.content else none) ∧
      InLine pl.fs disk s' ∧ (source' = pl.fs.source disk ∨
        (pl.fs.reconcile disk s deep).1.hasDrift = false ∧ source' = prev ∧ s' = s) := by
  have htree : ∀ p, ex.handles (classify p) = true →
      (tree.indexed disk (pl.fs.reconcile disk s deep).2)[p]? =
        if p ∈ pl.fs.walk disk then disk[p]?.map File.content else none := fun p hhandles =>
    get_reconciled hcode hs (hlinks.hash.symm ▸ hstamped) (hlinks.hash.symm ▸ hinj) hdeep hhandles
  unfold Pipeline.reconcileAndApply at hrun
  dsimp only at hrun
  split at hrun
  · obtain ⟨⟨t, build⟩, happly, hrun⟩ := bind_eq_ok.mp hrun
    cases hrun
    obtain ⟨⟨L', hs'⟩, -⟩ :=
      rebuilt_apply hex hno hunmixed hinside hs hstamped hlinks nodup_reconcile happly
    exact ⟨_, _, L', hs', htree, inLine_apply hdeep hreadable happly, Or.inl rfl⟩
  · rename_i hdrift
    cases hrun
    have hdrift : (pl.fs.reconcile disk s deep).1.hasDrift = false := by simpa using hdrift
    have hnothing := hasDrift_reconcile.mp hdrift
    refine ⟨prev, tree, L, hs, fun p hhandles => ?_, inLine_of_noDrift hdeep hreadable hnothing,
      Or.inr ⟨hdrift, rfl, rfl⟩⟩
    rw [← htree p hhandles, get_indexed, hnothing]
    rfl

/-- The report is that of what the reconcile found. -/
theorem reconcileAndApply_report {deep : Bool} {reconciled : Fs.ReconcileReport}
    (h : pl.reconcileAndApply disk s deep = .ok (s', reconciled, report)) :
    reconciled = (pl.fs.reconcile disk s deep).1 := by
  unfold Pipeline.reconcileAndApply at h
  dsimp only at h
  split at h
  · obtain ⟨⟨t, build⟩, -, h⟩ := bind_eq_ok.mp h
    cases h
    rfl
  · cases h
    rfl

end Indexed

/-- **A deep reconcile heals everything.** Whatever a project went through, a deep
reconcile that succeeds leaves the nodes and edges of a cold build, and the next one
finds nothing, where the extractor handles code only and the imports of the state, if
nothing had drifted, resolve in the present tree as where they were last linked. -/
theorem deep_reconcile_heals {st : Stages C} {ex : Extractor C} {hash : C → ℕ} {pl : Pipeline C}
    {disk : Disk C} {prev : Source C} {s s' cold : GraphState} {reconciled : Fs.ReconcileReport}
    {report report' : BuildReport} (hex : ex.PerFile) (hno : ex.NoOverlay) (hunmixed : ex.Unmixed)
    (hinside : ex.TargetsInside) (hcode : ex.CodeOnly) (hlinks : pl.Links st ex hash)
    (hinj : Function.Injective hash) (hreach : GlobalReach st ex hash prev s)
    (hreadable : ∀ p f, disk[p]? = some f → pl.fs.inScope p = true → f.readable = true)
    (hlinked : (pl.fs.reconcile disk s true).1.hasDrift = false →
      s.importScope prev = s.importScope (pl.fs.source disk))
    (hrun : pl.reconcileAndApply disk s true = .ok (s', reconciled, report))
    (hcold : pl.build disk .empty = .ok (cold, report')) (hws : s'.workspace = cold.workspace) :
    (∀ n, n ∈ s'.graph.nodes ↔ n ∈ cold.graph.nodes) ∧
      (s'.graph.edges : Multiset Edge) = cold.graph.edges ∧
      ∀ deep, (pl.fs.reconcile disk s' deep).1.hasDrift = false ∧
        (pl.fs.reconcile disk s' deep).2 = ⟨[], [], []⟩ := by
  obtain ⟨tree, L, hs, hstamped⟩ := exists_rebuilt_stamped hex hno hunmixed hinside hreach
  obtain ⟨source', tree', L', hs', htree', hline, hsource⟩ := rebuilt_reconcile hex hno hunmixed
    hinside hcode hlinks hinj hs hstamped hreadable (Or.inl rfl) hrun
  have hs' : Ledger.Rebuilt ex (pl.fs.source disk) tree' L' s' := by
    rcases hsource with rfl | ⟨hdrift, rfl, rfl⟩
    · exact hs'
    · refine { hs' with linked := ?_ }
      have hctx : s'.ctx source' = s'.ctx (pl.fs.source disk) := by
        unfold GraphState.ctx
        rw [hlinked hdrift]
      rw [(Ledger.state_link_eq hno hs'.toReflects _).1,
        (Ledger.state_link_eq hno hs'.toReflects _).1] at hctx
      rw [hs'.linked, Ledger.linked, Ledger.linked, hctx]
  obtain ⟨⟨t, reconciled', build⟩, hcold, hreport⟩ := bind_eq_ok.mp hcold
  cases hreport
  obtain ⟨sourceCold, treeCold, LCold, hsCold, htreeCold, -, hsourceCold⟩ := rebuilt_reconcile hex
    hno hunmixed hinside hcode hlinks hinj (Ledger.rebuilt_empty ex (pl.fs.source disk))
    (fun p e he => by simp [GraphState.empty] at he) hreadable (Or.inr rfl) hcold
  have hsourceCold : sourceCold = pl.fs.source disk := hsourceCold.elim id fun h => h.2.1
  subst hsourceCold
  have hperm := Ledger.of_perm hs'.of hsCold.of fun p hhandles =>
    (htree' p hhandles).trans (htreeCold p hhandles).symm
  obtain ⟨hnodes, hedges⟩ := Ledger.sameGraph_of_rebuilt hex hs' hsCold hperm hws
  exact ⟨hnodes, hedges, hline.noDrift⟩

/-! ### Sample runs -/

namespace Snippet

/-- Sample files by number, under an extractor of the given handled kinds. -/
def numbered (files : List Snippet) (src : String → NodeId) (kind : String → String)
    (handled : ArtifactKind → Bool) : Extractor ℕ where
  handles a := handled a.kind
  extract a n := .ok (extraction defId src kind a.path (files.getD n (.plain "")))

theorem extracts_numbered (files : List Snippet) (src : String → NodeId) (kind : String → String)
    (handled : ArtifactKind → Bool) : Extracts (numbered files src kind handled) defId src kind := by
  rintro p x ⟨-, n, hn⟩
  exact ⟨_, (Except.ok.inj hn).symm⟩

/-- A pipeline over numbered files; the hash of a content is its number. -/
def healer (ex : Extractor ℕ) : Pipeline ℕ where
  fs := { inScope := fun _ => true, oxc := none, hash := id }
  stages := { parse := fun _ _ => ⟨none, none, []⟩, clusterWith := fun _ _ p => .ok p }
  extractor := ex
  shrinkGuard := false
  linkScope := .global
  clusterTiming := .inline

theorem links_healer (ex : Extractor ℕ) : (healer ex).Links (healer ex).stages ex id :=
  ⟨rfl, rfl, rfl, rfl⟩

/-- The listed files, saved with these contents. -/
def saved (files : List (String × ℕ)) : Disk ℕ :=
  BTreeMap.insertNew ∅ (files.map fun f => (f.1, ⟨f.2, some 1, true⟩))

theorem readable_saved (files : List (String × ℕ)) (p : String) (f : File ℕ)
    (h : (saved files)[p]? = some f) : f.readable = true := by
  rw [saved, BTreeMap.get_insertNew, Std.ExtTreeMap.getElem?_empty, Option.none_or] at h
  obtain ⟨g, hg, rfl⟩ := Option.map_eq_some_iff.mp h
  obtain ⟨f, -, rfl⟩ := List.mem_map.mp (List.mem_of_mem_filter (List.mem_of_mem_head? hg))
  rfl

/-- Apply changesets in turn, each over its files. -/
def applyAll (pl : Pipeline ℕ) : List (List (String × ℕ) × ChangeSet) → GraphState →
    Except Error GraphState
  | [], s => pure s
  | (files, changes) :: steps, s => do
    let (s, _) ← pl.apply (saved files) s changes
    applyAll pl steps s

theorem reach_applyAll {ex : Extractor ℕ} {steps : List (List (String × ℕ) × ChangeSet)}
    {prev : Source ℕ} {s s' : GraphState}
    (h : GlobalReach (healer ex).stages ex id prev s) (honce : ∀ a ∈ steps, a.2.touched.Nodup)
    (hrun : applyAll (healer ex) steps s = .ok s') :
    ∃ source, GlobalReach (healer ex).stages ex id source s' := by
  induction steps generalizing prev s with
  | nil => cases hrun; exact ⟨prev, h⟩
  | cons a steps ih =>
      obtain ⟨⟨t, report⟩, happly, hrun⟩ := bind_eq_ok.mp hrun
      exact ih (.apply h (links_healer ex) (honce a (by simp)) happly)
        (fun b hb => honce b (by simp [hb])) hrun

/-- Some applies, a deep reconcile, and a cold build: the state healed, the cold one, and
whether anything had drifted. -/
def heal (ex : Extractor ℕ) (steps : List (List (String × ℕ) × ChangeSet))
    (files : List (String × ℕ)) : Except Error (GraphState × GraphState × Bool) := do
  let s ← applyAll (healer ex) steps .empty
  let (healed, reconciled, _) ← (healer ex).reconcileAndApply (saved files) s true
  let (cold, _) ← (healer ex).build (saved files) .empty
  pure (healed, cold, reconciled.hasDrift)

/-- An import of a definition of another module. -/
def importer : Snippet :=
  ⟨"main", [], [(imports, "g", [("specifier", "./lib"), ("imported", "greet")])], []⟩

/-- An importer, two versions of what it imports, and a file that is not code. -/
def importers : Extractor ℕ :=
  numbered [importer, ⟨"greet", [], [], [.local "greet"]⟩, plain "other",
    ⟨"greet", [("a", "b")], [], [.local "greet"]⟩] defId (fun _ => "function") (· = .code)

theorem extracts_importers : Extracts importers defId defId fun _ => "function" :=
  @extracts_numbered _ _ _ _

theorem codeOnly_importers : importers.CodeOnly := by
  have hhandles : ∀ a, importers.handles a = decide (a.kind = .code) := fun _ => rfl
  intro p hp
  rw [hhandles] at hp
  rw [isIndexable, hp, Bool.true_or]

/-- Whether the two states heal leaves differ in nodes or edges, under one workspace. -/
def differ (r : GraphState × GraphState × Bool) : Bool :=
  decide (r.1.workspace = r.2.1.workspace) &&
    !decide ((∀ n ∈ r.1.graph.nodes, n ∈ r.2.1.graph.nodes) ∧
      (∀ n ∈ r.2.1.graph.nodes, n ∈ r.1.graph.nodes) ∧
      r.1.graph.edges.Perm r.2.1.graph.edges)

end Snippet

/-- `deep_reconcile_heals` where an edit was missed, and the file that an import resolves
to has just appeared. -/
theorem deep_reconcile_heals_sample : ∃ s s' cold reconciled report report',
    (∃ source, GlobalReach (Snippet.healer Snippet.importers).stages Snippet.importers id source s) ∧
    (Snippet.healer Snippet.importers).reconcileAndApply
      (Snippet.saved [("a.ts", 0), ("lib.ts", 3), ("lib", 2)]) s true
        = .ok (s', reconciled, report) ∧
    reconciled.hasDrift = true ∧
    (Snippet.healer Snippet.importers).build
      (Snippet.saved [("a.ts", 0), ("lib.ts", 3), ("lib", 2)]) .empty = .ok (cold, report') ∧
    (∀ n, n ∈ s'.graph.nodes ↔ n ∈ cold.graph.nodes) ∧
      (s'.graph.edges : Multiset Edge) = cold.graph.edges ∧
      ∀ deep, ((Snippet.healer Snippet.importers).fs.reconcile
          (Snippet.saved [("a.ts", 0), ("lib.ts", 3), ("lib", 2)]) s' deep).1.hasDrift = false ∧
        ((Snippet.healer Snippet.importers).fs.reconcile
          (Snippet.saved [("a.ts", 0), ("lib.ts", 3), ("lib", 2)]) s' deep).2 = ⟨[], [], []⟩ := by
  have hok : (Snippet.heal Snippet.importers
      [([("a.ts", 0), ("lib.ts", 1)], ⟨["a.ts", "lib.ts"], [], []⟩)]
      [("a.ts", 0), ("lib.ts", 3), ("lib", 2)]).map (fun r =>
        decide (r.2.2 = true ∧ r.1.workspace = r.2.1.workspace)) = .ok true := by
    decide +kernel
  obtain ⟨⟨s', cold, drift⟩, hheal, hok⟩ := map_eq_ok.mp hok
  obtain ⟨hdrift, hws⟩ : drift = true ∧ s'.workspace = cold.workspace := of_decide_eq_true hok
  obtain ⟨s, happlied, hheal⟩ := bind_eq_ok.mp hheal
  obtain ⟨⟨t, reconciled, report⟩, hrun, hheal⟩ := bind_eq_ok.mp hheal
  obtain ⟨⟨t', report'⟩, hcold, hheal⟩ := bind_eq_ok.mp hheal
  cases hheal
  obtain ⟨source, hreach⟩ := Snippet.reach_applyAll
    (.empty ((Snippet.healer Snippet.importers).fs.source ∅)) (by simp [ChangeSet.touched]) happlied
  refine ⟨s, s', cold, reconciled, report, report', ⟨source, hreach⟩, hrun, hdrift, hcold,
    deep_reconcile_heals (Snippet.extracts_importers.perFile fun _ => Or.inl rfl)
      Snippet.extracts_importers.noOverlay
      (Snippet.extracts_importers.unmixed fun p => Snippet.defId_ne_fileId p p)
      Snippet.extracts_importers.targetsInside Snippet.codeOnly_importers (Snippet.links_healer _)
      Function.injective_id hreach (fun p f hf _ => Snippet.readable_saved _ p f hf)
      (fun hnone => ?_) hrun hcold hws⟩
  -- the edit of `lib.ts` is found, so everything is linked anew
  rw [← reconcileAndApply_report hrun, hdrift] at hnone
  cases hnone

/-- An extractor of stamped nodes, unique ids and structural targets inside the file,
with a run that a deep reconcile does not bring to its cold build. -/
def BreaksHeal (ex : Extractor ℕ) : Prop :=
  ex.PerFile ∧ ex.UniqueIds ∧ ex.TargetsInside ∧ ∃ source s disk s' cold reconciled report report',
    GlobalReach (Snippet.healer ex).stages ex id source s ∧
    (∀ p f, disk[p]? = some f → (Snippet.healer ex).fs.inScope p = true → f.readable = true) ∧
    (Snippet.healer ex).reconcileAndApply disk s true = .ok (s', reconciled, report) ∧
    (Snippet.healer ex).build disk .empty = .ok (cold, report') ∧ s'.workspace = cold.workspace ∧
    ¬ ((∀ n, n ∈ s'.graph.nodes ↔ n ∈ cold.graph.nodes) ∧
      (s'.graph.edges : Multiset Edge) = cold.graph.edges)

theorem breaksHeal_of_differ {files : List Snippet} {src : String → NodeId}
    {kind : String → String} {handled : ArtifactKind → Bool}
    {steps : List (List (String × ℕ) × ChangeSet)} {disk : List (String × ℕ)}
    (hsrc : ∀ p, src p = Snippet.defId p ∨ src p = Snippet.fileId p)
    (honce : ∀ a ∈ steps, a.2.touched.Nodup)
    (h : (Snippet.heal (Snippet.numbered files src kind handled) steps disk).map Snippet.differ
      = .ok true) : BreaksHeal (Snippet.numbered files src kind handled) := by
  have hext := @Snippet.extracts_numbered files src kind handled
  obtain ⟨⟨s', cold, drift⟩, hheal, hdiffer⟩ := map_eq_ok.mp h
  obtain ⟨s, happlied, hheal⟩ := bind_eq_ok.mp hheal
  obtain ⟨⟨t, reconciled, report⟩, hrun, hheal⟩ := bind_eq_ok.mp hheal
  obtain ⟨⟨t', report'⟩, hcold, hheal⟩ := bind_eq_ok.mp hheal
  cases hheal
  obtain ⟨hws, hdiffer⟩ := (Bool.and_eq_true_iff ..).mp hdiffer
  obtain ⟨source, hreach⟩ := Snippet.reach_applyAll
    (.empty ((Snippet.healer (Snippet.numbered files src kind handled)).fs.source ∅))
    honce happlied
  refine ⟨hext.perFile hsrc, hext.uniqueIds, hext.targetsInside, source, s, _, s', cold,
    reconciled, report, report', hreach, fun p f hf _ => Snippet.readable_saved _ p f hf, hrun,
    hcold, of_decide_eq_true hws, fun hsame => ?_⟩
  have hsame : (∀ n ∈ s'.graph.nodes, n ∈ cold.graph.nodes) ∧
      (∀ n ∈ cold.graph.nodes, n ∈ s'.graph.nodes) ∧ s'.graph.edges.Perm cold.graph.edges :=
    ⟨fun n => (hsame.1 n).mp, fun n => (hsame.1 n).mpr, Multiset.coe_eq_coe.mp hsame.2⟩
  rw [decide_eq_true hsame] at hdiffer
  cases hdiffer

/-- A deep reconcile leaves the links as they are when the only file that appeared is one
it does not check, although an import now resolves to it. It does not bring a state to
its cold build either where a site carries a structural and a symbolic edge, where a
definition has the kind `project`, or where the extractor handles files that are not code. -/
theorem deep_reconcile_leaves :
    BreaksHeal Snippet.importers ∧
    BreaksHeal (Snippet.numbered [⟨"g", [], [(contains, "g", [])], []⟩] Snippet.fileId
      (fun _ => "function") (· = .code)) ∧
    BreaksHeal (Snippet.numbered [.plain "f"] Snippet.defId (fun _ => "project") (· = .code)) ∧
    BreaksHeal (Snippet.numbered [.plain "f"] Snippet.defId (fun _ => "function")
      (fun _ => true)) := by
  refine ⟨breaksHeal_of_differ (fun _ => Or.inl rfl) ?_
      (?_ : (Snippet.heal _ [([("a.ts", 0), ("lib.ts", 1)], ⟨["a.ts", "lib.ts"], [], []⟩)]
        [("a.ts", 0), ("lib.ts", 1), ("lib", 2)]).map _ = _),
    breaksHeal_of_differ (fun _ => Or.inr rfl) ?_
      (?_ : (Snippet.heal _ [([("a.ts", 0)], ⟨["a.ts"], [], []⟩), ([("a.ts", 0)], ⟨[], [], []⟩)]
        [("a.ts", 0)]).map _ = _),
    breaksHeal_of_differ (fun _ => Or.inl rfl) ?_
      (?_ : (Snippet.heal _ [([("a.ts", 0)], ⟨["a.ts"], [], []⟩), ([("a.ts", 0)], ⟨[], [], []⟩)]
        [("a.ts", 0)]).map _ = _),
    breaksHeal_of_differ (fun _ => Or.inl rfl) ?_
      (?_ : (Snippet.heal _ [([("a.md", 0)], ⟨["a.md"], [], []⟩)] [("a.md", 0)]).map _ = _)⟩
  all_goals decide +kernel

end Filigrio
