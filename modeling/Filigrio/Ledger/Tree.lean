import Filigrio.Ledger.References

/-!
# Filigrio.Ledger.Tree

Runs over a file tree. A tree maps the existing paths to their contents; each
changeset names what changed, once, and the source of an apply holds the tree of
that moment. The ledger of a run then lists exactly the handled files of the
current tree: it no longer remembers how the tree came about.
-/

namespace Filigrio

variable {C : Type}

/-! ### Folding the vanished paths -/

section Fold

variable {changes : ChangeSet} {source : Source C} {p : String}

/-- Folding keeps the paths to index that exist. -/
theorem toIndex_foldVanished (changes : ChangeSet) (source : Source C) :
    (foldVanished changes source).1.toIndex = changes.toIndex.filter source.exists := by
  unfold foldVanished
  dsimp only
  split
  · simp only [ChangeSet.toIndex, List.filter_append]
  · rename_i hnone
    refine (List.filter_eq_self.mpr fun p hp => ?_).symm
    by_contra hp'
    exact hnone (List.any_eq_true.mpr ⟨p, hp, by simpa using hp'⟩)

theorem removed_foldVanished (changes : ChangeSet) (source : Source C) :
    (foldVanished changes source).1.removed
      = changes.removed ++ changes.toIndex.filter fun p => !source.exists p := by
  unfold foldVanished
  dsimp only
  split
  · rfl
  · rename_i hnone
    have hnil : changes.toIndex.filter (fun p => !source.exists p) = [] :=
      List.filter_eq_nil_iff.mpr fun p hp hgone => hnone (List.any_eq_true.mpr ⟨p, hp, hgone⟩)
    rw [hnil, List.append_nil]

theorem mem_touched_foldVanished :
    p ∈ (foldVanished changes source).1.touched ↔ p ∈ changes.touched := by
  rw [ChangeSet.mem_touched, ChangeSet.mem_touched, toIndex_foldVanished, removed_foldVanished,
    List.mem_filter, List.mem_append, List.mem_filter]
  cases source.exists p <;> simp [or_comm]

/-- After an apply removed paths have no entry, indexed ones a stub. -/
theorem get_maintainManifest {prior : Manifest} :
    (maintainManifest prior changes).entries[p]? = if p ∈ changes.removed then none
      else if p ∈ changes.toIndex then some ⟨0, none, none⟩ else prior.entries[p]? := by
  rw [maintainManifest, BTreeMap.get_foldl_erase, BTreeMap.get_insertAll_map]

/-- After an apply the manifest lists exactly the prior and indexed paths that are
not removed. -/
theorem mem_maintainManifest {prior : Manifest} :
    p ∈ (maintainManifest prior changes).entries ↔
      (p ∈ changes.toIndex ∨ p ∈ prior.entries) ∧ p ∉ changes.removed := by
  rw [Std.ExtTreeMap.mem_iff_isSome_getElem?, get_maintainManifest,
    Std.ExtTreeMap.mem_iff_isSome_getElem?]
  by_cases hremoved : p ∈ changes.removed
  · simp [hremoved]
  · by_cases hp : p ∈ changes.toIndex <;> simp [hremoved, hp]

end Fold

/-! ### Trees -/

/-- The existing files and their contents. -/
abbrev Tree (C : Type) := BTreeMap String C

/-- The source holds exactly the files of the tree. -/
structure Holds (source : Source C) (tree : Tree C) : Prop where
  «exists» : ∀ p, source.exists p = tree[p]?.isSome
  read : ∀ p c, tree[p]? = some c → source.read p = .ok c

/-- The source shows the paths to index as they are in the tree. -/
structure Indexes (source : Source C) (changes : ChangeSet) (tree : Tree C) : Prop where
  «exists» : ∀ p ∈ changes.toIndex, source.exists p = tree[p]?.isSome
  read : ∀ p ∈ changes.toIndex, source.exists p = true → ∀ c, source.read p = .ok c →
    tree[p]? = some c

theorem Holds.indexes {source : Source C} {tree : Tree C} (h : Holds source tree)
    (changes : ChangeSet) : Indexes source changes tree where
  «exists» p _ := h.exists p
  read p _ hp c hread := by
    rw [h.exists] at hp
    obtain ⟨c', hc'⟩ := Option.isSome_iff_exists.mp hp
    cases (h.read p c' hc').symm.trans hread
    exact hc'

/-- The changeset names each path once, every path whose content or existence
changed, and lists as removed only paths that are gone. -/
structure Names (changes : ChangeSet) (tree tree' : Tree C) : Prop where
  once : changes.touched.Nodup
  changed : ∀ p, tree[p]? ≠ tree'[p]? → p ∈ changes.touched
  removed : ∀ p ∈ changes.removed, tree'[p]? = none

/-- Runs of global applies over a changing tree, from nothing. -/
inductive TreeRun (st : Stages C) (ex : Extractor C) : Source C → Tree C → GraphState → Prop
  | empty (source : Source C) : TreeRun st ex source ∅ GraphState.empty
  | apply {prev source : Source C} {tree tree' : Tree C} {s : GraphState} {changes : ChangeSet}
      {timing : ClusterTiming} {δ : GraphDelta} :
      TreeRun st ex prev tree s → Names changes tree tree' → Holds source tree' →
      Engine.applyWith st s changes source ex .global timing = .ok δ →
      TreeRun st ex source tree' (merge s δ)

/-- The whole tree as an all-added changeset, in sorted order. -/
def coldChanges (tree : Tree C) : ChangeSet := .allAdded tree.keys

theorem names_coldChanges (tree : Tree C) : Names (coldChanges tree) ∅ tree where
  once := by
    have hkeys : tree.keys.Nodup := Std.ExtTreeMap.distinct_keys.imp fun h heq =>
      h (compare_eq_iff_eq.mpr heq)
    simpa [coldChanges, ChangeSet.allAdded, ChangeSet.touched] using hkeys
  changed p hp := by
    have hmem : p ∈ tree.keys := by
      rw [Std.ExtTreeMap.mem_keys]
      by_contra hnot
      exact hp (by simp [hnot])
    simp only [ChangeSet.touched, coldChanges, ChangeSet.allAdded, List.append_nil]
    exact hmem
  removed p hp := by cases hp

namespace Ledger

/-- The ledger lists each file once, and exactly the handled files of the tree. -/
structure Of (ex : Extractor C) (tree : Tree C) (L : Ledger) : Prop where
  nodup : (L.map Prod.fst).Nodup
  mem : ∀ f, f ∈ L ↔ ∃ c, tree[f.1]? = some c ∧ ex.handles (classify f.1) = true ∧
    ex.extract (classify f.1) c = .ok f.2

theorem of_empty (ex : Extractor C) : Of ex ∅ [] where
  nodup := List.nodup_nil
  mem f := by simp

variable {st : Stages C} {ex : Extractor C} {L : Ledger} {s : GraphState} {changes : ChangeSet}
  {source : Source C} {fx : FrontExtract} {files : List Contribution} {tree tree' : Tree C}

theorem extractFiles_sublist {paths : List String}
    (h : extractFiles source ex paths = .ok files) : (files.map Prod.fst).Sublist paths := by
  induction paths generalizing files with
  | nil => cases h; exact List.Sublist.slnil
  | cons path paths ih =>
      unfold extractFiles at h
      split at h
      · obtain ⟨c, -, h⟩ := bind_eq_ok.mp h
        obtain ⟨x, -, h⟩ := bind_eq_ok.mp h
        obtain ⟨rest, hrest, h⟩ := bind_eq_ok.mp h
        cases h
        exact (ih hrest).cons_cons path
      · exact (ih h).cons path

/-- Every handled path of a successful extraction is listed. -/
theorem exists_mem_extractFiles {paths : List String}
    (h : extractFiles source ex paths = .ok files) {p : String} (hp : p ∈ paths)
    (hhandles : ex.handles (classify p) = true) : ∃ f ∈ files, f.1 = p := by
  induction paths generalizing files with
  | nil => cases hp
  | cons path paths ih =>
      unfold extractFiles at h
      split at h
      · obtain ⟨c, -, h⟩ := bind_eq_ok.mp h
        obtain ⟨x, -, h⟩ := bind_eq_ok.mp h
        obtain ⟨rest, hrest, h⟩ := bind_eq_ok.mp h
        cases h
        rcases List.mem_cons.mp hp with rfl | hp
        · exact ⟨(p, x), by simp, rfl⟩
        · obtain ⟨f, hf, hfile⟩ := ih hrest hp
          exact ⟨f, List.mem_cons_of_mem _ hf, hfile⟩
      · rename_i hnot
        rcases List.mem_cons.mp hp with rfl | hp
        · exact absurd hhandles hnot
        · exact ih h hp

/-- A step of the tree is a step of the ledger. -/
theorem of_step (hf : FrontOk st s changes source ex fx files) (hnames : Names changes tree tree')
    (hindexes : Indexes source changes tree') (hL : Of ex tree L) :
    Of ex tree' (step fx.changes.touched files L) where
  nodup := by
    have htoIndex : fx.changes.toIndex.Nodup := by
      rw [hf.changes, toIndex_foldVanished]
      exact (List.Nodup.of_append_left hnames.once).filter _
    have hfiles : (files.map Prod.fst).Nodup := (extractFiles_sublist hf.extract).nodup htoIndex
    have hkept : ((L.filter fun f => f.1 ∉ fx.changes.touched).map Prod.fst).Nodup :=
      (List.filter_sublist.map Prod.fst).nodup hL.nodup
    rw [step, List.map_append]
    refine List.nodup_append'.mpr ⟨hkept, hfiles, fun p hp hp' => ?_⟩
    obtain ⟨f, hmem, rfl⟩ := List.mem_map.mp hp
    obtain ⟨f', hmem', heq⟩ := List.mem_map.mp hp'
    exact of_decide_eq_true (List.mem_filter.mp hmem).2 (heq ▸ touched_of_mem_files hf hmem')
  mem f := by
    have htouched : f.1 ∈ fx.changes.touched ↔ f.1 ∈ changes.touched := by
      rw [hf.changes, mem_touched_foldVanished]
    have hindexed : ∀ p, p ∈ fx.changes.toIndex ↔ p ∈ changes.toIndex ∧ source.exists p = true :=
      fun p => by rw [hf.changes, toIndex_foldVanished, List.mem_filter]
    have hfiles : ∀ g, g ∈ files → ∃ c, tree'[g.1]? = some c ∧
        ex.handles (classify g.1) = true ∧ ex.extract (classify g.1) c = .ok g.2 := by
      intro g hg
      obtain ⟨hlisted, hhandles, c, hread, hextract⟩ := (mem_extractFiles hf.extract).mp hg
      obtain ⟨hlisted, hexists⟩ := (hindexed g.1).mp hlisted
      exact ⟨c, hindexes.read _ hlisted hexists c hread, hhandles, hextract⟩
    rw [mem_step, hL.mem, htouched]
    constructor
    · rintro (⟨hmem, huntouched⟩ | hmem)
      · have hsame : tree[f.1]? = tree'[f.1]? := by
          by_contra h; exact huntouched (hnames.changed _ h)
        exact hsame ▸ hmem
      · exact hfiles f hmem
    · rintro ⟨c, hc, hhandles, hextract⟩
      by_cases htouched : f.1 ∈ changes.touched
      · have hlisted : f.1 ∈ changes.toIndex := by
          rcases ChangeSet.mem_touched.mp htouched with h | h
          · exact h
          · rw [hnames.removed _ h] at hc; cases hc
        have hexists : source.exists f.1 = true := by rw [hindexes.exists _ hlisted, hc]; rfl
        -- the file is read once more, and is what the tree has
        obtain ⟨g, hg, hfile⟩ :=
          exists_mem_extractFiles hf.extract ((hindexed f.1).mpr ⟨hlisted, hexists⟩) hhandles
        obtain ⟨c', hc', -, hextract'⟩ := hfiles g hg
        rw [hfile] at hc' hextract'
        cases hc.symm.trans hc'
        have hsame : g = f := Prod.ext hfile (Except.ok.inj (hextract'.symm.trans hextract))
        exact Or.inr (hsame ▸ hg)
      · have hsame : tree[f.1]? = tree'[f.1]? := by
          by_contra h; exact htouched (hnames.changed _ h)
        exact Or.inl ⟨⟨c, hsame.trans hc, hhandles, hextract⟩, htouched⟩

/-- Two ledgers of trees with the same handled files are permutations of each other. -/
theorem of_perm {L' : Ledger} (h : Of ex tree L) (h' : Of ex tree' L')
    (hsame : ∀ p, ex.handles (classify p) = true → tree[p]? = tree'[p]?) : L.Perm L' := by
  refine (List.perm_ext_iff_of_nodup h.nodup.of_map h'.nodup.of_map).mpr fun f => ?_
  rw [h.mem, h'.mem]
  constructor
  · rintro ⟨c, hc, hhandles, hextract⟩
    exact ⟨c, hsame f.1 hhandles ▸ hc, hhandles, hextract⟩
  · rintro ⟨c, hc, hhandles, hextract⟩
    exact ⟨c, (hsame f.1 hhandles).symm ▸ hc, hhandles, hextract⟩

end Ledger

/-! ### Sample trees -/

namespace Snippet

/-- The tree of a list of files, an earlier entry of a path hiding a later one. -/
def tree (files : List (String × Snippet)) : Tree Snippet := BTreeMap.insertNew ∅ files

theorem get_tree (files : List (String × Snippet)) (p : String) :
    (tree files)[p]? = files.lookup p := by
  rw [tree, BTreeMap.get_insertNew, Std.ExtTreeMap.getElem?_empty, Option.none_or]
  induction files with
  | nil => rfl
  | cons f files ih =>
      by_cases hp : f.1 = p
      · subst hp; simp [List.lookup]
      · have hne : (p == f.1) = false := by simpa using fun h : p = f.1 => hp h.symm
        rw [List.filter_cons_of_neg (by simpa using hp), ih, List.lookup_cons, hne]

theorem holds_source (files : List (String × Snippet)) : Holds (source files) (tree files) where
  «exists» p := by rw [get_tree]; rfl
  read p c hc := by
    rw [get_tree] at hc
    simp only [source, hc]

/-- Adding one file. -/
theorem names_add (files : List (String × Snippet)) (p : String) (s : Snippet) :
    Names ⟨[p], [], []⟩ (tree files) (tree (files ++ [(p, s)])) where
  once := by simp [ChangeSet.touched]
  changed q hq := by
    by_contra hne
    have hqp : (q == p) = false := by simpa [ChangeSet.touched] using hne
    refine hq ?_
    rw [get_tree, get_tree, List.lookup_append, List.lookup_cons, hqp]
    simp
  removed q hq := by cases hq

/-- Nothing changed. -/
theorem names_nothing (t : Tree Snippet) : Names ⟨[], [], []⟩ t t where
  once := List.nodup_nil
  changed p h := absurd rfl h
  removed p hp := by cases hp

/-- Editing one file. -/
theorem names_edit (files : List (String × Snippet)) (p : String) (s s' : Snippet) :
    Names ⟨[], [p], []⟩ (tree (files ++ [(p, s)])) (tree (files ++ [(p, s')])) where
  once := by simp [ChangeSet.touched]
  changed q hq := by
    by_contra hne
    have hqp : (q == p) = false := by simpa [ChangeSet.touched] using hne
    refine hq ?_
    rw [get_tree, get_tree, List.lookup_append, List.lookup_append, List.lookup_cons,
      List.lookup_cons, hqp]
  removed q hq := by cases hq

/-- Removing one file. -/
theorem names_drop (files : List (String × Snippet)) (p : String) (s : Snippet)
    (hp : files.lookup p = none) :
    Names ⟨[], [], [p]⟩ (tree (files ++ [(p, s)])) (tree files) where
  once := by simp [ChangeSet.touched]
  changed q hq := by
    by_contra hne
    have hqp : (q == p) = false := by simpa [ChangeSet.touched] using hne
    refine hq ?_
    rw [get_tree, get_tree, List.lookup_append, List.lookup_cons, hqp]
    simp
  removed q hq := by
    cases List.mem_singleton.mp hq
    rw [get_tree, hp]

end Snippet

end Filigrio
