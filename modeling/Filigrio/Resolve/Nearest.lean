import Filigrio.Lib.Nearest
import Filigrio.Resolve.Projects

/-!
# Filigrio.Resolve.Nearest

The nearest project of a path has two implementations: `Workspace.projectOf` probes
the ancestors of the path, longest first, in the ordered map of the projects;
`SourceModuleResolver.rootOf` scans the list of roots and keeps the longest one that
matches. Both find the project with the longest root that is a prefix of the path
component by component (`Workspace.IsNearest`), given that the map is keyed by root,
which `maintainWorkspace` keeps.
-/

namespace Filigrio

open Nearest (Above)

namespace Workspace

/-! ### Keyed by root -/

/-- Every project stands under its own root. -/
def Keyed (w : Workspace) : Prop :=
  ∀ (r : String) (p : Project), w.projects[r]? = some p → p.root = r

theorem keyed_empty : Keyed ⟨∅⟩ := by
  intro r p h
  simp at h

theorem Keyed.erase {m : BTreeMap String Project} (h : Keyed ⟨m⟩) (root : String) :
    Keyed ⟨m.erase root⟩ := by
  intro r p hp
  rw [BTreeMap.get_erase] at hp
  split at hp
  · cases hp
  · exact h r p hp

theorem Keyed.insert {m : BTreeMap String Project} (h : Keyed ⟨m⟩) (p : Project) :
    Keyed ⟨m.insert p.root p⟩ := by
  intro r q hq
  rw [BTreeMap.get_insert] at hq
  split at hq
  · rename_i heq
    cases hq
    exact heq
  · exact h r q hq

theorem keyed_dropManifests {m : BTreeMap String Project} (h : Keyed ⟨m⟩)
    (paths : List String) : Keyed ⟨dropManifests m paths⟩ := by
  induction paths generalizing m with
  | nil => exact h
  | cons path paths ih =>
      rw [dropManifests, List.foldl_cons]
      split
      · exact ih (h.erase (dirOf path))
      · exact ih h

theorem keyed_insertManifests {C : Type} {st : Stages C} {source : Source C}
    {m m' : BTreeMap String Project} {paths : List String} (h : Keyed ⟨m⟩)
    (hins : insertManifests st source m paths = .ok m') : Keyed ⟨m'⟩ := by
  induction paths generalizing m with
  | nil =>
      cases hins
      exact h
  | cons path paths ih =>
      rw [insertManifests, List.foldlM_cons, bind_eq_ok] at hins
      obtain ⟨next, hnext, hrest⟩ := hins
      refine ih (m := next) ?_ hrest
      cases hbase : manifestBasename path with
      | none =>
          simp only [hbase] at hnext
          cases hnext
          exact h
      | some base =>
          simp only [hbase, bind_eq_ok] at hnext
          obtain ⟨bytes, -, hnext⟩ := hnext
          cases hnext
          exact h.insert (projectFrom st path base bytes)

/-- The maintained workspace stays keyed by root. -/
theorem keyed_maintainWorkspace {C : Type} {st : Stages C} {prior w : Workspace}
    {changes : ChangeSet} {source : Source C} (h : prior.Keyed)
    (hw : maintainWorkspace st prior changes source = .ok w) : w.Keyed := by
  rw [maintainWorkspace, bind_eq_ok] at hw
  obtain ⟨projects, hins, hw⟩ := hw
  cases hw
  exact keyed_insertManifests (keyed_dropManifests h _) hins

/-! ### What the nearest project is -/

/-- The root holds the path: it is the repository root, or its components are the
first components of the path. -/
def Holds (root path : String) : Prop :=
  root = "" ∨ Text.split root "/" <+: Text.split path "/"

/-- The project with the longest root that holds the path. -/
structure IsNearest (w : Workspace) (path : String) (p : Project) : Prop where
  mem : p ∈ w.values
  holds : Holds p.root path
  longest : ∀ q ∈ w.values, Holds q.root path → q.root.length ≤ p.root.length

/-- Is `path` inside project `root` (or is the root itself)? -/
def pathUnder (path root : String) : Bool :=
  decide (root = "") || decide (path = root)
    || (Text.stripPrefix path root).any fun rest => Text.startsWith rest "/"

/-- The lookup as a scan over every project, keeping the longest matching root. -/
def projectOfByScan (w : Workspace) (path : String) : Option Project :=
  Nearest.lastMax (fun p => p.root.length) (w.values.filter fun p => pathUnder path p.root)

theorem holds_iff {root path : String} : Holds root path ↔ root = "" ∨ Above '/' root path := by
  rw [Holds, show ("/" : String) = String.singleton '/' from rfl, Nearest.split_prefix_split]

/-- Two roots that hold one path differ in length. -/
theorem Holds.eq_of_length {r r' path : String} (h : Holds r path) (h' : Holds r' path)
    (hlen : r.length = r'.length) : r = r' := by
  rw [holds_iff] at h h'
  rcases h with rfl | h
  · exact (String.length_eq_zero_iff.mp hlen.symm).symm
  · rcases h' with rfl | h'
    · exact String.length_eq_zero_iff.mp hlen
    · exact h.eq_of_length h' hlen

theorem mem_values {w : Workspace} {p : Project} :
    p ∈ w.values ↔ ∃ r : String, w.projects[r]? = some p := by
  rw [values, ← BTreeMap.values_eq, BTreeMap.mem_values]

theorem Keyed.mem_values {w : Workspace} (hw : w.Keyed) {p : Project} :
    p ∈ w.values ↔ w.projects[p.root]? = some p := by
  rw [Workspace.mem_values]
  constructor
  · rintro ⟨r, hr⟩
    have hroot : p.root = r := hw r p hr
    rw [hroot]
    exact hr
  · intro h
    exact ⟨p.root, h⟩

/-- One path has one nearest project. -/
theorem IsNearest.unique {w : Workspace} (hw : w.Keyed) {path : String} {p q : Project}
    (hp : w.IsNearest path p) (hq : w.IsNearest path q) : p = q := by
  have hlen := Nat.le_antisymm (hq.longest p hp.mem hp.holds) (hp.longest q hq.mem hq.holds)
  have hroot := hp.holds.eq_of_length hq.holds hlen
  have hp' := hw.mem_values.mp hp.mem
  have hq' := hw.mem_values.mp hq.mem
  rw [hroot, hq'] at hp'
  exact (Option.some.inj hp').symm

/-! ### The scans -/

theorem isUnder_iff {path dir : String} :
    isUnder path dir = true ↔ ∃ t, path.toList = dir.toList ++ '/' :: t := by
  rw [isUnder, Text.startsWith, List.isPrefixOf_iff_prefix, String.toList_append]
  constructor
  · rintro ⟨t, ht⟩
    exact ⟨t, by simpa using ht.symm⟩
  · rintro ⟨t, ht⟩
    exact ⟨t, by simp [ht]⟩

theorem pathUnder_iff {path root : String} : pathUnder path root = true ↔ Holds root path := by
  have hstrip : ((Text.stripPrefix path root).any fun rest => Text.startsWith rest "/") = true
      ↔ ∃ t, path.toList = root.toList ++ '/' :: t := by
    rw [Text.stripPrefix, Text.startsWith]
    constructor
    · intro h
      split at h
      · rename_i hpre
        obtain ⟨rest, hrest⟩ := List.isPrefixOf_iff_prefix.mp hpre
        rw [← hrest, List.drop_left, Option.any_some, Text.startsWith,
          List.isPrefixOf_iff_prefix, String.toList_ofList] at h
        obtain ⟨t, ht⟩ := h
        exact ⟨t, by rw [← hrest, ← String.toList_ofList (l := rest), ← ht]; rfl⟩
      · cases h
    · rintro ⟨t, ht⟩
      simp [ht, Text.startsWith, List.isPrefixOf_iff_prefix]
  rw [holds_iff, pathUnder, Above]
  simp only [Bool.or_eq_true, decide_eq_true_eq, hstrip, or_assoc, eq_comm (a := path)]

/-- The scan finds the nearest project. -/
theorem projectOfByScan_eq_some {w : Workspace} (hw : w.Keyed) {path : String} {p : Project} :
    w.projectOfByScan path = some p ↔ w.IsNearest path p := by
  have hmem : ∀ q, q ∈ w.values.filter (fun q => pathUnder path q.root)
      ↔ q ∈ w.values ∧ Holds q.root path := by
    intro q
    rw [List.mem_filter, pathUnder_iff]
  constructor
  · intro h
    obtain ⟨hp, hmax⟩ := Nearest.lastMax_spec h
    have hp := (hmem p).mp hp
    exact ⟨hp.1, hp.2, fun q hq hholds => hmax q ((hmem q).mpr ⟨hq, hholds⟩)⟩
  · intro h
    cases hscan : w.projectOfByScan path with
    | none =>
        have hnil := Nearest.lastMax_eq_none.mp hscan
        have hin := (hmem p).mpr ⟨h.mem, h.holds⟩
        rw [hnil] at hin
        cases hin
    | some q =>
        obtain ⟨hq, hmax⟩ := Nearest.lastMax_spec hscan
        have hq := (hmem q).mp hq
        have hnear : w.IsNearest path q :=
          ⟨hq.1, hq.2, fun q' hq' hholds => hmax q' ((hmem q').mpr ⟨hq', hholds⟩)⟩
        rw [hnear.unique hw h]

/-- The resolver's roots are the roots of the projects. -/
theorem mem_roots {w : Workspace} {fileExists : String → Bool} {r : String} :
    r ∈ (SourceModuleResolver.fromWorkspace fileExists w).roots
      ↔ ∃ p, w.projects[r]? = some p := by
  rw [SourceModuleResolver.fromWorkspace]
  simp only [Std.ExtTreeMap.mem_keys]
  rw [Std.ExtTreeMap.mem_iff_isSome_getElem?, Option.isSome_iff_exists]

/-- The resolver's scan over the roots finds the root of the nearest project. -/
theorem rootOf_eq_some {w : Workspace} (hw : w.Keyed) {fileExists : String → Bool}
    {path r : String} :
    (SourceModuleResolver.fromWorkspace fileExists w).rootOf path = some r
      ↔ ∃ p, w.IsNearest path p ∧ p.root = r := by
  have hscan : (SourceModuleResolver.fromWorkspace fileExists w).rootOf path
      = Nearest.lastMax String.length
        ((SourceModuleResolver.fromWorkspace fileExists w).roots.filter fun r =>
          r = "" || path = r || isUnder path r) := by
    unfold SourceModuleResolver.rootOf Nearest.lastMax
    congr 1
    funext best r
    cases best <;> rfl
  have hmem : ∀ r, r ∈ (SourceModuleResolver.fromWorkspace fileExists w).roots.filter
      (fun r => r = "" || path = r || isUnder path r)
      ↔ (∃ p, w.projects[r]? = some p) ∧ Holds r path := by
    intro r
    rw [List.mem_filter, mem_roots, holds_iff, Above]
    simp only [Bool.or_eq_true, decide_eq_true_eq, isUnder_iff, or_assoc, eq_comm (a := path)]
  have hinj : ∀ r ∈ (SourceModuleResolver.fromWorkspace fileExists w).roots.filter
      (fun r => r = "" || path = r || isUnder path r),
      ∀ r' ∈ (SourceModuleResolver.fromWorkspace fileExists w).roots.filter
        (fun r => r = "" || path = r || isUnder path r), r.length = r'.length → r = r' := by
    intro r hr r' hr' hlen
    exact ((hmem r).mp hr).2.eq_of_length ((hmem r').mp hr').2 hlen
  rw [hscan, Nearest.lastMax_eq_some hinj, hmem]
  constructor
  · rintro ⟨⟨⟨p, hp⟩, hholds⟩, hmax⟩
    have hroot := hw r p hp
    refine ⟨p, ⟨mem_values.mpr ⟨r, hp⟩, by rw [hroot]; exact hholds, fun q hq hqh => ?_⟩, hroot⟩
    rw [hroot]
    exact hmax q.root ((hmem q.root).mpr ⟨⟨q, hw.mem_values.mp hq⟩, hqh⟩)
  · rintro ⟨p, hp, rfl⟩
    refine ⟨⟨⟨p, hw.mem_values.mp hp.mem⟩, hp.holds⟩, fun r hr => ?_⟩
    obtain ⟨⟨q, hq⟩, hqh⟩ := (hmem r).mp hr
    have hroot := hw r q hq
    rw [← hroot] at hqh ⊢
    exact hp.longest q (mem_values.mpr ⟨r, hq⟩) hqh

/-! ### The probe -/

/-- What the probe asks for are the roots that hold the path. -/
theorem mem_probed {path dir : String} :
    dir ∈ path :: Text.cuts path '/' ++ [""] ↔ Holds dir path := by
  rw [holds_iff, Above, List.mem_append, List.mem_cons, Nearest.mem_cuts, List.mem_singleton]
  tauto

/-- The probe goes from the longest candidate to the shortest. -/
theorem probed_sorted (path : String) :
    (path :: Text.cuts path '/' ++ [""]).Pairwise fun r r' => r'.length ≤ r.length := by
  rw [List.pairwise_append, List.pairwise_cons]
  refine ⟨⟨fun r hr => (Nearest.length_lt_of_mem_cuts hr).le, ?_⟩, by simp, by simp⟩
  exact (Nearest.cuts_sorted path '/').imp Nat.le_of_lt

theorem isNearest_of_projectOf {w : Workspace} (hw : w.Keyed) {path : String} {p : Project}
    (h : w.projectOf path = some p) : w.IsNearest path p := by
  obtain ⟨dir, hmem, hdir, hlongest⟩ := Nearest.exists_longest (probed_sorted path) h
  have hroot : p.root = dir := hw dir p hdir
  refine ⟨mem_values.mpr ⟨dir, hdir⟩, by rw [hroot]; exact mem_probed.mp hmem, ?_⟩
  intro q hq hqh
  rw [hroot]
  refine hlongest q.root (mem_probed.mpr hqh) ?_
  rw [hw.mem_values.mp hq]
  rfl

/-- The probe finds the nearest project. -/
theorem projectOf_eq_some {w : Workspace} (hw : w.Keyed) {path : String} {p : Project} :
    w.projectOf path = some p ↔ w.IsNearest path p := by
  refine ⟨isNearest_of_projectOf hw, fun h => ?_⟩
  cases hprobe : w.projectOf path with
  | none =>
      have hmiss := List.findSome?_eq_none_iff.mp hprobe p.root (mem_probed.mpr h.holds)
      rw [hw.mem_values.mp h.mem] at hmiss
      cases hmiss
  | some q => rw [(isNearest_of_projectOf hw hprobe).unique hw h]

/-- A directory never holds what lies in its sibling, however the two names begin. -/
theorem not_holds_sibling {dir a b path : String} (ha : '/' ∉ a.toList) (hb : '/' ∉ b.toList)
    (hne : a ≠ "") (hne' : b ≠ "") (hab : a ≠ b) (hpath : Holds (dir ++ b) path) :
    ¬ Holds (dir ++ a) path := by
  intro h
  rw [holds_iff, String.append_eq_empty_iff] at h hpath
  have h := h.resolve_left fun hempty => hne hempty.2
  have hpath := hpath.resolve_left fun hempty => hne' hempty.2
  exact hab (h.eq_of_append ha hb hpath)

end Workspace

open Workspace (Holds)

/-- Over a workspace keyed by root, the probe, the scan over the projects and the
resolver's scan over the roots all answer with the nearest project, and a directory
never captures a file of its sibling. -/
theorem nearest_project_agrees {w : Workspace} (hw : w.Keyed) (fileExists : String → Bool)
    (path : String) :
    (∀ p, w.projectOf path = some p ↔ w.IsNearest path p)
    ∧ (∀ r, w.rootOf path = some r ↔ ∃ p, w.IsNearest path p ∧ p.root = r)
    ∧ w.projectOfByScan path = w.projectOf path
    ∧ (SourceModuleResolver.fromWorkspace fileExists w).rootOf path = w.rootOf path
    ∧ ((∃ p ∈ w.values, p.root = "") → (w.projectOf path).isSome)
    ∧ ∀ dir a b : String, '/' ∉ a.toList → '/' ∉ b.toList → a ≠ "" → b ≠ "" → a ≠ b →
        Holds (dir ++ b) path → w.rootOf path ≠ some (dir ++ a) := by
  have hprobe : ∀ p, w.projectOf path = some p ↔ w.IsNearest path p := fun _ =>
    Workspace.projectOf_eq_some hw
  have hroot : ∀ r, w.rootOf path = some r ↔ ∃ p, w.IsNearest path p ∧ p.root = r := by
    intro r
    rw [Workspace.rootOf, Option.map_eq_some_iff]
    simp only [hprobe]
  refine ⟨hprobe, hroot, ?_, ?_, ?_, ?_⟩
  · refine Option.ext fun p => ?_
    rw [Workspace.projectOfByScan_eq_some hw, hprobe]
  · refine Option.ext fun r => ?_
    rw [Workspace.rootOf_eq_some hw, hroot]
  · rintro ⟨p, hp, hempty⟩
    rw [Option.isSome_iff_ne_none]
    intro hnone
    have hmiss := List.findSome?_eq_none_iff.mp hnone p.root
      (Workspace.mem_probed.mpr (Or.inl hempty))
    rw [hw.mem_values.mp hp] at hmiss
    cases hmiss
  · intro dir a b ha hb hne hne' hab hpath hcaptured
    obtain ⟨p, hp, hroot⟩ := (hroot (dir ++ a)).mp hcaptured
    have hholds := hp.holds
    rw [hroot] at hholds
    exact Workspace.not_holds_sibling ha hb hne hne' hab hpath hholds

/-- A workspace with nested roots and siblings that share a name prefix. -/
def nestedWorkspace : Workspace where
  projects := BTreeMap.insertAll ∅ (["", "a", "a/b", "a/bc"].map fun root =>
    (root, { root := root, manifest := "package.json", name := none, entry := none, deps := [] }))

theorem nestedWorkspace_keyed : nestedWorkspace.Keyed := by
  intro r p h
  rw [nestedWorkspace, BTreeMap.get_insertAll_map] at h
  split at h
  · cases h
    rfl
  · simp at h

/-- The file of `a/bc` belongs to `a/bc`, not to `a/b`. -/
theorem nearest_project_agrees_nested :
    nestedWorkspace.rootOf "a/bc/x.ts" ≠ some "a/b"
    ∧ nestedWorkspace.projectOfByScan "a/bc/x.ts" = nestedWorkspace.projectOf "a/bc/x.ts" := by
  have h := nearest_project_agrees nestedWorkspace_keyed (fun _ => true) "a/bc/x.ts"
  refine ⟨?_, h.2.2.1⟩
  exact h.2.2.2.2.2 "a/" "b" "bc" (by decide) (by decide) (by decide) (by decide) (by decide)
    (Or.inr (by decide))

end Filigrio
