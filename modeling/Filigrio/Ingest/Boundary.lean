import Mathlib.Logic.Function.Basic
import Mathlib.Data.String.Basic
import Filigrio.Lib.Canon
import Filigrio.Lib.Text

/-!
# Filigrio.Ingest.Boundary

The source boundary: which files of a tree are in scope. `walk` enumerates them, with the
`ignore` crate's rules, and `matches` tests one path, by a loop over its components that is
meant to give the same verdict. It does not where a `.gitignore` re-includes a hidden entry,
and where a name has a backslash (`parity_iff`).
-/

namespace Filigrio.Ingest

/-! ### Trees -/

/-- The name of a directory entry. -/
structure Name where
  text : String
  nonempty : text ≠ ""
  not_dot : text ≠ "."
  no_slash : '/' ∉ text.toList
  deriving DecidableEq

/-- A regular file, a symbolic link, or a directory. -/
inductive Entry
  | file
  | link
  | dir (entries : List (Name × Entry))

/-- A path below the root, by its components. -/
abbrev Rel := List String

/-- What one `.gitignore` says of a path. -/
inductive Verdict
  | none
  | ignore
  | whitelist
  deriving DecidableEq, Repr

/-- A compiled `.gitignore`: its verdict on a path, given whether that is a directory. -/
abbrev Gitignore := Rel → Bool → Verdict

/-- `load_gitignore`: the compiled `.gitignore` of a directory, where there is one. -/
abbrev Load := Rel → Option Gitignore

/-- Universal build and dependency directories. -/
def isBuiltinNoise (name : String) : Bool :=
  [".git", "target", "node_modules", ".venv", "__pycache__", ".mypy_cache", ".filigrio-out",
    ".filigrio"].contains name

def isHidden (name : String) : Bool := Text.startsWith name "."

/-! ### The walk -/

/-- The deepest `.gitignore` with a verdict decides: is the path ignored? -/
def deepest (stack : List Gitignore) (path : Rel) (isDir : Bool) : Option Bool :=
  stack.reverse.findSome? fun gi =>
    match gi path isDir with
    | .none => none
    | .ignore => some true
    | .whitelist => some false

/-- The walker passes over an entry that is named like noise, that is ignored, or that is
hidden without a `.gitignore` whitelisting it. -/
def excluded (stack : List Gitignore) (path : Rel) (name : String) (isDir : Bool) : Bool :=
  isBuiltinNoise name || (deepest stack path isDir).getD (isHidden name)

def Entry.isDir : Entry → Bool
  | .dir _ => true
  | _ => false

mutual

/-- The regular files that the walker reaches from an entry at `path`. -/
def walkEntry (load : Load) (stack : List Gitignore) (path : Rel) : Entry → List Rel
  | .file => [path]
  | .link => []
  | .dir entries => walkEntries load (stack ++ (load path).toList) path entries

def walkEntries (load : Load) (stack : List Gitignore) (path : Rel) :
    List (Name × Entry) → List Rel
  | [] => []
  | (name, entry) :: rest =>
      (if excluded stack (path ++ [name.text]) name.text entry.isDir then []
        else walkEntry load stack (path ++ [name.text]) entry)
      ++ walkEntries load stack path rest

end

/-- `rel.replace('\\', "/")`. -/
def slashed (rel : String) : String := Text.replaceChar rel '\\' '/'

def Rel.text (path : Rel) : String := Text.join path "/"

/-- Walk the tree: sorted root-relative paths. -/
def walk (load : Load) (tree : List (Name × Entry)) : List String :=
  Canon.canon ((walkEntries load (load []).toList [] tree).map fun path => slashed path.text)

/-! ### One path -/

/-- A boundary keeps what it loaded. -/
structure SourceBoundary where
  gitignores : Rel → Option (Option Gitignore)

def SourceBoundary.new : SourceBoundary := ⟨fun _ => none⟩

/-- The compiled `.gitignore` for `dir`, cached for this boundary's lifetime. -/
def SourceBoundary.gitignoreFor (boundary : SourceBoundary) (load : Load) (dir : Rel) :
    Option Gitignore × SourceBoundary :=
  match boundary.gitignores dir with
  | some hit => (hit, boundary)
  | none => (load dir, ⟨Function.update boundary.gitignores dir (some (load dir))⟩)

/-- Shallow to deep: a deeper file's verdict overrides a shallower one. -/
def decision (stack : List Gitignore) (path : Rel) (isDir : Bool) : Option Bool :=
  stack.foldl (fun result gi =>
    match gi path isDir with
    | .ignore => some true
    | .whitelist => some false
    | .none => result) none

/-- `trim_start_matches("./")`. -/
def trimDotSlash : List Char → List Char
  | '.' :: '/' :: cs => trimDotSlash cs
  | cs => cs

/-- The components that `matches` looks at. -/
def parts (rel : String) : Rel :=
  (Text.split (String.ofList (trimDotSlash (slashed rel).toList)) "/").filter
    fun s => s ≠ "" && s ≠ "."

/-- The loop over the components, from the directory `cur` on. -/
def SourceBoundary.matchesFrom (load : Load) (boundary : SourceBoundary)
    (stack : List Gitignore) (cur : Rel) : Rel → Bool × SourceBoundary
  | [] => (true, boundary)
  | name :: rest =>
      if isHidden name || isBuiltinNoise name then (false, boundary)
      else
        let cur := cur ++ [name]
        let isDir := !rest.isEmpty
        if decision stack cur isDir = some true then (false, boundary)
        else if isDir then
          let (gi, boundary) := boundary.gitignoreFor load cur
          matchesFrom load boundary (stack ++ gi.toList) cur rest
        else (true, boundary)

/-- Is the root-relative `rel` inside the boundary? -/
def SourceBoundary.matches (boundary : SourceBoundary) (load : Load) (rel : String) :
    Bool × SourceBoundary :=
  if (parts rel).isEmpty then (false, boundary)
  else
    let (gi, boundary) := boundary.gitignoreFor load []
    boundary.matchesFrom load gi.toList [] (parts rel)

/-! ### The rule of the walk, for one path -/

/-- Every entry on the way from `path` is passed by the walker. -/
def Admits (load : Load) : List Gitignore → Rel → Rel → Prop
  | _, _, [] => True
  | stack, path, name :: rest =>
      excluded stack (path ++ [name]) name (!rest.isEmpty) = false ∧
        Admits load (stack ++ (load (path ++ [name])).toList) (path ++ [name]) rest

def Admitted (load : Load) (path : Rel) : Prop := Admits load (load []).toList [] path

/-- No component is hidden. -/
def Visible (path : Rel) : Prop := ∀ name ∈ path, isHidden name = false

mutual

/-- The regular files below an entry. -/
def Entry.files : Entry → List (List Name)
  | .file => [[]]
  | .link => []
  | .dir entries => filesOf entries

def filesOf : List (Name × Entry) → List (List Name)
  | [] => []
  | (name, entry) :: rest => entry.files.map (name :: ·) ++ filesOf rest

end

def texts (path : List Name) : Rel := path.map Name.text

theorem ne_nil_of_mem_filesOf {entries : List (Name × Entry)} {path : List Name}
    (h : path ∈ filesOf entries) : path ≠ [] := by
  induction entries with
  | nil => cases h
  | cons first rest ih =>
      obtain ⟨name, entry⟩ := first
      rw [filesOf, List.mem_append] at h
      rcases h with h | h
      · obtain ⟨below, _, rfl⟩ := List.mem_map.mp h
        exact List.cons_ne_nil name below
      · exact ih h

/-- The way to a file of an entry ends there, or goes on below a directory. -/
theorem isDir_of_mem_files {entry : Entry} {path : List Name} (h : path ∈ entry.files) :
    entry.isDir = !(texts path).isEmpty := by
  cases entry with
  | file =>
      cases List.mem_singleton.mp h
      rfl
  | link => cases h
  | dir entries =>
      cases path with
      | nil => exact absurd rfl (ne_nil_of_mem_filesOf h)
      | cons name rest => rfl

mutual

theorem mem_walkEntry (load : Load) (stack : List Gitignore) (path : Rel) (entry : Entry) (p : Rel) :
    p ∈ walkEntry load stack path entry ↔ ∃ rest ∈ entry.files, p = path ++ texts rest ∧
      Admits load (stack ++ (load path).toList) path (texts rest) := by
  cases entry with
  | file => simp [walkEntry, Entry.files, texts, Admits]
  | link => simp [walkEntry, Entry.files]
  | dir entries =>
      rw [walkEntry, Entry.files]
      exact mem_walkEntries load (stack ++ (load path).toList) path entries p

/-- The walk reaches the files that its rule admits. -/
theorem mem_walkEntries (load : Load) (stack : List Gitignore) (path : Rel)
    (entries : List (Name × Entry)) (p : Rel) :
    p ∈ walkEntries load stack path entries ↔ ∃ rest ∈ filesOf entries, p = path ++ texts rest ∧
      Admits load stack path (texts rest) := by
  cases entries with
  | nil => simp [walkEntries, filesOf]
  | cons first rest =>
      obtain ⟨name, entry⟩ := first
      have hrest := mem_walkEntries load stack path rest p
      have hentry := mem_walkEntry load stack (path ++ [name.text]) entry p
      rw [walkEntries, List.mem_append, hrest]
      constructor
      · rintro (h | ⟨below, hbelow, hp, hadmits⟩)
        · split at h
          · cases h
          · rename_i hnot
            obtain ⟨below, hbelow, rfl, hadmits⟩ := hentry.mp h
            refine ⟨name :: below, List.mem_append_left _ (List.mem_map_of_mem hbelow),
              by simp [texts], ?_, hadmits⟩
            have hdir : entry.isDir = !(below.map Name.text).isEmpty := isDir_of_mem_files hbelow
            rw [← hdir]
            exact Bool.eq_false_iff.mpr hnot
        · exact ⟨below, List.mem_append_right _ hbelow, hp, hadmits⟩
      · intro ⟨below, hmem, hp, hadmits⟩
        rw [filesOf, List.mem_append] at hmem
        rcases hmem with hmem | hmem
        · obtain ⟨below', hbelow, rfl⟩ := List.mem_map.mp hmem
          have hdir : entry.isDir = !(below'.map Name.text).isEmpty := isDir_of_mem_files hbelow
          obtain ⟨hnot, hadmits⟩ := hadmits
          rw [← hdir] at hnot
          left
          rw [if_neg (Bool.eq_false_iff.mp hnot)]
          exact hentry.mpr ⟨below', hbelow, by simpa [texts] using hp, hadmits⟩
        · exact Or.inr ⟨below, hmem, hp, hadmits⟩

end

/-! ### What `matches` answers -/

/-- The loop and the walker ask the same `.gitignore` in the end. -/
theorem decision_eq_deepest (stack : List Gitignore) (path : Rel) (isDir : Bool) :
    decision stack path isDir = deepest stack path isDir := by
  unfold decision deepest
  induction stack using List.reverseRecOn with
  | nil => rfl
  | append_singleton stack gi ih =>
      rw [List.foldl_append, List.reverse_append, List.reverse_singleton, List.singleton_append,
        List.findSome?_cons, List.foldl_cons, List.foldl_nil]
      cases gi path isDir with
      | none => exact ih
      | ignore => rfl
      | whitelist => rfl

/-- A boundary keeps what it loaded from these `.gitignore` files. -/
def Coherent (load : Load) (boundary : SourceBoundary) : Prop :=
  ∀ dir hit, boundary.gitignores dir = some hit → hit = load dir

theorem coherent_new (load : Load) : Coherent load .new := by
  intro dir hit h
  cases h

section Matches

variable {load : Load} {boundary : SourceBoundary}

theorem gitignoreFor_spec (h : Coherent load boundary) (dir : Rel) :
    (boundary.gitignoreFor load dir).1 = load dir ∧
      Coherent load (boundary.gitignoreFor load dir).2 := by
  unfold SourceBoundary.gitignoreFor
  split
  · rename_i hit hhit
    exact ⟨h dir hit hhit, h⟩
  · refine ⟨rfl, fun other hit hhit => ?_⟩
    dsimp only at hhit
    rw [Function.update_apply] at hhit
    split at hhit
    · rename_i heq
      rw [heq]
      exact (Option.some.inj hhit).symm
    · exact h other hit hhit

/-- The walker's rule, with every hidden entry passed over. -/
theorem matchesFrom_spec (stack : List Gitignore) (cur rest : Rel) (h : Coherent load boundary) :
    ((boundary.matchesFrom load stack cur rest).1 = true ↔
      Admits load stack cur rest ∧ Visible rest) ∧
      Coherent load (boundary.matchesFrom load stack cur rest).2 := by
  induction rest generalizing boundary stack cur with
  | nil => exact ⟨by simp [SourceBoundary.matchesFrom, Admits, Visible], h⟩
  | cons name rest ih =>
      unfold SourceBoundary.matchesFrom
      by_cases hname : (isHidden name || isBuiltinNoise name) = true
      · rw [if_pos hname]
        refine ⟨?_, h⟩
        simp only [Bool.false_eq_true, false_iff, not_and]
        intro hadmits hvisible
        have hhidden := hvisible name List.mem_cons_self
        have hnoise : isBuiltinNoise name = true := by simpa [hhidden] using hname
        have hexcluded := hadmits.1
        simp [excluded, hnoise] at hexcluded
      · rw [if_neg hname]
        simp only [Bool.or_eq_true, not_or, Bool.not_eq_true] at hname
        obtain ⟨hhidden, hnoise⟩ := hname
        have hexcluded : excluded stack (cur ++ [name]) name (!rest.isEmpty) = false ↔
            decision stack (cur ++ [name]) (!rest.isEmpty) ≠ some true := by
          rw [decision_eq_deepest, excluded, hnoise, hhidden, Bool.false_or]
          cases deepest stack (cur ++ [name]) (!rest.isEmpty) with
          | none => simp
          | some ignored => cases ignored <;> simp
        have hvisible : Visible (name :: rest) ↔ Visible rest := by
          simp [Visible, hhidden]
        dsimp only
        rw [Admits, hexcluded, hvisible]
        by_cases hignored : decision stack (cur ++ [name]) (!rest.isEmpty) = some true
        · rw [if_pos hignored]
          exact ⟨by simp [hignored], h⟩
        · rw [if_neg hignored]
          obtain ⟨hload, hcoherent⟩ := gitignoreFor_spec h (cur ++ [name])
          cases rest with
          | nil => exact ⟨by simpa [Admits, Visible] using hignored, h⟩
          | cons next rest =>
              rw [if_pos (by rfl), hload]
              obtain ⟨hiff, hcoherent'⟩ := ih (stack ++ (load (cur ++ [name])).toList)
                (cur ++ [name]) hcoherent
              refine ⟨?_, hcoherent'⟩
              rw [hiff, and_assoc]
              exact ⟨fun hrest => ⟨hignored, hrest⟩, And.right⟩

/-- A path is shown when the walker's rule admits it and no component is hidden. -/
def Shown (load : Load) (path : Rel) : Prop := path ≠ [] ∧ Admitted load path ∧ Visible path

theorem matches_spec (h : Coherent load boundary) (rel : String) :
    ((boundary.matches load rel).1 = true ↔ Shown load (parts rel)) ∧
      Coherent load (boundary.matches load rel).2 := by
  unfold SourceBoundary.matches Shown
  by_cases hempty : (parts rel).isEmpty = true
  · rw [if_pos hempty]
    exact ⟨by simp [List.isEmpty_iff.mp hempty], h⟩
  · rw [if_neg hempty]
    obtain ⟨hload, hcoherent⟩ := gitignoreFor_spec h []
    have hne : parts rel ≠ [] := fun heq => hempty (List.isEmpty_iff.mpr heq)
    obtain ⟨hiff, hcoherent'⟩ := matchesFrom_spec (load []).toList [] (parts rel) hcoherent
    dsimp only
    rw [hload]
    exact ⟨by rw [hiff]; simp [hne, Admitted], hcoherent'⟩

end Matches

/-! ### Names and texts -/

/-- A root-relative path as text. -/
def relOf (path : List Name) : String := Rel.text (texts path)

/-- No backslash in it. -/
def Plain (path : List Name) : Prop := '\\' ∉ (relOf path).toList

theorem slashed_of_notMem {rel : String} (h : '\\' ∉ rel.toList) : slashed rel = rel := by
  have hmap : rel.toList.map (fun c => if c = '\\' then '/' else c) = rel.toList := by
    conv_rhs => rw [← List.map_id rel.toList]
    apply List.map_congr_left
    intro c hc
    have hne : c ≠ '\\' := fun heq => h (heq ▸ hc)
    rw [if_neg hne]
    rfl
  rw [slashed, Text.replaceChar, hmap, String.ofList_toList]

theorem backslash_notMem_slashed (rel : String) : '\\' ∉ (slashed rel).toList := by
  rw [slashed, Text.replaceChar, String.toList_ofList, List.mem_map]
  intro ⟨c, _, hc⟩
  split at hc
  · exact absurd hc (by decide)
  · rename_i hne
    exact hne hc

theorem slash_notMem {path : List Name} : ∀ seg ∈ texts path, '/' ∉ seg.toList := by
  intro seg hseg
  obtain ⟨name, _, rfl⟩ := List.mem_map.mp hseg
  exact name.no_slash

theorem split_relOf {path : List Name} (hne : path ≠ []) :
    Text.split (relOf path) "/" = texts path := by
  have hne' : texts path ≠ [] := by simpa [texts] using hne
  have hsplit := Text.split_join (c := '/') hne' slash_notMem
  rwa [show String.singleton '/' = "/" from rfl] at hsplit

theorem texts_injective : Function.Injective texts := by
  apply List.map_injective_iff.mpr
  intro a b h
  cases a
  cases b
  cases h
  rfl

theorem relOf_inj {path other : List Name} (hne : path ≠ []) (hne' : other ≠ [])
    (h : relOf path = relOf other) : path = other := by
  apply texts_injective
  rw [← split_relOf hne, h, split_relOf hne']

/-- A path does not start with `./`, for no name is a dot. -/
theorem trimDotSlash_relOf (path : List Name) :
    trimDotSlash (relOf path).toList = (relOf path).toList := by
  cases path with
  | nil => rfl
  | cons name rest =>
      have htext : ∃ tail, (relOf (name :: rest)).toList = name.text.toList ++ tail ∧
          (tail = [] ∨ ∃ tail', tail = '/' :: tail') := by
        cases rest with
        | nil => exact ⟨[], by simp [relOf, Rel.text, texts, Text.join], Or.inl rfl⟩
        | cons next rest =>
            refine ⟨_, ?_, Or.inr ⟨(relOf (next :: rest)).toList, rfl⟩⟩
            simp [relOf, Rel.text, texts, Text.join, String.intercalate_cons_cons]
      obtain ⟨tail, htext, _⟩ := htext
      rw [htext]
      have hnonempty : name.text.toList ≠ [] := by
        intro hnil
        exact name.nonempty (String.toList_eq_nil_iff.mp hnil)
      have hslash := name.no_slash
      have hdot : name.text.toList ≠ ['.'] := by
        intro hd
        apply name.not_dot
        rw [← String.ofList_toList (s := name.text), hd]
      cases hc : name.text.toList with
      | nil => exact absurd hc hnonempty
      | cons c cs =>
          rw [hc] at hslash hdot
          unfold trimDotSlash
          split
          · rename_i rest' heq
            rw [List.cons_append, List.cons.injEq] at heq
            obtain ⟨rfl, heq⟩ := heq
            cases cs with
            | nil => exact absurd rfl hdot
            | cons d cs =>
                rw [List.cons_append, List.cons.injEq] at heq
                exact absurd (heq.1 ▸ List.mem_cons_of_mem _ List.mem_cons_self) hslash
          · rfl

/-- `matches` reads a path without a backslash as it was built. -/
theorem parts_relOf {path : List Name} (hne : path ≠ []) (hplain : Plain path) :
    parts (relOf path) = texts path := by
  rw [parts, slashed_of_notMem hplain, trimDotSlash_relOf, String.ofList_toList, split_relOf hne]
  apply List.filter_eq_self.mpr
  intro seg hseg
  obtain ⟨name, _, rfl⟩ := List.mem_map.mp hseg
  simp [name.nonempty, name.not_dot]

theorem mem_walk {load : Load} {tree : List (Name × Entry)} {rel : String} :
    rel ∈ walk load tree ↔
      ∃ path ∈ filesOf tree, Admitted load (texts path) ∧ slashed (relOf path) = rel := by
  rw [walk, Canon.mem_canon, List.mem_map]
  constructor
  · intro ⟨p, hp, hrel⟩
    obtain ⟨path, hpath, rfl, hadmits⟩ := (mem_walkEntries _ _ _ _ _).mp hp
    exact ⟨path, hpath, hadmits, hrel⟩
  · intro ⟨path, hpath, hadmits, hrel⟩
    exact ⟨texts path, (mem_walkEntries _ _ _ _ _).mpr ⟨path, hpath, rfl, hadmits⟩, hrel⟩

/-! ### Parity -/

/-- For every regular file of the tree, `matches` agrees with the walk, whatever the boundary
has loaded before. -/
def Parity (load : Load) (tree : List (Name × Entry)) : Prop :=
  ∀ boundary, Coherent load boundary → ∀ path ∈ filesOf tree,
    (boundary.matches load (relOf path)).1 = true ↔ relOf path ∈ walk load tree

section Parity

variable {load : Load} {tree : List (Name × Entry)}

/-- No entry that a `.gitignore` re-includes is hidden, on the way to a file that the walk
reaches. -/
def NoHiddenReincluded (load : Load) (tree : List (Name × Entry)) : Prop :=
  ∀ path ∈ filesOf tree, Plain path → Admitted load (texts path) → Visible (texts path)

/-- A file with a backslash in its path is out of scope when that is read as a separator, and
the walk does not list it as another file. -/
def BackslashesHarmless (load : Load) (tree : List (Name × Entry)) : Prop :=
  ∀ path ∈ filesOf tree, ¬ Plain path → ¬ Shown load (parts (relOf path)) ∧
    (Admitted load (texts path) → ∀ other ∈ filesOf tree, relOf other ≠ slashed (relOf path))

theorem shown_iff {path : List Name} (hpath : path ∈ filesOf tree) (hplain : Plain path) :
    Shown load (parts (relOf path)) ↔ Admitted load (texts path) ∧ Visible (texts path) := by
  have hne := ne_nil_of_mem_filesOf hpath
  rw [parts_relOf hne hplain, Shown]
  have hne' : texts path ≠ [] := by simpa [texts] using hne
  exact ⟨And.right, fun h => ⟨hne', h⟩⟩

/-- No listed path has a backslash. -/
theorem plain_of_mem_walk {path : List Name} (h : relOf path ∈ walk load tree) : Plain path := by
  obtain ⟨other, _, _, hrel⟩ := mem_walk.mp h
  unfold Plain
  rw [← hrel]
  exact backslash_notMem_slashed _

theorem parity_of_shown : Parity load tree ↔ ∀ path ∈ filesOf tree,
    (Shown load (parts (relOf path)) ↔ relOf path ∈ walk load tree) := by
  constructor
  · intro h path hpath
    rw [← (matches_spec (coherent_new load) (relOf path)).1]
    exact h .new (coherent_new load) path hpath
  · intro h boundary hcoherent path hpath
    rw [(matches_spec hcoherent (relOf path)).1]
    exact h path hpath

/-- **The two halves of the boundary agree on every file exactly when no `.gitignore`
re-includes a hidden entry on the way to one, and no path with a backslash is taken for
another.** -/
theorem parity_iff (load : Load) (tree : List (Name × Entry)) :
    Parity load tree ↔ NoHiddenReincluded load tree ∧ BackslashesHarmless load tree := by
  rw [parity_of_shown]
  constructor
  · intro h
    refine ⟨fun path hpath hplain hadmitted => ?_, fun path hpath hback => ⟨fun hshown => ?_, ?_⟩⟩
    · have hlisted : relOf path ∈ walk load tree :=
        mem_walk.mpr ⟨path, hpath, hadmitted, slashed_of_notMem hplain⟩
      exact ((shown_iff hpath hplain).mp ((h path hpath).mpr hlisted)).2
    · exact hback (plain_of_mem_walk ((h path hpath).mp hshown))
    · intro hadmitted other hother heq
      -- the walk lists the one under the name of the other
      have hlisted : relOf other ∈ walk load tree :=
        mem_walk.mpr ⟨path, hpath, hadmitted, heq.symm⟩
      have hshown := (h other hother).mpr hlisted
      have hparts : parts (relOf other) = parts (relOf path) := by
        unfold parts
        rw [slashed_of_notMem (plain_of_mem_walk hlisted), heq]
      rw [hparts] at hshown
      exact hback (plain_of_mem_walk ((h path hpath).mp hshown))
  · intro ⟨hhidden, hback⟩ path hpath
    by_cases hplain : Plain path
    · rw [shown_iff hpath hplain, mem_walk]
      constructor
      · intro ⟨hadmitted, _⟩
        exact ⟨path, hpath, hadmitted, slashed_of_notMem hplain⟩
      · intro ⟨other, hother, hadmitted, hrel⟩
        by_cases hother' : Plain other
        · rw [slashed_of_notMem hother'] at hrel
          have heq := relOf_inj (ne_nil_of_mem_filesOf hother) (ne_nil_of_mem_filesOf hpath) hrel
          rw [heq] at hadmitted
          exact ⟨hadmitted, hhidden path hpath hplain hadmitted⟩
        · exact absurd hrel.symm ((hback other hother hother').2 hadmitted path hpath)
    · constructor
      · intro hshown
        exact absurd hshown (hback path hpath hplain).1
      · intro hlisted
        exact absurd (plain_of_mem_walk hlisted) hplain

end Parity

/-! ### A hidden directory that is re-included -/

/-- The root's `.gitignore` is `!.config`. -/
def keepConfig : Load := fun dir =>
  if dir = [] then some fun path _ => if path.getLast? = some ".config" then .whitelist else .none
  else none

def configTree : List (Name × Entry) :=
  [(⟨".gitignore", by decide, by decide, by decide⟩, .file),
    (⟨".config", by decide, by decide, by decide⟩,
      .dir [(⟨"app.rs", by decide, by decide, by decide⟩, .file)])]

def appFile : List Name :=
  [⟨".config", by decide, by decide, by decide⟩, ⟨"app.rs", by decide, by decide, by decide⟩]

/-- The walk lists `.config/app.rs`, and `matches` refuses it. -/
theorem not_parity : ¬ ∀ load tree, Parity load tree := by
  intro h
  have hfile : appFile ∈ filesOf configTree := by decide +kernel
  have hlisted : relOf appFile ∈ walk keepConfig configTree := by decide +kernel
  have hrefused : (SourceBoundary.new.matches keepConfig (relOf appFile)).1 = false := by
    decide +kernel
  have hmatches := (h keepConfig configTree .new (coherent_new _) appFile hfile).mpr hlisted
  rw [hrefused] at hmatches
  cases hmatches

end Filigrio.Ingest
