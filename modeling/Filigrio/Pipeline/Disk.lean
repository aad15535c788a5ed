import Filigrio.Core.Ports

/-!
# Filigrio.Pipeline.Disk

The project root on disk and the freshness check over it: `getMtime`, `hashFile`
and the two-stage `dedupFile` (modification time, then content hash, against the
manifest).
-/

namespace Filigrio

variable {C : Type}

/-- A regular file: its bytes, its modification time in nanoseconds (when the
platform has one), and whether it can be opened. -/
structure File (C : Type) where
  content : C
  mtime : Option ℕ
  readable : Bool

/-- The regular files under the project root, by relative path. -/
abbrev Disk (C : Type) := BTreeMap String (File C)

/-- `std::fs::read`. -/
def Disk.read (disk : Disk C) (path : String) : Except Error C :=
  match disk[path]? with
  | some f => if f.readable then .ok f.content else .error (.io (path ++ ": permission denied"))
  | none => .error (.io (path ++ ": no such file"))

/-- `get_mtime`. -/
def Disk.getMtime (disk : Disk C) (path : String) : Option ℕ := disk[path]?.bind File.mtime

/-- What a filesystem source has besides the files: the source boundary
(`.gitignore` and the built-in noise), the JS/TS resolver over its root, and the
64-bit content hash of the manifest. -/
structure Fs (C : Type) where
  inScope : String → Bool
  oxc : Option (Workspace → ModuleResolver)
  hash : C → ℕ

namespace Fs

variable (fs : Fs C) (disk : Disk C)

/-- `FsSource` over a disk. -/
def source : Source C where
  «exists» p := disk[p]?.isSome
  read p := disk.read p
  inScope := fs.inScope
  oxc := fs.oxc

/-- The boundary walk: the files in scope, in path order. -/
def walk : List String := disk.keys.filter fs.inScope

/-- `hash_file_u64`. -/
def hashFile (path : String) : Except Error ℕ := (disk.read path).map fs.hash

end Fs

/-- Result of the dedup check. -/
inductive DedupResult
  | unchanged
  | changed
  | notFound
  deriving DecidableEq, Repr

/-- Deduplication gate for a single file: the modification time first (unless
`deep`), then the content hash. -/
def Fs.dedupFile (fs : Fs C) (disk : Disk C) (key : String) (manifest : Manifest)
    (mtime : Option ℕ) (deep : Bool) : Except Error DedupResult :=
  match manifest.entries[key]? with
  | none => .ok .notFound
  | some entry =>
    if !deep && entry.lastModified.isSome && mtime = entry.lastModified then .ok .unchanged
    else do
      let h ← fs.hashFile disk key
      if h = entry.hash then .ok .unchanged else .ok .changed

/-- Does the freshness check find `path` unchanged? -/
def Fs.isUnchanged (fs : Fs C) (disk : Disk C) (manifest : Manifest) (deep : Bool)
    (path : String) : Bool :=
  fs.dedupFile disk path manifest (disk.getMtime path) deep = .ok .unchanged

section Lookups

variable {fs : Fs C} {disk : Disk C} {p : String}

theorem read_eq_ok {c : C} :
    disk.read p = .ok c ↔ ∃ f, disk[p]? = some f ∧ f.readable = true ∧ f.content = c := by
  unfold Disk.read
  cases disk[p]? with
  | none => simp
  | some f => cases hf : f.readable <;> simp [hf]

theorem map_eq_ok {α β : Type} {x : Except Error α} {g : α → β} {b : β} :
    x.map g = .ok b ↔ ∃ a, x = .ok a ∧ g a = b := by
  cases x with
  | error e => simp [Except.map]
  | ok a => simp [Except.map]

/-- A file found unchanged has an entry with its modification time or its hash. -/
theorem entry_of_isUnchanged {manifest : Manifest} {deep : Bool}
    (h : fs.isUnchanged disk manifest deep p = true) :
    ∃ e f, manifest.entries[p]? = some e ∧ disk[p]? = some f ∧
      ((∃ m, e.lastModified = some m ∧ f.mtime = some m) ∨
        (f.readable = true ∧ fs.hash f.content = e.hash)) := by
  have hdedup := of_decide_eq_true h
  unfold Fs.dedupFile at hdedup
  cases hentry : manifest.entries[p]? with
  | none => rw [hentry] at hdedup; cases hdedup
  | some e =>
      rw [hentry] at hdedup
      dsimp only at hdedup
      by_cases hmtime : (!deep && e.lastModified.isSome &&
          decide (disk.getMtime p = e.lastModified)) = true
      · -- the modification time is the stamped one
        obtain ⟨hsome, heq⟩ := Bool.and_eq_true_iff.mp hmtime
        obtain ⟨m, hm⟩ := Option.isSome_iff_exists.mp (Bool.and_eq_true_iff.mp hsome).2
        have hfile : disk[p]?.bind File.mtime = some m := (of_decide_eq_true heq).trans hm
        obtain ⟨f, hf, hfm⟩ := Option.bind_eq_some_iff.mp hfile
        exact ⟨e, f, rfl, hf, Or.inl ⟨m, hm, hfm⟩⟩
      · rw [if_neg hmtime] at hdedup
        obtain ⟨h', hhash, hdedup⟩ := bind_eq_ok.mp hdedup
        obtain ⟨c, hread, rfl⟩ := map_eq_ok.mp hhash
        obtain ⟨f, hf, hreadable, rfl⟩ := read_eq_ok.mp hread
        by_cases heq : fs.hash f.content = e.hash
        · exact ⟨e, f, rfl, hf, Or.inr ⟨hreadable, heq⟩⟩
        · rw [if_neg heq] at hdedup; cases hdedup

/-- A missing file is never found unchanged. -/
theorem isUnchanged_of_missing {manifest : Manifest} {deep : Bool} (h : disk[p]? = none) :
    fs.isUnchanged disk manifest deep p = false := by
  by_contra hne
  obtain ⟨e, f, -, hf, -⟩ := entry_of_isUnchanged (Bool.not_eq_false _ ▸ hne)
  rw [h] at hf
  cases hf

end Lookups

end Filigrio
