import Filigrio.Lib.Text
import Filigrio.Lib.TreeMap

/-!
# Filigrio.Daemon.Project

Registered projects. A project is known by its id, the base name of its root; its
checkpoint lives under the root.
-/

namespace Filigrio.Daemon

/-- A path, by its components: `"/"` is the root directory. -/
abbrev Path := List String

namespace Path

/-- The components of a path as it is written: separators repeat and trail freely, and
a `.` counts at the beginning only. -/
def parse (s : String) : Path :=
  let normal := List.filter fun c => c ≠ "" && c ≠ "."
  match Text.split s "/" with
  | "" :: rest => if s = "" then [] else "/" :: normal rest
  | "." :: rest => "." :: normal rest
  | segments => normal segments

/-- `Path::file_name`. -/
def fileName (path : Path) : Option String :=
  path.getLast?.filter fun c => c ≠ "/" && c ≠ "." && c ≠ ".."

end Path

/-- A registered project. -/
structure Project where
  id : String
  root : Path
  outputDir : Path
  watch : Bool
  deriving DecidableEq, Repr

namespace Project

/-- The project id of a root: its file name, when it has one. -/
def projectId (root : Path) : String := root.fileName.getD "unknown"

/-- A new project, watch mode off. -/
def new (root : Path) : Project where
  id := projectId root
  root := root
  outputDir := root ++ [".filigrio-out"]
  watch := false

/-- Different roots have different output directories. -/
theorem new_outputDir_inj {r r' : Path} : (new r).outputDir = (new r').outputDir ↔ r = r' :=
  List.append_left_inj _

end Project

/-- Projects by id. -/
abbrev ProjectRegistry := BTreeMap String Project

namespace ProjectRegistry

/-- Add a project, unless its id is taken. -/
def add (r : ProjectRegistry) (p : Project) : Option ProjectRegistry :=
  if p.id ∈ r then none else some (r.insert p.id p)

/-- Remove a project that is registered. -/
def remove (r : ProjectRegistry) (id : String) : Option ProjectRegistry :=
  if id ∈ r then some (r.erase id) else none

/-- Set the watch mode of a project that is registered. -/
def setWatch (r : ProjectRegistry) (id : String) (watch : Bool) : Option ProjectRegistry :=
  r[id]?.map fun p => r.insert id { p with watch := watch }

/-- A project whose root is an ancestor of the path. The map has no order of its own;
here the first by id is found. -/
def findByPath (r : ProjectRegistry) (path : Path) : Option Project :=
  r.values.find? fun p => p.root.isPrefixOf path

/-- `resolve_project_id`: a registered id, or else a path inside a registered root. -/
def resolveProjectId (r : ProjectRegistry) (input : String) : Option String :=
  if input ∈ r then some input else (r.findByPath (.parse input)).map Project.id

/-- Every project stands under its own id: so it is added, and loaded. -/
def WellKeyed (r : ProjectRegistry) : Prop := ∀ (id : String) (p : Project), r[id]? = some p → p.id = id

/-- Registered with watch mode on? -/
def watched (r : ProjectRegistry) (id : String) : Bool := r[id]?.any Project.watch

variable {r r' : ProjectRegistry} {p : Project} {id id' : String} {b : Bool}

theorem resolveProjectId_of_mem (h : id ∈ r) : r.resolveProjectId id = some id := if_pos h

theorem get_add (id : String) (h : r.add p = some r') :
    p.id ∉ r ∧ r'[id]? = if p.id = id then some p else r[id]? := by
  unfold add at h
  split at h
  · cases h
  · rename_i hnew
    cases h
    exact ⟨hnew, BTreeMap.get_insert ..⟩

theorem get_remove (id' : String) (h : r.remove id = some r') :
    r'[id']? = if id = id' then none else r[id']? := by
  unfold remove at h
  split at h
  · cases h
    exact BTreeMap.get_erase ..
  · cases h

theorem get_setWatch (id' : String) (h : r.setWatch id b = some r') :
    ∃ p, r[id]? = some p ∧
    r'[id']? = if id = id' then some { p with watch := b } else r[id']? := by
  obtain ⟨p, hp, rfl⟩ := Option.map_eq_some_iff.mp h
  exact ⟨p, hp, BTreeMap.get_insert ..⟩

theorem WellKeyed.add (hr : r.WellKeyed) (h : r.add p = some r') : r'.WellKeyed := by
  intro id q hq
  rw [(get_add id h).2] at hq
  split at hq
  · rename_i hid
    cases hq
    exact hid
  · exact hr id q hq

theorem WellKeyed.remove (hr : r.WellKeyed) (h : r.remove id = some r') : r'.WellKeyed := by
  intro id' q hq
  rw [get_remove id' h] at hq
  split at hq
  · cases hq
  · exact hr id' q hq

theorem WellKeyed.setWatch (hr : r.WellKeyed) (h : r.setWatch id b = some r') :
    r'.WellKeyed := by
  intro id' q hq
  obtain ⟨p, hp, hget⟩ := get_setWatch id' h
  rw [hget] at hq
  split at hq
  · rename_i hid
    cases hq
    exact hid ▸ hr id p hp
  · exact hr id' q hq

theorem watched_add (h : r.add p = some r') (hp : p.watch = false) :
    r'.watched id = r.watched id := by
  obtain ⟨hnew, hget⟩ := get_add id h
  unfold watched
  rw [hget]
  split
  · rename_i heq
    rw [Std.ExtTreeMap.getElem?_eq_none (heq ▸ hnew)]
    simpa using hp
  · rfl

theorem watched_remove (id' : String) (h : r.remove id = some r') :
    r'.watched id' = if id = id' then false else r.watched id' := by
  unfold watched
  rw [get_remove id' h]
  split <;> rfl

theorem watched_setWatch (id' : String) (h : r.setWatch id b = some r') :
    r'.watched id' = if id = id' then b else r.watched id' := by
  obtain ⟨p, -, hget⟩ := get_setWatch id' h
  unfold watched
  rw [hget]
  split <;> rfl

end ProjectRegistry

end Filigrio.Daemon
