import Filigrio.Core.State

/-!
# Filigrio.Core.Ports

The ports of the engine: `Source`, `Extractor`, `ModuleResolver`. File contents
are a type parameter `C`, since nothing here looks inside a file but the
extractor and the manifest parser. Also the derived views of a `Workspace`
(`projectOf`, `byName`, `dependsOn`).
-/

namespace Filigrio

/-- `filigrio_core::Error`; every variant carries its message. -/
inductive Error
  | io (msg : String)
  | parse (msg : String)
  | storage (msg : String)
  | notFound (msg : String)
  | protocol (msg : String)
  | other (msg : String)
  deriving DecidableEq, Repr

/-- Peeling one step off a fallible computation. -/
theorem bind_eq_ok {α β : Type} {x : Except Error α} {f : α → Except Error β} {b : β} :
    x >>= f = .ok b ↔ ∃ a, x = .ok a ∧ f a = .ok b := by
  cases x with
  | error e =>
      refine ⟨fun h => ?_, fun ⟨a, h, _⟩ => ?_⟩
      · cases h
      · cases h
  | ok a =>
      refine ⟨fun h => ⟨a, rfl, h⟩, fun ⟨a', h, h'⟩ => ?_⟩
      cases h
      exact h'

/-- An import specifier in an importing file → the target file, or `none` for an
external boundary. -/
abbrev ModuleResolver := String → String → Option String

/-- Where changes come from. `«exists»` is a metadata question, `read` the bytes.
`oxc` is the JS/TS resolver over the real filesystem root, which only a source
with a `root()` offers. -/
structure Source (C : Type) where
  «exists» : String → Bool
  read : String → Except Error C
  inScope : String → Bool
  oxc : Option (Workspace → ModuleResolver)

/-- Turns one artifact into unresolved nodes and edges, without cross-file state. -/
structure Extractor (C : Type) where
  handles : Artifact → Bool
  extract : Artifact → C → Except Error Extraction

/-- What `manifest::parse` reads out of a project manifest. -/
structure ParsedManifest where
  name : Option String
  entry : Option String
  deps : List String
  deriving DecidableEq, Repr

/-- The two stages an apply calls outside its own module: the manifest parser
and the community detection (under the apply's `ClusterConfig`). -/
structure Stages (C : Type) where
  parse : String → C → ParsedManifest
  clusterWith : List Node → List Edge → Partition → Except Error Partition

namespace Workspace

/-- The project a path belongs to: the nearest ancestor project root, found by
probing the path itself, its ancestor directories longest first, then `""`. -/
def projectOf (w : Workspace) (path : String) : Option Project :=
  (path :: Text.cuts path '/' ++ [""]).findSome? fun dir => w.projects[dir]?

/-- The project root a path belongs to. -/
def rootOf (w : Workspace) (path : String) : Option String := (w.projectOf path).map Project.root

/-- The projects in root order. -/
def values (w : Workspace) : List Project := w.projects.toList.map Prod.snd

/-- Package name → its project. -/
def byName (w : Workspace) : BTreeMap String Project :=
  BTreeMap.insertAll ∅ (w.values.filterMap fun p => p.name.map fun n => (n, p))

/-- Each project root → the workspace-internal roots it depends on. -/
def dependsOn (w : Workspace) : BTreeMap String (List String) :=
  BTreeMap.insertAll ∅ (w.values.map fun p =>
    (p.root, Canon.canon
      ((p.deps.filterMap fun d => (w.byName[d]?).map Project.root).filter (· ≠ p.root))))

end Workspace

end Filigrio
