import Mathlib.Data.Prod.Lex
import Mathlib.Order.WithBot
import Mathlib.Data.String.Basic
import Mathlib.Tactic.Common
import Filigrio.Lib.TreeMap
import Filigrio.Lib.Text

/-!
# Filigrio.Core.Model

The graph data model: nodes, edges, the parse-then-link `EdgeTarget`, the
per-file `Extraction` an extractor produces, and the path classification every
stage shares (`classify`, `manifestBasename`, `isIndexable`).
-/

namespace Filigrio

/-- Stable, deterministic node identity. -/
structure NodeId where
  val : String
  deriving DecidableEq, Repr

theorem NodeId.val_injective : Function.Injective NodeId.val := by
  rintro ⟨a⟩ ⟨b⟩ h
  exact congrArg NodeId.mk h

/-- Ids are ordered by their text (`derive(Ord)` on a one-field tuple). -/
instance : LinearOrder NodeId := LinearOrder.lift' NodeId.val NodeId.val_injective

/-- Provenance as a first-class enum, never a float. -/
inductive Confidence
  | extracted
  | inferred
  | ambiguous
  deriving DecidableEq, Repr

/-- A source line span, 1-based and inclusive. -/
structure Span where
  start : ℕ
  stop : ℕ
  deriving DecidableEq, Repr

/-- A graph vertex: a definition (function, class, file, concept). -/
structure Node where
  id : NodeId
  label : String
  kind : String
  sourceFile : Option String
  sourceSpan : Option Span
  attrs : BTreeMap String String
  deriving DecidableEq

/-- What relinking matches on: the callee or imported symbol, and its hints. -/
structure TargetRef where
  name : String
  hints : BTreeMap String String
  deriving DecidableEq

/-- A target reference without hints. -/
def TargetRef.new (name : String) : TargetRef := ⟨name, ∅⟩

/-- Parse-then-link: extraction emits `symbol`; resolution binds it to `node`. -/
inductive EdgeTarget
  | symbol (ref : TargetRef)
  | node (id : NodeId)
  deriving DecidableEq

/-- Is the target bound to a node? -/
def EdgeTarget.isNode : EdgeTarget → Bool
  | .symbol _ => false
  | .node _ => true

/-- A directed relationship. -/
structure Edge where
  source : NodeId
  relation : String
  confidence : Confidence
  target : EdgeTarget
  deriving DecidableEq

/-- Where an edge or a reference stands: its source and relation. -/
abbrev Site := NodeId ×ₗ String

instance : LawfulBEq Site := inferInstance

def Edge.site (e : Edge) : Site := toLex (e.source, e.relation)

/-- One entry in a file's export table. -/
inductive Export
  | «local» (name : String)
  | reExport (name specifier imported : String)
  | star (specifier : String)
  deriving DecidableEq, Repr

/-- The normalized per-file output of an extractor. -/
structure Extraction where
  nodes : List Node
  edges : List Edge
  exports : List Export
  deriving DecidableEq

inductive ArtifactKind
  | code
  | doc
  | other
  deriving DecidableEq, Repr

/-- A classified unit of work for the index stage. -/
structure Artifact where
  path : String
  kind : ArtifactKind
  language : Option String
  deriving DecidableEq, Repr

/-- Kind and language of a (lower-case) file extension. -/
def classifyExt (ext : String) : ArtifactKind × Option String :=
  if ext = "rs" then (.code, some "rust")
  else if ext = "py" then (.code, some "python")
  else if ext = "js" ∨ ext = "mjs" ∨ ext = "cjs" then (.code, some "javascript")
  else if ext = "ts" ∨ ext = "tsx" then (.code, some "typescript")
  else if ext = "go" then (.code, some "go")
  else if ext = "java" then (.code, some "java")
  else if ext = "c" ∨ ext = "h" then (.code, some "c")
  else if ext = "cpp" ∨ ext = "cc" ∨ ext = "hpp" then (.code, some "cpp")
  else if ext = "md" ∨ ext = "rst" ∨ ext = "txt" then (.doc, none)
  else (.other, none)

/-- Route a path to an `Artifact` from its extension. No extension above has a
non-ASCII letter whose lower case is ASCII, so lower-casing the ASCII letters
decides the same match as `to_lowercase`. -/
def classify (path : String) : Artifact :=
  let ext := String.ofList ((Text.afterLast path ".").toList.map Char.toLower)
  { path := path, kind := (classifyExt ext).1, language := (classifyExt ext).2 }

@[simp] theorem classify_path (path : String) : (classify path).path = path := rfl

/-- Manifest basenames that mark a project boundary. -/
def manifestNames : List String :=
  ["Cargo.toml", "package.json", "deno.json", "deno.jsonc", "go.mod", "pyproject.toml"]

/-- The manifest basename of `path` if it names a project manifest. -/
def manifestBasename (path : String) : Option String :=
  manifestNames.find? (· = Text.afterLast path "/")

/-- Whether `path` names a project manifest. -/
def isManifest (path : String) : Bool := (manifestBasename path).isSome

/-- Whether changes of `path` affect the graph: code or a project manifest. -/
def isIndexable (path : String) : Bool := (classify path).kind = .code || isManifest path

/-! ### Relation and attribute vocabulary -/

def calls : String := "calls"
def contains : String := "contains"
def imports : String := "imports"
def dependsOn : String := "depends_on"

/-- The owning type of a method (`attrs::IMPL`). -/
def attrImpl : String := "impl"
/-- A function's declared return type (`attrs::RETURNS`). -/
def attrReturns : String := "returns"

end Filigrio
