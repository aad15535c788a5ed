import Filigrio.Core.Ports

/-!
# Filigrio.Resolve.ModRes

The source-only `ModuleResolver` tier: relative specifiers, workspace packages
and Rust module paths, resolved by probing which candidate file exists. The
resolver reads the source through `exists` alone.
-/

namespace Filigrio

/-- Directory part of a `/`-separated relative path. -/
def dirOf (path : String) : String := (Text.cuts path '/').headD ""

/-- Is `path` strictly inside the directory `prefix`? -/
def isUnder (path dir : String) : Bool := Text.startsWith path (dir ++ "/")

/-- Join a dir and a relative name, dropping the empty-dir leading slash. -/
def joinPath (dir name : String) : String :=
  if dir = "" then name
  else String.ofList (Text.trimEndChars (· = '/') dir.toList) ++ "/" ++ name

/-- One segment of a relative specifier against the segments collected so far. -/
def normalizeStep (segs : List String) (part : String) : List String :=
  if part = "" ∨ part = "." then segs
  else if part = ".." then segs.dropLast
  else segs ++ [part]

/-- Resolve a `./`-relative specifier against `base`, honoring `.`/`..` segments. -/
def normalizeJoin (base rel : String) : String :=
  let segs := if base = "" then [] else Text.split base "/"
  Text.join ((Text.split rel "/").foldl normalizeStep segs) "/"

/-- A named package: its dir and optional entry file. -/
structure Package where
  dir : String
  entry : Option String
  deriving DecidableEq, Repr

/-- The tier's own state: the probe, the package map and the project roots. -/
structure SourceModuleResolver where
  «exists» : String → Bool
  packages : BTreeMap String Package
  roots : List String

/-- Extensions probed for an extension-less specifier, in order. -/
def exts : List String := ["ts", "tsx", "js", "jsx", "mjs", "cjs", "rs", "py", "go"]

/-- Default entry files probed when a package declares no explicit entry. -/
def defaultEntries : List String :=
  ["index.ts", "index.js", "src/index.ts", "src/index.js", "src/lib.rs", "src/main.rs"]

namespace SourceModuleResolver

/-- Build the package map from the already-parsed `Workspace`. -/
def fromWorkspace (fileExists : String → Bool) (ws : Workspace) : SourceModuleResolver where
  «exists» := fileExists
  packages := BTreeMap.insertAll ∅
    (ws.byName.toList.map fun np => (np.1, { dir := np.2.root, entry := np.2.entry }))
  roots := ws.projects.keys

variable (R : SourceModuleResolver)

/-- Probe a path that may lack an extension: exact, `.<ext>`, `/index.<ext>`. -/
def probe (path : String) : Option String :=
  (path :: exts.map (path ++ "." ++ ·) ++ exts.map (path ++ "/index." ++ ·)).find? R.exists

/-- The longest workspace package that `specifier` names or lies under. -/
def packageOf (specifier : String) : Option (String × Package) :=
  (specifier :: Text.cuts specifier '/').findSome? fun n => (R.packages[n]?).map fun p => (n, p)

/-- The entry file of a package dir: its declared entry, else a default probe. -/
def entryOf (pkg : Package) : Option String :=
  (pkg.entry.bind fun e => R.probe (joinPath pkg.dir e)).or
    ((defaultEntries.map (joinPath pkg.dir)).find? R.exists)

/-- The project root the importing file belongs to: the longest matching root. -/
def rootOf (file : String) : Option String :=
  (R.roots.filter fun r => r = "" || file = r || isUnder file r).foldl
    (fun best r => match best with
      | none => some r
      | some b => if b.length ≤ r.length then some r else some b) none

/-- The directory that holds a crate's root module file. -/
def crateModuleBase (root : String) : String :=
  let src := joinPath root "src"
  ([src, root].find? fun cand =>
    R.exists (joinPath cand "lib.rs") || R.exists (joinPath cand "main.rs")).getD src

/-- The module-path segments of `file` relative to its crate's module base. -/
def moduleSegments (root file : String) : List String :=
  let base := R.crateModuleBase root
  let rel := match Text.stripPrefix file base with
    | some r => String.ofList (r.toList.dropWhile (· = '/'))
    | none => file
  let stem := (Text.stripSuffix rel ".rs").getD rel
  let segs := Text.split stem "/"
  match segs.getLast? with
  | some s => if s = "mod" ∨ s = "lib" ∨ s = "main" then segs.dropLast else segs
  | none => segs

/-- Probe a mod-path as a file: `<base>/a/b.rs`, then `<base>/a/b/mod.rs`; an
empty path is the crate root module. -/
def probeRustModule (base : String) (segs : List String) : Option String :=
  if segs = [] then
    (["lib.rs", "main.rs", "mod.rs"].map (joinPath base)).find? R.exists
  else
    let stem := joinPath base (Text.join segs "/")
    [stem ++ ".rs", stem ++ "/mod.rs"].find? R.exists

/-- Resolve a Rust module path to the target module file. -/
def resolveRust (importingFile spec : String) : Option String :=
  match ((Text.split spec "::").map Text.trim).filter (· ≠ "") with
  | [] => none
  | head :: rest =>
    (R.rootOf importingFile).bind fun root =>
      let start : Option (String × List String) :=
        if head = "crate" then some (R.crateModuleBase root, [])
        else if head = "self" then
          some (R.crateModuleBase root, R.moduleSegments root importingFile)
        else if head = "super" then
          some (R.crateModuleBase root, (R.moduleSegments root importingFile).dropLast)
        else (R.packages[head]?).map fun pkg => (R.crateModuleBase pkg.dir, [])
      start.bind fun bp => R.probeRustModule bp.1 (bp.2 ++ rest)

/-- `ModuleResolver::resolve`. -/
def resolve (importingFile specifier : String) : Option String :=
  if Text.endsWith importingFile ".rs" && !Text.startsWith specifier "."
      && !Text.startsWith specifier "@" && !Text.contains specifier "/" then
    R.resolveRust importingFile specifier
  else if Text.startsWith specifier "." then
    R.probe (normalizeJoin (dirOf importingFile) specifier)
  else
    (R.packageOf specifier).bind fun np =>
      if specifier = np.1 then R.entryOf np.2
      else R.probe (joinPath np.2.dir
        (String.ofList (specifier.toList.drop (np.1.length + 1))))

end SourceModuleResolver

/-- JS/TS source extensions the oxc tier handles. -/
def isJsTs (file : String) : Bool :=
  Text.afterLast file "." ∈ ["ts", "tsx", "mts", "cts", "js", "jsx", "mjs", "cjs"]

/-- Pick the module-resolution backend for one apply: the source tier, with the
importers in JS or TS routed to the oxc tier when the source has a real root. -/
def buildResolver {C : Type} (source : Source C) (ws : Workspace) : ModuleResolver :=
  let sourceTier := SourceModuleResolver.fromWorkspace source.exists ws
  match source.oxc with
  | none => sourceTier.resolve
  | some jsTs => fun file spec =>
      if isJsTs file then jsTs ws file spec else sourceTier.resolve file spec

end Filigrio
