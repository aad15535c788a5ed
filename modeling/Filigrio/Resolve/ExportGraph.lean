import Filigrio.Core.Ports

/-!
# Filigrio.Resolve.ExportGraph

The export graph: per-module export tables and the walk that follows re-exports
(barrels) to a symbol's real definition. The walk keeps the pairs it has visited,
so it never follows a cycle twice; its fuel is one more than the number of pairs
it could visit at all.
-/

namespace Filigrio

/-- The identity of a semantic module: a file path. -/
abbrev ModuleId := String

/-- The module a physical file belongs to. -/
def moduleOf (file : String) : ModuleId := file

/-- One resolved export-table entry. -/
inductive Entry
  | terminal (def_ : NodeId)
  | reExport (specifier imported : String)
  deriving DecidableEq

/-- `(module, name)` → a definition in that module. -/
abbrev LocalDef := BTreeMap (ModuleId ×ₗ String) NodeId

structure ExportGraph where
  /-- module → exported name → entry. -/
  tables : BTreeMap ModuleId (BTreeMap String Entry)
  /-- module → `export *` specifiers. -/
  stars : BTreeMap ModuleId (List String)
  localDef : LocalDef
  resolver : ModuleResolver

namespace ExportGraph

/-- One export of `module` entered into its table. -/
def tableStep (localDef : LocalDef) (module : ModuleId) (table : BTreeMap String Entry) :
    Export → BTreeMap String Entry
  | .local name =>
      match localDef[toLex (module, name)]? with
      | some d => table.insert name (.terminal d)
      | none => table
  | .reExport name specifier imported => table.insert name (.reExport specifier imported)
  | .star _ => table

/-- The specifiers of a file's `export *` entries, in order. -/
def starSpecs (exports : List Export) : List String :=
  exports.filterMap fun
    | .star specifier => some specifier
    | _ => none

/-- Build the tables from each file's export list. -/
def build (exportsByFile : BTreeMap String (List Export)) (localDef : LocalDef)
    (resolver : ModuleResolver) : ExportGraph where
  tables := exportsByFile.toList.foldl (fun tables fe =>
    tables.insert (moduleOf fe.1)
      (fe.2.foldl (tableStep localDef (moduleOf fe.1)) (tables[moduleOf fe.1]?.getD ∅))) ∅
  stars := BTreeMap.pushAll ∅ (exportsByFile.toList.flatMap fun fe =>
    (starSpecs fe.2).map fun s => (moduleOf fe.1, s))
  localDef := localDef
  resolver := resolver

variable (g : ExportGraph)

/-- The walk: `visited` is threaded through every branch, abandoned ones included. -/
def walk : ℕ → ModuleId → String → List (ModuleId × String) →
    Option NodeId × List (ModuleId × String)
  | 0, _, _, visited => (none, visited)
  | fuel + 1, module, name, visited =>
    if (module, name) ∈ visited then (none, visited) -- cycle
    else
      let visited := (module, name) :: visited
      match (g.tables[module]?).bind (·[name]?) with
      | some (.terminal d) => (some d, visited)
      | some (.reExport specifier imported) =>
        match g.resolver module specifier with
        | none => (none, visited)
        | some target => walk fuel (moduleOf target) imported visited
      | none =>
        -- `export *`: search each wildcard source, first match wins
        (BTreeMap.list g.stars module).foldl (fun acc spec =>
          match acc.1 with
          | some _ => acc
          | none =>
            match g.resolver module spec with
            | none => acc
            | some target => walk fuel (moduleOf target) name acc.2) (none, visited)

/-- The number of export entries, which bounds the modules and the names a walk can reach. -/
def size : ℕ :=
  (g.tables.toList.map fun t => t.2.size).sum + (g.stars.toList.map fun s => s.2.length).sum

/-- The definition that `imported` refers to when exported by module `entry`. -/
def resolveImport (entry : ModuleId) (imported : String) : Option NodeId :=
  (g.walk ((g.size + 1) * (g.size + 1) + 1) entry imported []).1.or
    g.localDef[toLex (entry, imported)]?

end ExportGraph

end Filigrio
