import Filigrio.Daemon.Project

/-!
# Filigrio.Daemon.Resolve

A client names a project by its id or by a path inside it. Commands resolve the name in
`Daemon::resolve_project_id`, queries in `RegistryWarmStateSource::registered`, both over
the registry's `HashMap`, whose `values()` come in an order of the map's own. A path is
given to the first project visited whose root holds it; where one registered root holds
another, the order decides (`resolvesNearest_iff`).
-/

namespace Filigrio.Daemon

/-- The registry as the code has it: what the map holds, and the order in which `values()`
visits it. Hashing, and with it registrations and restarts, decides about the order. -/
structure HashRegistry where
  map : ProjectRegistry
  order : List Project
  visits : order.Perm map.values

namespace HashRegistry

variable (m : HashRegistry)

/-- The first project visited whose root is an ancestor of the path. -/
def findByPath (path : Path) : Option Project := m.order.find? fun p => p.root.isPrefixOf path

/-- `Daemon::resolve_project_id`, for the commands. -/
def resolveProjectId (input : String) : Option String :=
  if (m.map[input]?).isSome then some input else (m.findByPath (.parse input)).map Project.id

/-- `RegistryWarmStateSource::registered`, for the queries. -/
def registered (input : String) : Option Project :=
  (m.map[input]?).or (m.findByPath (.parse input))

variable {m}

theorem mem_order {p : Project} : p ∈ m.order ↔ ∃ id : String, m.map[id]? = some p := by
  rw [m.visits.mem_iff, BTreeMap.mem_values]

theorem findByPath_spec {path : Path} {p : Project} (h : m.findByPath path = some p) :
    (∃ id : String, m.map[id]? = some p) ∧ p.root <+: path := by
  refine ⟨mem_order.mp (List.mem_of_find?_eq_some h), ?_⟩
  have hprefix : p.root.isPrefixOf path = true :=
    List.find?_some (p := fun q : Project => q.root.isPrefixOf path) h
  exact List.isPrefixOf_iff_prefix.mp hprefix

theorem findByPath_eq_none {path : Path} :
    m.findByPath path = none ↔ ∀ (id : String) p, m.map[id]? = some p → ¬ p.root <+: path := by
  rw [findByPath, List.find?_eq_none]
  simp only [List.isPrefixOf_iff_prefix, mem_order]
  constructor
  · intro h id p hp
    exact h p ⟨id, hp⟩
  · rintro h p ⟨id, hp⟩
    exact h id p hp

/-- The two resolvers agree as long as they see the map in one state. -/
theorem resolveProjectId_eq_registered (hkeyed : m.map.WellKeyed) (input : String) :
    m.resolveProjectId input = (m.registered input).map Project.id := by
  rw [resolveProjectId, registered]
  cases hget : m.map[input]? with
  | none => simp
  | some p => simp [hkeyed input p hget]

end HashRegistry

namespace ProjectRegistry

variable {r : ProjectRegistry} {input : String} {p q : Project}

/-- What a name stands for: the project with this id, or else the project with the longest
root that contains the path. -/
def Names (r : ProjectRegistry) (input : String) (p : Project) : Prop :=
  r[input]? = some p ∨
  (r[input]? = none ∧ (∃ id : String, r[id]? = some p) ∧ p.root <+: Path.parse input ∧
    ∀ (id : String) q, r[id]? = some q → q.root <+: Path.parse input →
      q.root.length ≤ p.root.length)

/-- However the map is ordered when a command and when a query is resolved, both find the
project that the name stands for, or nothing when there is none. -/
def ResolvesNearest (r : ProjectRegistry) (input : String) : Prop :=
  ∀ command query : HashRegistry, command.map = r → query.map = r →
    command.resolveProjectId input = (query.registered input).map Project.id
    ∧ (∀ p, query.registered input = some p ↔ r.Names input p)
    ∧ ∀ id, command.resolveProjectId input = some id ↔ ∃ p, r.Names input p ∧ p.id = id

/-- At most one registered root contains the path. -/
def OneRoot (r : ProjectRegistry) (path : Path) : Prop :=
  ∀ (id id' : String) p q, r[id]? = some p → r[id']? = some q →
    p.root <+: path → q.root <+: path → p = q

/-- Some order visits a given project first. -/
theorem exists_order_first {id : String} (hp : r[id]? = some p) :
    ∃ m : HashRegistry, m.map = r ∧ ∃ rest, m.order = p :: rest := by
  obtain ⟨before, after, hsplit⟩ := List.append_of_mem (BTreeMap.mem_values.mpr ⟨id, hp⟩)
  refine ⟨⟨r, p :: (before ++ after), ?_⟩, rfl, before ++ after, rfl⟩
  rw [hsplit]
  exact List.perm_middle.symm

/-- Any project whose root contains the path is the answer under some order. -/
theorem exists_findByPath {id : String} {path : Path} (hp : r[id]? = some p)
    (hpath : p.root <+: path) : ∃ m : HashRegistry, m.map = r ∧ m.findByPath path = some p := by
  obtain ⟨m, hmap, rest, horder⟩ := exists_order_first hp
  refine ⟨m, hmap, ?_⟩
  rw [HashRegistry.findByPath, horder, List.find?_cons_of_pos]
  exact List.isPrefixOf_iff_prefix.mpr hpath

/-- With an id, the map's order does not matter. -/
theorem resolvesNearest_of_mem (hkeyed : r.WellKeyed) (hp : r[input]? = some p) :
    r.ResolvesNearest input := by
  have hnames : ∀ q, r.Names input q ↔ q = p := by
    intro q
    simp only [Names, hp, Option.some.injEq, reduceCtorEq, false_and, or_false]
    exact eq_comm
  intro command query hcommand hquery
  have hc : command.resolveProjectId input = some input := by
    simp [HashRegistry.resolveProjectId, hcommand, hp]
  have hq : query.registered input = some p := by
    simp [HashRegistry.registered, hquery, hp]
  have hid : p.id = input := hkeyed input p hp
  rw [hc, hq]
  refine ⟨by simp [hid], fun q => ?_, fun id => ?_⟩
  · rw [hnames, Option.some.injEq, eq_comm]
  · simp [hnames, hid]

/-- Nor does it with a path that one root contains at most. -/
theorem resolvesNearest_of_oneRoot (hnone : r[input]? = none)
    (hone : r.OneRoot (.parse input)) : r.ResolvesNearest input := by
  have hfind : ∀ m : HashRegistry, m.map = r →
      ∀ p, m.findByPath (.parse input) = some p ↔ r.Names input p := by
    rintro m rfl p
    constructor
    · intro h
      obtain ⟨⟨id, hp⟩, hpath⟩ := HashRegistry.findByPath_spec h
      refine Or.inr ⟨hnone, ⟨id, hp⟩, hpath, fun id' q hq hqpath => ?_⟩
      rw [hone id id' p q hp hq hpath hqpath]
    · rintro (h | ⟨-, ⟨id, hp⟩, hpath, -⟩)
      · rw [hnone] at h
        cases h
      · cases hm : m.findByPath (.parse input) with
        | none => exact absurd hpath (HashRegistry.findByPath_eq_none.mp hm id p hp)
        | some q =>
            obtain ⟨⟨id', hq⟩, hqpath⟩ := HashRegistry.findByPath_spec hm
            rw [hone id' id q p hq hp hqpath hpath]
  intro command query hcommand hquery
  have hc : command.resolveProjectId input
      = (command.findByPath (.parse input)).map Project.id := by
    simp [HashRegistry.resolveProjectId, hcommand, hnone]
  have hq : query.registered input = query.findByPath (.parse input) := by
    simp [HashRegistry.registered, hquery, hnone]
  have hsame : command.findByPath (.parse input) = query.findByPath (.parse input) :=
    Option.ext fun p => (hfind command hcommand p).trans (hfind query hquery p).symm
  rw [hc, hq, hsame]
  refine ⟨rfl, hfind query hquery, fun id => ?_⟩
  rw [Option.map_eq_some_iff]
  simp only [hfind query hquery]

/-- **A project argument names one project exactly when it is a registered id or a path in
at most one registered root.** The two resolvers agree on any input while they see the map in
one state; a path inside nested roots goes to the one the map visits first. -/
theorem resolvesNearest_iff (hkeyed : r.WellKeyed) (input : String) :
    (r.ResolvesNearest input ↔ (r[input]?).isSome ∨ r.OneRoot (.parse input))
    ∧ ∀ m : HashRegistry, m.map = r →
        m.resolveProjectId input = (m.registered input).map Project.id := by
  refine ⟨⟨fun h => ?_, fun h => ?_⟩, ?_⟩
  · cases hget : r[input]? with
    | some p => exact Or.inl rfl
    | none =>
        refine Or.inr fun id id' p q hp hq hpath hqpath => ?_
        obtain ⟨m, hm, hfirst⟩ := exists_findByPath hp hpath
        obtain ⟨m', hm', hfirst'⟩ := exists_findByPath hq hqpath
        have hagree := (h m m' hm hm').1
        have hids : p.id = q.id := by
          simpa [HashRegistry.resolveProjectId, HashRegistry.registered, hm, hm', hget, hfirst,
            hfirst'] using hagree
        have hp' := hkeyed id p hp
        have hq' := hkeyed id' q hq
        rw [← hp', hids, hq', hq] at hp
        exact (Option.some.inj hp).symm
  · cases hget : r[input]? with
    | some p => exact resolvesNearest_of_mem hkeyed hget
    | none =>
        rw [hget] at h
        exact resolvesNearest_of_oneRoot hget (h.resolve_left (by simp))
  · rintro m rfl
    exact HashRegistry.resolveProjectId_eq_registered hkeyed input

/-! ### A project inside a project -/

/-- A repository and one of its packages, both registered. -/
def nestedRegistry : ProjectRegistry :=
  ((∅ : ProjectRegistry).insert "p" (.new ["/", "p"])).insert "sub" (.new ["/", "p", "sub"])

theorem get_nestedRegistry (id : String) : nestedRegistry[id]? =
    if "sub" = id then some (Project.new ["/", "p", "sub"])
    else if "p" = id then some (Project.new ["/", "p"]) else none := by
  rw [nestedRegistry, BTreeMap.get_insert, BTreeMap.get_insert]
  simp

theorem nestedRegistry_wellKeyed : nestedRegistry.WellKeyed := by
  intro id p h
  rw [get_nestedRegistry] at h
  split at h
  · rename_i hid
    cases h
    exact hid
  · split at h
    · rename_i hid
      cases h
      exact hid
    · cases h

/-- A path in one of two roots is told apart from none. -/
theorem resolvesNearest_iff_nested : nestedRegistry.ResolvesNearest "/p/a.ts" := by
  refine (resolvesNearest_iff nestedRegistry_wellKeyed "/p/a.ts").1.mpr (Or.inr ?_)
  have hout : ¬ (["/", "p", "sub"] <+: Path.parse "/p/a.ts") := by decide +kernel
  intro id id' p q hp hq hpath hqpath
  rw [get_nestedRegistry] at hp hq
  split at hp
  · cases hp
    exact absurd hpath hout
  · split at hq
    · cases hq
      exact absurd hqpath hout
    · split at hp <;> split at hq <;> simp_all

/-- A file of the package goes to the repository or to the package, as the map is ordered. -/
theorem not_resolvesNearest : ¬ nestedRegistry.ResolvesNearest "/p/sub/a.ts" := by
  have hp : nestedRegistry["p"]? = some (Project.new ["/", "p"]) := by
    rw [get_nestedRegistry]
    decide
  have hsub : nestedRegistry["sub"]? = some (Project.new ["/", "p", "sub"]) := by
    rw [get_nestedRegistry]
    decide
  have hnone : nestedRegistry["/p/sub/a.ts"]? = none := by
    rw [get_nestedRegistry]
    decide
  obtain ⟨m, hm, hfirst⟩ := @exists_findByPath _ _ _ (.parse "/p/sub/a.ts") hp (by decide +kernel)
  obtain ⟨m', hm', hfirst'⟩ :=
    @exists_findByPath _ _ _ (.parse "/p/sub/a.ts") hsub (by decide +kernel)
  intro h
  have hagree := (h m m' hm hm').1
  rw [HashRegistry.resolveProjectId, HashRegistry.registered, hm, hm', hnone, hfirst,
    hfirst'] at hagree
  exact absurd hagree (by decide)

end ProjectRegistry

end Filigrio.Daemon
