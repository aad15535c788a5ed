import Filigrio.Lib.Search
import Filigrio.Resolve.ExportGraph

/-!
# Filigrio.Resolve.ExportWalk

The walk through barrels as a search: a pair of a module and a name ends in the module's
own export of that name, or is passed on to the pairs its re-exports name. The fuel of the
walk exceeds the number of pairs that pass anything on, so it always suffices; and the
memory it shares between its branches changes no answer.
-/

namespace Filigrio

namespace ExportGraph

variable (g : ExportGraph)

/-- The entry a module has for a name. -/
def entryOf (module : ModuleId) (name : String) : Option Entry := (g.tables[module]?).bind (·[name]?)

/-- What a pair ends in, or the pairs it is passed on to, in order. -/
def next (p : ModuleId × String) : NodeId ⊕ List (ModuleId × String) :=
  match g.entryOf p.1 p.2 with
  | some (.terminal d) => .inl d
  | some (.reExport specifier imported) =>
    .inr ((g.resolver p.1 specifier).toList.map fun target => (moduleOf target, imported))
  | none =>
    .inr (((BTreeMap.list g.stars p.1).filterMap (g.resolver p.1)).map fun target =>
      (moduleOf target, p.2))

/-- A definition that a module exports under a name: its own, one that it re-exports by
name (and perhaps under another one), or one that a wildcard source of it exports. -/
inductive Exported : ModuleId → String → NodeId → Prop
  | own {m : ModuleId} {n : String} {d : NodeId} :
      g.entryOf m n = some (.terminal d) → Exported m n d
  | named {m : ModuleId} {n specifier imported target : String} {d : NodeId} :
      g.entryOf m n = some (.reExport specifier imported) →
      g.resolver m specifier = some target → Exported (moduleOf target) imported d →
      Exported m n d
  | star {m : ModuleId} {n specifier target : String} {d : NodeId} :
      g.entryOf m n = none → specifier ∈ BTreeMap.list g.stars m →
      g.resolver m specifier = some target → Exported (moduleOf target) n d → Exported m n d

/-- The first definition found by a search that only refuses to run in circles. -/
def first (path : List (ModuleId × String)) (module : ModuleId) (name : String) : Option NodeId :=
  Search.search g.next ((g.size + 1) * (g.size + 1) + 1) path (module, name)

variable {g} {m : ModuleId} {n : String} {d : NodeId}

theorem exported_iff : g.Exported m n d ↔ Search.Reaches g.next (m, n) d := by
  constructor
  · intro h
    induction h with
    | own hentry => exact .here (by rw [next, hentry])
    | named hentry htarget _ ih =>
        refine .step (by rw [next, hentry]) ?_ ih
        rw [htarget]
        exact List.mem_singleton.mpr rfl
    | star hentry hspec htarget _ ih =>
        refine .step (by rw [next, hentry]) ?_ ih
        exact List.mem_map.mpr ⟨_, List.mem_filterMap.mpr ⟨_, hspec, htarget⟩, rfl⟩
  · intro h
    generalize hp : (m, n) = p at h
    induction h generalizing m n with
    | here hnext =>
        subst hp
        unfold next at hnext
        split at hnext
        · rename_i hentry
          cases hnext
          exact .own hentry
        · cases hnext
        · cases hnext
    | step hnext hmem _ ih =>
        subst hp
        unfold next at hnext
        split at hnext
        · cases hnext
        · rename_i hentry
          cases hnext
          obtain ⟨target, htarget, rfl⟩ := List.mem_map.mp hmem
          exact .named hentry (Option.mem_toList.mp htarget) (ih rfl)
        · rename_i hentry
          cases hnext
          obtain ⟨target, htarget, rfl⟩ := List.mem_map.mp hmem
          obtain ⟨spec, hspec, htarget⟩ := List.mem_filterMap.mp htarget
          exact .star hentry hspec htarget (ih rfl)

/-! ### The walk is a walk of the search library -/

theorem foldl_stars (f : List (ModuleId × String) → ModuleId × String →
      Option NodeId × List (ModuleId × String)) (specs : List String)
    (acc : Option NodeId × List (ModuleId × String)) :
    specs.foldl (fun acc spec =>
        match acc.1 with
        | some _ => acc
        | none =>
          match g.resolver m spec with
          | none => acc
          | some target => f acc.2 (moduleOf target, n)) acc
      = match acc.1 with
        | some _ => acc
        | none => Search.tryAll f ((specs.filterMap (g.resolver m)).map fun target =>
            (moduleOf target, n)) acc.2 := by
  induction specs generalizing acc with
  | nil =>
      obtain ⟨res, visited⟩ := acc
      cases res <;> rfl
  | cons spec specs ih =>
      obtain ⟨res, visited⟩ := acc
      rw [List.foldl_cons, ih]
      cases res with
      | some r => rfl
      | none =>
          cases htarget : g.resolver m spec with
          | none => simp [htarget]
          | some target =>
              simp only [List.filterMap_cons, htarget, List.map_cons, Search.tryAll]
              obtain ⟨res', visited'⟩ := f visited (moduleOf target, n)
              cases res' <;> rfl

theorem walk_eq (fuel : ℕ) (m : ModuleId) (n : String) (visited : List (ModuleId × String)) :
    g.walk fuel m n visited = Search.walk g.next fuel visited (m, n) := by
  induction fuel generalizing m n visited with
  | zero => rfl
  | succ fuel ih =>
      unfold walk Search.walk
      split
      · rfl
      · have hentryOf : g.entryOf m n = (g.tables[m]?).bind (·[n]?) := rfl
        rw [← hentryOf]
        cases hentry : g.entryOf m n with
        | none =>
            have hnext : g.next (m, n) = .inr (((BTreeMap.list g.stars m).filterMap
                (g.resolver m)).map fun target => (moduleOf target, n)) := by
              rw [next, hentry]
            have hwalk : (fun (visited : List (ModuleId × String)) (p : ModuleId × String) =>
                g.walk fuel p.1 p.2 visited) = Search.walk g.next fuel :=
              funext fun visited => funext fun p => ih p.1 p.2 visited
            rw [hnext, ← hwalk]
            exact foldl_stars (fun visited p => g.walk fuel p.1 p.2 visited)
              (BTreeMap.list g.stars m) (none, (m, n) :: visited)
        | some e =>
            cases e with
            | terminal d =>
                have hnext : g.next (m, n) = .inl d := by rw [next, hentry]
                rw [hnext]
            | reExport specifier imported =>
                have hnext : g.next (m, n) = .inr ((g.resolver m specifier).toList.map fun target =>
                    (moduleOf target, imported)) := by
                  rw [next, hentry]
                rw [hnext]
                dsimp only
                cases g.resolver m specifier with
                | none => rfl
                | some target =>
                    exact (ih (moduleOf target) imported ((m, n) :: visited)).trans
                      (Search.tryAll_singleton _ _ _).symm

/-! ### The fuel suffices -/

variable (g)

/-- Every pair with an entry. -/
def entryPairs : List (ModuleId × String) :=
  g.tables.toList.flatMap fun t => t.2.toList.map fun e => (t.1, e.1)

/-- The names a walk for `name` can ask for. -/
def names (name : String) : List String :=
  name :: g.tables.toList.flatMap fun t => t.2.toList.filterMap fun e =>
    match e.2 with
    | .terminal _ => none
    | .reExport _ imported => some imported

/-- Every pair that a walk for `name` can be passed on from. -/
def branching (name : String) : List (ModuleId × String) :=
  g.entryPairs ++ g.stars.toList.flatMap fun s => s.2.flatMap fun _ =>
    (g.names name).map fun n => (s.1, n)

variable {g}

theorem mem_toList_of_entryOf {e : Entry} (h : g.entryOf m n = some e) :
    ∃ t ∈ g.tables.toList, t.1 = m ∧ (n, e) ∈ t.2.toList := by
  obtain ⟨table, htable, hentry⟩ := Option.bind_eq_some_iff.mp h
  exact ⟨(m, table), BTreeMap.mem_toList.mpr htable, rfl, BTreeMap.mem_toList.mpr hentry⟩

theorem region (name : String) :
    Search.Region g.next (g.branching name) fun p => p.2 ∈ g.names name where
  succ := by
    rintro ⟨m, n⟩ w ws hn hnext hw
    unfold next at hnext
    split at hnext
    · cases hnext
    · rename_i hentry
      cases hnext
      obtain ⟨target, -, rfl⟩ := List.mem_map.mp hw
      obtain ⟨t, ht, -, hmem⟩ := mem_toList_of_entryOf hentry
      exact List.mem_cons_of_mem _ (List.mem_flatMap.mpr
        ⟨t, ht, List.mem_filterMap.mpr ⟨_, hmem, rfl⟩⟩)
    · cases hnext
      obtain ⟨target, -, rfl⟩ := List.mem_map.mp hw
      exact hn
  branch := by
    rintro ⟨m, n⟩ ws hn hnext hne
    unfold next at hnext
    split at hnext
    · cases hnext
    · rename_i hentry
      obtain ⟨t, ht, rfl, hmem⟩ := mem_toList_of_entryOf hentry
      exact List.mem_append_left _ (List.mem_flatMap.mpr
        ⟨t, ht, List.mem_map.mpr ⟨_, hmem, rfl⟩⟩)
    · cases hnext
      obtain ⟨w, hw⟩ := List.exists_mem_of_ne_nil _ hne
      obtain ⟨target, htarget, -⟩ := List.mem_map.mp hw
      obtain ⟨spec, hspec, -⟩ := List.mem_filterMap.mp htarget
      refine List.mem_append_right _ (List.mem_flatMap.mpr ?_)
      unfold BTreeMap.list at hspec
      cases hstars : g.stars[m]? with
      | none =>
          dsimp only at hspec
          rw [hstars] at hspec
          cases hspec
      | some specs =>
          dsimp only at hspec
          rw [hstars] at hspec
          exact ⟨(m, specs), BTreeMap.mem_toList.mpr hstars, List.mem_flatMap.mpr
            ⟨spec, hspec, List.mem_map.mpr ⟨n, hn, rfl⟩⟩⟩

theorem length_branching (name : String) :
    (g.branching name).length < (g.size + 1) * (g.size + 1) := by
  have hentries : g.entryPairs.length = (g.tables.toList.map fun t => t.2.size).sum := by
    simp [entryPairs, List.length_flatMap]
  have hnames : (g.names name).length ≤ g.entryPairs.length + 1 := by
    unfold names
    rw [List.length_cons, List.length_flatMap, hentries]
    refine Nat.succ_le_succ (List.sum_le_sum fun t _ => ?_)
    exact (List.length_filterMap_le _ _).trans_eq Std.ExtTreeMap.length_toList
  have hstars : ((g.stars.toList.flatMap fun s => s.2.flatMap fun _ =>
      (g.names name).map fun n => (s.1, n)).length)
      = (g.stars.toList.map fun s => s.2.length).sum * (g.names name).length := by
    rw [List.length_flatMap, ← List.sum_map_mul_right]
    simp [List.length_flatMap]
  have hsize : g.size = g.entryPairs.length + (g.stars.toList.map fun s => s.2.length).sum := by
    rw [hentries]
    rfl
  unfold branching
  rw [List.length_append, hstars, hsize]
  have hmul := Nat.mul_le_mul_left (g.stars.toList.map fun s => s.2.length).sum hnames
  nlinarith [Nat.zero_le (g.entryPairs.length * g.entryPairs.length),
    Nat.zero_le ((g.stars.toList.map fun s => s.2.length).sum
      * (g.stars.toList.map fun s => s.2.length).sum)]

/-- The search does not depend on its fuel, on a path that is not yet blocked. -/
theorem search_eq_first {path : List (ModuleId × String)} {fuel : ℕ}
    (h : (g.size + 1) * (g.size + 1) ≤ fuel) (name : String) (hn : n ∈ g.names name) :
    Search.search g.next fuel path (m, n) = g.first path m n := by
  have hlength := g.length_branching name
  have hrest : Search.rest (g.branching name) path ≤ (g.branching name).length :=
    List.length_filter_le _ _
  exact Search.search_fuel (g.region name) hn (by omega) (by omega)

theorem mem_names_self (name : String) : name ∈ g.names name := List.mem_cons_self

theorem walk_eq_first {fuel : ℕ} (h : (g.size + 1) * (g.size + 1) ≤ fuel) (name : String) :
    (g.walk fuel m name []).1 = g.first [] m name := by
  have hlength := g.length_branching name
  rw [walk_eq]
  exact Search.walk_eq_search (g.region name) (mem_names_self name) (by omega) (by omega)

theorem resolveImport_eq (entry : ModuleId) (name : String) :
    g.resolveImport entry name = (g.first [] entry name).or g.localDef[toLex (entry, name)]? := by
  rw [resolveImport, walk_eq_first (Nat.le_succ _)]

/-- What a search off the blocked path finds first: the module's own export, what its
re-export of the name leads to, or else what its wildcard sources lead to, in order. -/
theorem first_eq {path : List (ModuleId × String)} (hpath : (m, n) ∉ path) :
    g.first path m n =
      match g.entryOf m n with
      | some (.terminal d) => some d
      | some (.reExport specifier imported) =>
        (g.resolver m specifier).bind fun target =>
          g.first ((m, n) :: path) (moduleOf target) imported
      | none =>
        (BTreeMap.list g.stars m).findSome? fun specifier =>
          (g.resolver m specifier).bind fun target =>
            g.first ((m, n) :: path) (moduleOf target) n := by
  rw [first, Search.search, if_neg hpath, next]
  dsimp only
  cases hentry : g.entryOf m n with
  | none =>
      dsimp only
      induction BTreeMap.list g.stars m with
      | nil => rfl
      | cons specifier specifiers ih =>
          rw [List.findSome?_cons]
          cases htarget : g.resolver m specifier with
          | none => simpa [htarget] using ih
          | some target =>
              simp only [List.filterMap_cons, htarget, List.map_cons, List.findSome?_cons,
                Option.bind_some]
              rw [search_eq_first le_rfl n (mem_names_self n), ih]
  | some e =>
      cases e with
      | terminal d => rfl
      | reExport specifier imported =>
          dsimp only
          cases g.resolver m specifier with
          | none => rfl
          | some target =>
              show List.findSome? _ [(moduleOf target, imported)] = _
              rw [List.findSome?_cons, search_eq_first le_rfl imported (mem_names_self imported),
                Option.bind_some]
              cases g.first ((m, n) :: path) (moduleOf target) imported <;> rfl

/-- **Imports resolve through barrels.** For any tables, re-exports and cycles: the walk
ends; it finds a definition exactly if one is exported (or the entry module itself
defines the name); and what it finds is what a search without memory finds first. -/
theorem resolveImport_complete (g : ExportGraph) (entry : ModuleId) (name : String) :
    (∀ fuel, (g.size + 1) * (g.size + 1) + 1 ≤ fuel →
      (g.walk fuel entry name []).1.or g.localDef[toLex (entry, name)]?
        = g.resolveImport entry name) ∧
    ((g.resolveImport entry name).isSome = true ↔
      (∃ d, g.Exported entry name d) ∨ g.localDef[toLex (entry, name)]?.isSome = true) ∧
    (∀ d, g.resolveImport entry name = some d →
      g.Exported entry name d ∨ g.localDef[toLex (entry, name)]? = some d) ∧
    g.resolveImport entry name = (g.first [] entry name).or g.localDef[toLex (entry, name)]? ∧
    ∀ (path : List (ModuleId × String)) (m : ModuleId) (n : String), (m, n) ∉ path →
      g.first path m n =
        match g.entryOf m n with
        | some (.terminal d) => some d
        | some (.reExport specifier imported) =>
          (g.resolver m specifier).bind fun target =>
            g.first ((m, n) :: path) (moduleOf target) imported
        | none =>
          (BTreeMap.list g.stars m).findSome? fun specifier =>
            (g.resolver m specifier).bind fun target =>
              g.first ((m, n) :: path) (moduleOf target) n := by
  have hlength := g.length_branching name
  have hfound : (g.first [] entry name).isSome = true ↔ ∃ d, g.Exported entry name d := by
    rw [← walk_eq_first (Nat.le_succ ((g.size + 1) * (g.size + 1))), walk_eq,
      Search.walk_isSome (g.region name) (mem_names_self name) (by omega)]
    exact exists_congr fun d => exported_iff.symm
  refine ⟨fun fuel hfuel => ?_, ?_, fun d hd => ?_, resolveImport_eq entry name,
    fun path m n hpath => first_eq hpath⟩
  · rw [resolveImport_eq, walk_eq_first (by omega)]
  · rw [resolveImport_eq, Option.isSome_or, Bool.or_eq_true, hfound]
  · rw [resolveImport_eq, Option.or_eq_some_iff] at hd
    rcases hd with hd | ⟨-, hd⟩
    · rw [← walk_eq_first (Nat.le_succ ((g.size + 1) * (g.size + 1))), walk_eq] at hd
      exact Or.inl (exported_iff.mpr (Search.reaches_of_walk hd))
    · exact Or.inr hd

/-- A barrel over a module that defines a name and does not export it. -/
def unexported : ExportGraph :=
  build (BTreeMap.insertAll ∅ [("a.ts", [.star "./b"])])
    (BTreeMap.insertAll ∅ [(toLex ("b.ts", "f"), ⟨"function:b.ts"⟩)])
    fun _ specifier => if specifier = "./b" then some "b.ts" else none

/-- A definition that no module exports is found in the entry module only: not through
the wildcard of a barrel, although the module it leads to defines the name. -/
theorem resolveImport_not_through_barrel :
    unexported.entryOf "a.ts" "f" = none ∧ "./b" ∈ BTreeMap.list unexported.stars "a.ts" ∧
      unexported.resolver "a.ts" "./b" = some "b.ts" ∧
      unexported.localDef[toLex ("b.ts", "f")]? = some ⟨"function:b.ts"⟩ ∧
      unexported.resolveImport "b.ts" "f" = some ⟨"function:b.ts"⟩ ∧
      unexported.resolveImport "a.ts" "f" = none := by
  refine ⟨?_, ?_, ?_, ?_, ?_, ?_⟩ <;> decide +kernel

end ExportGraph

end Filigrio
