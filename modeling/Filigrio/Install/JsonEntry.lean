import Filigrio.Lib.Json
import Filigrio.Lib.Text

/-!
# Filigrio.Install.JsonEntry

One named key in a JSON config the user owns: `upsert` adds or refreshes it at the end of a
path of containers, `remove` takes it away with every container that is left empty.

How the text is read and printed is a parameter, and so is whether the file system refuses.
A key is removed by moving the last one of its object to its place: the order of the user's
keys is kept only where at most one of them stands behind (`removes_iff`).
-/

namespace Filigrio.JsonEntry

open Json (Members)

inductive Action
  | installed
  | updated
  | unchanged
  | removed
  | absent
  deriving DecidableEq, Repr

inductive InstallError
  | notUtf8
  | read
  | badJson
  | notJsonObject (found : String)
  | mkdir
  | write
  deriving DecidableEq, Repr

/-- A file, if it is there, and whether a symlink stands at its path. -/
structure File where
  content : Option String
  linked : Bool
  deriving DecidableEq, Repr

/-- What the code is given: how `serde_json` reads and prints, and what the file system
refuses. A map it reads has no key twice. -/
structure Env where
  parse : String → Option Json
  print : Members → String
  refusesRead : Option InstallError
  refusesWrite : Option InstallError
  unique : ∀ text v, parse text = some v → v.UniqueKeys

/-! ### Reading and writing -/

def readOpt (env : Env) (file : File) : Except InstallError (Option String) :=
  match env.refusesRead with
  | some e => .error e
  | none => .ok file.content

/-- Absent and blank files read as an empty object; a malformed one is an error. -/
def loadObject (env : Env) (file : File) : Except InstallError Members := do
  match ← readOpt env file with
  | none => return []
  | some text =>
      if Text.trim text = "" then return []
      else
        match env.parse text with
        | none => throw .badJson
        | some (.object map) => return map
        | some (.array _) => throw (.notJsonObject "array")
        | some (.string _) => throw (.notJsonObject "string")
        | some (.number _) => throw (.notJsonObject "number")
        | some (.bool _) => throw (.notJsonObject "boolean")
        | some .null => throw (.notJsonObject "null")

/-- Did the file we are about to rewrite end in a newline? -/
def hadTrailingNewline : Option String → Bool
  | some text => if Text.trim text = "" then true else Text.endsWith text "\n"
  | none => true

def serialize (env : Env) (map : Members) (trailingNewline : Bool) : String :=
  env.print map ++ if trailingNewline then "\n" else ""

/-- A temp file renamed over the target: a refused write leaves the file as it was. -/
def writeAll (env : Env) (file : File) (text : String) : Except InstallError Unit × File :=
  match env.refusesWrite with
  | some e => (.error e, file)
  | none => (.ok (), { file with content := some text })

/-- A file behind a symlink is emptied, any other is unlinked. -/
def removeFile (env : Env) (file : File) : Except InstallError String × File :=
  match env.refusesWrite with
  | some e => (.error e, file)
  | none =>
      if file.linked then
        (.ok ("emptied through the symlink at this path (held only our entry) — the link and "
          ++ "the file it points at are the user's, so neither was deleted"),
          { file with content := some "" })
      else (.ok "file removed (held only our entry)", { file with content := none })

/-- `["mcp", "servers"]` → `mcp.servers`, for the detail lines a user reads. -/
def dotted (container : List String) (key : String) : String :=
  String.join (container.map fun seg => seg ++ ".") ++ key

/-! ### The entry -/

/-- Walk the container. -/
def resolve (root : Members) : List String → Option Members
  | [] => some root
  | seg :: rest =>
      match IndexMap.get root seg with
      | some (.object m) => resolve m rest
      | _ => none

/-- Set the key at the end of the container, creating what is missing on the way; `none` if
a segment is no object. -/
def insertAt : List String → String → Json → Members → Option Members
  | [], key, entry, node => some (IndexMap.insert node key entry)
  | seg :: rest, key, entry, node =>
      match IndexMap.get node seg with
      | none => (insertAt rest key entry []).map fun m => IndexMap.insert node seg (.object m)
      | some (.object child) =>
          (insertAt rest key entry child).map fun m => IndexMap.insert node seg (.object m)
      | some _ => none

/-- Remove the key at the end of the container, then every container that is left empty,
innermost first; and whether the key was there. -/
def removeAt : List String → String → Members → Members × Bool
  | [], key, node => (IndexMap.swapRemove node key, (IndexMap.get node key).isSome)
  | head :: rest, key, node =>
      match IndexMap.get node head with
      | some (.object child) =>
          let (child, removed) := removeAt rest key child
          let node := IndexMap.set node head (.object child)
          if removed && child.isEmpty then (IndexMap.swapRemove node head, removed)
          else (node, removed)
      | _ => (node, false)

/-- Insert or refresh `container.key = entry` in the JSON object of a file. -/
def upsert (env : Env) (file : File) (container : List String) (key : String) (entry : Json) :
    Except InstallError (Action × String) × File :=
  match readOpt env file, loadObject env file with
  | .error e, _ | _, .error e => (.error e, file)
  | .ok before, .ok root =>
      match insertAt container key entry root with
      | none => (.error (.notJsonObject "non-object"), file)
      | some root' =>
          let had := ((resolve root container).map fun m => (IndexMap.get m key).isSome).getD false
          let text := serialize env root' (hadTrailingNewline before)
          if before = some text then
            (.ok (.unchanged, dotted container key ++ " already current"), file)
          else
            match writeAll env file text with
            | (.error e, file) => (.error e, file)
            | (.ok (), file) =>
                (.ok (if had then (.updated, dotted container key ++ " refreshed")
                  else if before.isSome then (.installed, dotted container key ++ " added")
                  else (.installed, "file created")), file)

/-- Remove `container.key`; the file goes when nothing else is left. -/
def remove (env : Env) (file : File) (container : List String) (key : String) :
    Except InstallError (Action × String) × File :=
  match readOpt env file with
  | .error e => (.error e, file)
  | .ok none => (.ok (.absent, "no such file"), file)
  | .ok (some before) =>
      match loadObject env file with
      | .error e => (.error e, file)
      | .ok root =>
          match removeAt container key root with
          | (_, false) => (.ok (.absent, "no `" ++ dotted container key ++ "` entry"), file)
          | (root', true) =>
              if root'.isEmpty then
                match removeFile env file with
                | (.error e, file) => (.error e, file)
                | (.ok detail, file) => (.ok (.removed, detail), file)
              else
                match writeAll env file (serialize env root' (hadTrailingNewline (some before))) with
                | (.error e, file) => (.error e, file)
                | (.ok (), file) =>
                    (.ok (.removed, dotted container key ++ " removed, rest preserved"), file)

/-! ### What the two edits are to do -/

/-- **The law of `upsert`**: only the value of the entry changes, and only missing containers
are made, each behind the keys that were there. -/
structure Puts (path : List String) (entry : Json) (m m' : Members) : Prop where
  entry : Json.lookup (.object m') path = some entry
  others : ∀ p, ¬ p <+: path → ¬ path <+: p →
    Json.lookup (.object m') p = Json.lookup (.object m) p
  order : ∀ p seg, p ++ [seg] <+: path → Json.keysAt (.object m') p =
    some (let ks := (Json.keysAt (.object m) p).getD []
      if seg ∈ ks then ks else ks ++ [seg])

/-- From `q` down, the way to the entry is all there is. -/
def Emptied (m : Members) (path q : List String) : Prop :=
  ∀ p seg, q <+: p → p ++ [seg] <+: path → Json.keysAt (.object m) p = some [seg]

/-- The entry, and the containers that its removal leaves empty. -/
def Gone (m : Members) (path p : List String) : Prop :=
  p ≠ [] ∧ p <+: path ∧ Emptied m path p

/-- **The law of `remove`**: the entry goes, and the containers it leaves empty; every other
value and the order of every other key stay. -/
structure Removes (path : List String) (m m' : Members) : Prop where
  gone : ∀ p, Gone m path p → Json.lookup (.object m') p = none
  others : ∀ p, ¬ p <+: path → ¬ path <+: p →
    Json.lookup (.object m') p = Json.lookup (.object m) p
  kept : ∀ p seg, p ++ [seg] <+: path → ¬ Gone m path p → ¬ Gone m path (p ++ [seg]) →
    Json.keysAt (.object m') p = Json.keysAt (.object m) p
  order : ∀ p seg, ¬ Gone m path p → Gone m path (p ++ [seg]) →
    Json.keysAt (.object m') p = (Json.keysAt (.object m) p).map fun ks => ks.filter (· ≠ seg)

/-- What `remove` leaves of a file whose object has become `m'`. -/
def left (env : Env) (file : File) (m' : Members) : File :=
  if m'.isEmpty then { file with content := if file.linked then some "" else none }
  else { file with content := some (serialize env m' (hadTrailingNewline file.content)) }

/-- **What is claimed of `upsert`** on a file. -/
structure Upserts (env : Env) (file : File) (container : List String) (key : String)
    (entry : Json) : Prop where
  refused : ∀ e file', upsert env file container key entry = (.error e, file') → file' = file
  done : ∀ did file', upsert env file container key entry = (.ok did, file') →
    ∃ m m', loadObject env file = .ok m ∧ Puts (container ++ [key]) entry m m'
      ∧ file' = { file with
          content := some (serialize env m' (hadTrailingNewline file.content)) }

/-- **What is claimed of `remove`** on a file. -/
structure Uninstalls (env : Env) (file : File) (container : List String) (key : String) :
    Prop where
  refused : ∀ e file', remove env file container key = (.error e, file') → file' = file
  absent : ∀ detail file', remove env file container key = (.ok (.absent, detail), file') →
    file' = file
      ∧ ∀ m, loadObject env file = .ok m → Json.lookup (.object m) (container ++ [key]) = none
  done : ∀ action detail file', action ≠ .absent →
    remove env file container key = (.ok (action, detail), file') →
    ∃ m m', loadObject env file = .ok m
      ∧ m' = (removeAt container key m).1 ∧ (removeAt container key m).2
      ∧ Removes (container ++ [key]) m m' ∧ file' = left env file m'

/-- At most one key stands behind what goes. -/
def KeepsOrder (m : Members) (path : List String) : Prop :=
  ∀ p seg ks, Gone m path (p ++ [seg]) → Json.keysAt (.object m) p = some ks →
    (ks.dropWhile (· ≠ seg)).length ≤ 2

/-! ### Inserting -/

section Inserting

variable {container : List String} {key : String} {entry : Json} {m m' : Members}

/-- A prefix of a path is empty or starts as the path does. -/
theorem prefix_cons_cases {p : List String} {seg : String} {path : List String}
    (h : p <+: seg :: path) : p = [] ∨ ∃ q, p = seg :: q ∧ q <+: path := by
  cases p with
  | nil => exact Or.inl rfl
  | cons a q =>
      obtain ⟨rfl, hq⟩ := List.cons_prefix_cons.mp h
      exact Or.inr ⟨q, rfl, hq⟩

/-- Inserting below a segment: what is there, or an empty object, with the entry in it. -/
theorem puts_cons {seg : String} {path : List String} {c c' : Members}
    (hchild : IndexMap.get m seg = some (.object c) ∨ IndexMap.get m seg = none ∧ c = [])
    (h : Puts path entry c c') :
    Puts (seg :: path) entry m (IndexMap.insert m seg (.object c')) := by
  have hget := IndexMap.get_insert_self m seg (.object c')
  refine ⟨?_, ?_, ?_⟩
  · rw [Json.lookup_of_get hget, h.entry]
  · intro p hp hp'
    cases p with
    | nil => exact absurd List.nil_prefix hp
    | cons k q =>
        by_cases hk : k = seg
        · subst hk
          have hq : Json.lookup (.object c') q = Json.lookup (.object c) q :=
            h.others q (fun hpre => hp (List.cons_prefix_cons.mpr ⟨rfl, hpre⟩))
              (fun hpre => hp' (List.cons_prefix_cons.mpr ⟨rfl, hpre⟩))
          rw [Json.lookup_of_get hget, hq]
          rcases hchild with hsome | ⟨hnone, rfl⟩
          · rw [Json.lookup_of_get hsome]
          · rw [Json.lookup_of_get_none hnone, Json.lookup_empty]
            rintro rfl
            exact hp (List.cons_prefix_cons.mpr ⟨rfl, List.nil_prefix⟩)
        · rw [Json.lookup_cons, Json.lookup_cons, IndexMap.get_insert_of_ne hk]
  · intro p k hpk
    cases p with
    | nil =>
        obtain ⟨rfl, -⟩ := List.cons_prefix_cons.mp hpk
        rw [Json.keysAt_nil, IndexMap.keys_insert, Json.keysAt_nil]
        rfl
    | cons a q =>
        obtain ⟨rfl, hq⟩ := List.cons_prefix_cons.mp hpk
        rw [Json.keysAt_of_get hget, h.order q k hq]
        have hsame : (Json.keysAt (.object m) (a :: q)).getD []
            = (Json.keysAt (.object c) q).getD [] := by
          rcases hchild with hsome | ⟨hnone, rfl⟩
          · rw [Json.keysAt_of_get hsome]
          · have hmissing : Json.keysAt (.object m) (a :: q) = none := by
              rw [Json.keysAt, Json.lookup_of_get_none hnone]
            rw [hmissing]
            cases q with
            | nil => simp
            | cons b q => rw [Json.keysAt, Json.lookup_empty (by simp)]
        rw [hsame]

theorem insertAt_puts (h : insertAt container key entry m = some m') :
    Puts (container ++ [key]) entry m m' := by
  induction container generalizing m m' with
  | nil =>
      cases h
      have hget := IndexMap.get_insert_self m key entry
      refine ⟨by rw [List.nil_append, Json.lookup_of_get hget, Json.lookup_nil], ?_, ?_⟩
      · intro p hp hp'
        cases p with
        | nil => exact absurd List.nil_prefix hp
        | cons k q =>
            have hk : k ≠ key := by
              rintro rfl
              exact hp' (List.cons_prefix_cons.mpr ⟨rfl, List.nil_prefix⟩)
            rw [Json.lookup_cons, Json.lookup_cons, IndexMap.get_insert_of_ne hk]
      · intro p k hpk
        cases p with
        | nil =>
            obtain ⟨rfl, -⟩ := List.cons_prefix_cons.mp hpk
            rw [Json.keysAt_nil, IndexMap.keys_insert, Json.keysAt_nil]
            rfl
        | cons a q =>
            have hlen := hpk.length_le
            simp at hlen
  | cons seg rest ih =>
      rw [insertAt] at h
      split at h
      · obtain ⟨c', hc', rfl⟩ := Option.map_eq_some_iff.mp h
        exact puts_cons (Or.inr ⟨‹_›, rfl⟩) (ih hc')
      · obtain ⟨c', hc', rfl⟩ := Option.map_eq_some_iff.mp h
        exact puts_cons (Or.inl ‹_›) (ih hc')
      · cases h

end Inserting

/-! ### Removing -/

section Removing

variable {m c : Members} {head : String} {path : List String}

theorem emptied_cons (hget : IndexMap.get m head = some (.object c)) {q : List String} :
    Emptied m (head :: path) (head :: q) ↔ Emptied c path q := by
  constructor
  · intro h p seg hq hseg
    rw [← h (head :: p) seg (List.cons_prefix_cons.mpr ⟨rfl, hq⟩)
      (List.cons_prefix_cons.mpr ⟨rfl, hseg⟩), Json.keysAt_of_get hget]
  · intro h p seg hq hseg
    cases p with
    | nil => exact absurd (List.prefix_nil.mp hq) (by simp)
    | cons a p =>
        obtain ⟨rfl, hq'⟩ := List.cons_prefix_cons.mp hq
        rw [Json.keysAt_of_get hget]
        exact h p seg hq' (List.cons_prefix_cons.mp hseg).2

theorem emptied_nil (hget : IndexMap.get m head = some (.object c)) :
    Emptied m (head :: path) [] ↔ IndexMap.keys m = [head] ∧ Emptied c path [] := by
  constructor
  · intro h
    refine ⟨?_, (emptied_cons hget).mp fun p seg hq hseg => h p seg List.nil_prefix hseg⟩
    have hroot := h [] head List.nil_prefix (List.cons_prefix_cons.mpr ⟨rfl, List.nil_prefix⟩)
    rw [Json.keysAt_nil] at hroot
    exact Option.some.inj hroot
  · intro ⟨hkeys, hchild⟩ p seg _ hseg
    cases p with
    | nil =>
        obtain ⟨rfl, -⟩ := List.cons_prefix_cons.mp hseg
        rw [Json.keysAt_nil, hkeys]
    | cons a p =>
        obtain ⟨rfl, hseg'⟩ := List.cons_prefix_cons.mp hseg
        rw [Json.keysAt_of_get hget]
        exact hchild p seg List.nil_prefix hseg'

theorem gone_head (hget : IndexMap.get m head = some (.object c)) :
    Gone m (head :: path) [head] ↔ Emptied c path [] := by
  rw [Gone, emptied_cons hget]
  simp

theorem gone_cons (hget : IndexMap.get m head = some (.object c)) {p : List String}
    (hp : p ≠ []) : Gone m (head :: path) (head :: p) ↔ Gone c path p := by
  rw [Gone, Gone, emptied_cons hget, List.cons_prefix_cons]
  simp [hp]

/-- Nothing goes beside the path. -/
theorem Gone.head_eq {seg : String} {p : List String} (h : Gone m (head :: path) (seg :: p)) :
    seg = head := (List.cons_prefix_cons.mp h.2.1).1

theorem removeAt_snd (container : List String) (key : String) (m : Members) :
    (removeAt container key m).2 = (Json.lookup (.object m) (container ++ [key])).isSome := by
  induction container generalizing m with
  | nil =>
      rw [removeAt, List.nil_append, Json.lookup_cons]
      cases IndexMap.get m key <;> simp
  | cons head rest ih =>
      rw [removeAt, List.cons_append, Json.lookup_cons]
      cases hget : IndexMap.get m head with
      | none => rfl
      | some v =>
          cases v with
          | object c =>
              simp only [Option.bind_some, ← ih c]
              split <;> rfl
          | _ => cases rest <;> simp [Json.lookup]

/-- One level up: the container goes when it is empty. -/
theorem removeAt_cons (hget : IndexMap.get m head = some (.object c)) {rest : List String}
    {key : String} (hsome : (Json.lookup (.object c) (rest ++ [key])).isSome) :
    (removeAt (head :: rest) key m).1 =
      if (removeAt rest key c).1 = [] then
        IndexMap.swapRemove (IndexMap.set m head (.object (removeAt rest key c).1)) head
      else IndexMap.set m head (.object (removeAt rest key c).1) := by
  have hremoved : (removeAt rest key c).2 = true := by rw [removeAt_snd, hsome]
  rw [removeAt, hget]
  simp only [hremoved, Bool.true_and, List.isEmpty_iff]
  split <;> rfl

/-- The entry lies in an object. -/
theorem exists_child {rest : List String} {key : String}
    (hsome : (Json.lookup (.object m) (head :: (rest ++ [key]))).isSome) :
    ∃ c, IndexMap.get m head = some (.object c)
      ∧ (Json.lookup (.object c) (rest ++ [key])).isSome := by
  rw [Json.lookup_cons] at hsome
  cases hget : IndexMap.get m head with
  | none => simp [hget] at hsome
  | some v =>
      rw [hget, Option.bind_some] at hsome
      cases v with
      | object c => exact ⟨c, rfl, hsome⟩
      | _ => cases rest <;> simp [Json.lookup] at hsome

/-- Nothing is left exactly where there was nothing else. -/
theorem removeAt_eq_nil_iff {container : List String} {key : String}
    (hunique : Json.UniqueKeys (.object m))
    (hsome : (Json.lookup (.object m) (container ++ [key])).isSome) :
    (removeAt container key m).1 = [] ↔ Emptied m (container ++ [key]) [] := by
  induction container generalizing m with
  | nil =>
      have hmem : key ∈ IndexMap.keys m := by
        rw [List.nil_append, Json.lookup_cons] at hsome
        rw [IndexMap.mem_keys_iff]
        cases hget : IndexMap.get m key with
        | none => simp [hget] at hsome
        | some v => rfl
      rw [removeAt, IndexMap.swapRemove_eq_nil_iff hmem]
      constructor
      · intro hkeys p seg _ hseg
        cases p with
        | nil =>
            obtain ⟨rfl, -⟩ := List.cons_prefix_cons.mp hseg
            rw [Json.keysAt_nil, hkeys]
        | cons a p =>
            have hlen := hseg.length_le
            simp at hlen
      · intro h
        have hroot := h [] key List.nil_prefix List.prefix_rfl
        rw [Json.keysAt_nil] at hroot
        exact Option.some.inj hroot
  | cons head rest ih =>
      obtain ⟨c, hget, hchild⟩ := exists_child hsome
      have ih := ih (hunique.get hget) hchild
      have hmem : head ∈ IndexMap.keys m := IndexMap.mem_keys_of_get hget
      rw [removeAt_cons hget hchild, List.cons_append, emptied_nil hget, ← ih]
      constructor
      · intro h
        split at h
        · rename_i hnil
          rw [IndexMap.swapRemove_set _ hunique.keys, IndexMap.swapRemove_eq_nil_iff hmem] at h
          exact ⟨h, hnil⟩
        · have hkeys := congrArg IndexMap.keys h
          rw [IndexMap.keys_set] at hkeys
          rw [hkeys] at hmem
          cases hmem
      · intro h
        obtain ⟨hkeys, hnil⟩ := h
        rw [if_pos hnil, IndexMap.swapRemove_set _ hunique.keys,
          IndexMap.swapRemove_eq_nil_iff hmem, hkeys]

/-- The entry itself goes. -/
theorem gone_self (hne : path ≠ []) : Gone m path path := by
  refine ⟨hne, List.prefix_rfl, ?_⟩
  intro p seg hp hseg
  have hlen := hp.length_le
  have hlen' := hseg.length_le
  rw [List.length_append, List.length_singleton] at hlen'
  omega

/-- Below what goes, everything on the path goes. -/
theorem Gone.mono {p q : List String} (h : Gone m path q) (hqp : q <+: p) (hp : p <+: path) :
    Gone m path p := by
  obtain ⟨hne, -, hempty⟩ := h
  refine ⟨?_, hp, ?_⟩
  · rintro rfl
    exact hne (List.prefix_nil.mp hqp)
  · intro p' seg hp' hseg
    exact hempty p' seg (hqp.trans hp') hseg

/-- Beside the path nothing stands in what is left empty. -/
theorem Emptied.lookup_eq_none (h : Emptied m path []) {p : List String}
    (hp : ¬ p <+: path) (hp' : ¬ path <+: p) : Json.lookup (.object m) p = none := by
  induction path generalizing m p with
  | nil => exact absurd List.nil_prefix hp'
  | cons seg rest ih =>
      have hkeys : IndexMap.keys m = [seg] := by
        have hroot := h [] seg List.nil_prefix (List.cons_prefix_cons.mpr ⟨rfl, List.nil_prefix⟩)
        rw [Json.keysAt_nil] at hroot
        exact Option.some.inj hroot
      cases p with
      | nil => exact absurd List.nil_prefix hp
      | cons k q =>
          by_cases hk : k = seg
          · subst hk
            rw [List.cons_prefix_cons, not_and] at hp hp'
            cases rest with
            | nil => exact absurd List.nil_prefix (hp' rfl)
            | cons seg rest =>
                have hnext := h [k] seg List.nil_prefix
                  (List.cons_prefix_cons.mpr
                    ⟨rfl, List.cons_prefix_cons.mpr ⟨rfl, List.nil_prefix⟩⟩)
                cases hget : IndexMap.get m k with
                | none => rw [Json.lookup_of_get_none hget]
                | some v =>
                    rw [Json.lookup_of_get hget]
                    rw [Json.keysAt_of_get hget] at hnext
                    cases v with
                    | object c => exact ih ((emptied_nil hget).mp h).2 (hp rfl) (hp' rfl)
                    | _ => simp [Json.keysAt] at hnext
          · refine Json.lookup_of_get_none (IndexMap.get_eq_none_iff.mpr ?_)
            simpa [hkeys] using hk

/-- A key that goes with all below it: everything but the order of the others is as it is to
be. -/
theorem removes_head_iff (hunique : Json.UniqueKeys (.object m))
    (hmem : head ∈ IndexMap.keys m) (hgone : Gone m (head :: path) [head]) :
    Removes (head :: path) m (IndexMap.swapRemove m head)
      ↔ ((IndexMap.keys m).dropWhile (· ≠ head)).length ≤ 2 := by
  have hself := IndexMap.get_swapRemove_self (k := head) hunique.keys
  have hhead : ∀ q, [head] <+: head :: q := fun q =>
    List.cons_prefix_cons.mpr ⟨rfl, List.nil_prefix⟩
  rw [← IndexMap.keys_swapRemove_iff hunique.keys hmem]
  constructor
  · intro h
    have horder := h.order [] head (fun hnil => hnil.1 rfl) hgone
    rw [Json.keysAt_nil, Json.keysAt_nil, Option.map_some] at horder
    exact Option.some.inj horder
  · intro hkeys
    refine ⟨?_, ?_, ?_, ?_⟩
    · intro p ⟨hne, hpre, _⟩
      rcases prefix_cons_cases hpre with rfl | ⟨q, rfl, -⟩
      · exact absurd rfl hne
      · rw [Json.lookup_of_get_none hself]
    · intro p hp hp'
      cases p with
      | nil => exact absurd List.nil_prefix hp
      | cons k q =>
          by_cases hk : k = head
          · subst hk
            rw [Json.lookup_of_get_none hself]
            rw [List.cons_prefix_cons, not_and] at hp hp'
            cases hget : IndexMap.get m k with
            | none => rw [Json.lookup_of_get_none hget]
            | some v =>
                rw [Json.lookup_of_get hget]
                cases v with
                | object c =>
                    exact (((gone_head hget).mp hgone).lookup_eq_none (hp rfl) (hp' rfl)).symm
                | _ =>
                    cases q with
                    | nil => exact absurd List.nil_prefix (hp rfl)
                    | cons a q => simp [Json.lookup]
          · rw [Json.lookup_cons, Json.lookup_cons,
              IndexMap.get_swapRemove_of_ne hunique.keys hk]
    · intro p seg hseg hkeep hkeep'
      cases p with
      | nil =>
          obtain ⟨rfl, -⟩ := List.cons_prefix_cons.mp hseg
          exact absurd hgone hkeep'
      | cons a q =>
          obtain ⟨rfl, -⟩ := List.cons_prefix_cons.mp hseg
          exact absurd (hgone.mono (hhead _) ((List.prefix_append _ _).trans hseg)) hkeep
    · intro p seg hkeep hseg
      cases p with
      | nil =>
          rw [hseg.head_eq, Json.keysAt_nil, Json.keysAt_nil, hkeys]
          rfl
      | cons a q =>
          obtain rfl := hseg.head_eq
          exact absurd (hgone.mono (hhead _) ((List.prefix_append _ _).trans hseg.2.1)) hkeep

theorem keepsOrder_head_iff (hgone : Gone m (head :: path) [head]) :
    KeepsOrder m (head :: path)
      ↔ ((IndexMap.keys m).dropWhile (· ≠ head)).length ≤ 2 := by
  constructor
  · intro h
    exact h [] head _ hgone (Json.keysAt_nil m)
  · intro h p seg ks hseg hks
    cases p with
    | nil =>
        rw [Json.keysAt_nil] at hks
        cases hks
        rw [hseg.head_eq]
        exact h
    | cons a q =>
        obtain rfl := hseg.head_eq
        have hkeys := hgone.2.2 (a :: q) seg
          (List.cons_prefix_cons.mpr ⟨rfl, List.nil_prefix⟩) hseg.2.1
        rw [hkeys] at hks
        cases hks
        simp

/-- Where the head stays, what goes is what goes below it. -/
theorem gone_cons_iff (hget : IndexMap.get m head = some (.object c))
    (hkeep : ¬ Gone m (head :: path) [head]) {q : List String} :
    Gone m (head :: path) (head :: q) ↔ Gone c path q := by
  cases q with
  | nil =>
      constructor
      · intro h
        exact absurd h hkeep
      · intro h
        exact absurd rfl h.1
  | cons a q => exact gone_cons hget (by simp)

theorem removes_below_iff {c' : Members} (hget : IndexMap.get m head = some (.object c))
    (hkeep : ¬ Gone m (head :: path) [head]) :
    Removes (head :: path) m (IndexMap.set m head (.object c')) ↔ Removes path c c' := by
  have hget' := IndexMap.get_set_self (v := Json.object c') (IndexMap.mem_keys_of_get hget)
  have hgone : ∀ q, Gone m (head :: path) (head :: q) ↔ Gone c path q := fun _ =>
    gone_cons_iff hget hkeep
  constructor
  · intro h
    refine ⟨?_, ?_, ?_, ?_⟩
    · intro p hp
      rw [← h.gone (head :: p) ((hgone p).mpr hp), Json.lookup_of_get hget']
    · intro p hp hp'
      have hothers := h.others (head :: p) (fun hpre => hp (List.cons_prefix_cons.mp hpre).2)
        (fun hpre => hp' (List.cons_prefix_cons.mp hpre).2)
      rwa [Json.lookup_of_get hget', Json.lookup_of_get hget] at hothers
    · intro p seg hseg hp hp'
      have hkept := h.kept (head :: p) seg (List.cons_prefix_cons.mpr ⟨rfl, hseg⟩)
        (mt (hgone p).mp hp) (mt (hgone (p ++ [seg])).mp hp')
      rwa [Json.keysAt_of_get hget', Json.keysAt_of_get hget] at hkept
    · intro p seg hp hseg
      have horder := h.order (head :: p) seg (mt (hgone p).mp hp) ((hgone (p ++ [seg])).mpr hseg)
      rwa [Json.keysAt_of_get hget', Json.keysAt_of_get hget] at horder
  · intro h
    refine ⟨?_, ?_, ?_, ?_⟩
    · intro p hp
      rcases prefix_cons_cases hp.2.1 with rfl | ⟨q, rfl, -⟩
      · exact absurd rfl hp.1
      · rw [Json.lookup_of_get hget', h.gone q ((hgone q).mp hp)]
    · intro p hp hp'
      cases p with
      | nil => exact absurd List.nil_prefix hp
      | cons k q =>
          by_cases hk : k = head
          · subst hk
            rw [Json.lookup_of_get hget', Json.lookup_of_get hget]
            exact h.others q (fun hpre => hp (List.cons_prefix_cons.mpr ⟨rfl, hpre⟩))
              (fun hpre => hp' (List.cons_prefix_cons.mpr ⟨rfl, hpre⟩))
          · rw [Json.lookup_cons, Json.lookup_cons, IndexMap.get_set_of_ne hk]
    · intro p seg hseg hp hp'
      cases p with
      | nil => rw [Json.keysAt_nil, Json.keysAt_nil, IndexMap.keys_set]
      | cons a q =>
          obtain ⟨rfl, hseg'⟩ := List.cons_prefix_cons.mp hseg
          rw [Json.keysAt_of_get hget', Json.keysAt_of_get hget]
          exact h.kept q seg hseg' (mt (hgone q).mpr hp) (mt (hgone (q ++ [seg])).mpr hp')
    · intro p seg hp hseg
      cases p with
      | nil => exact absurd (hseg.head_eq ▸ hseg) hkeep
      | cons a q =>
          obtain rfl := hseg.head_eq
          rw [Json.keysAt_of_get hget', Json.keysAt_of_get hget]
          exact h.order q seg (mt (hgone q).mpr hp) ((hgone (q ++ [seg])).mp hseg)

theorem keepsOrder_below_iff (hget : IndexMap.get m head = some (.object c))
    (hkeep : ¬ Gone m (head :: path) [head]) :
    KeepsOrder m (head :: path) ↔ KeepsOrder c path := by
  constructor
  · intro h p seg ks hseg hks
    exact h (head :: p) seg ks ((gone_cons_iff hget hkeep).mpr hseg)
      (by rw [Json.keysAt_of_get hget, hks])
  · intro h p seg ks hseg hks
    cases p with
    | nil => exact absurd (hseg.head_eq ▸ hseg) hkeep
    | cons a q =>
        obtain rfl := hseg.head_eq
        rw [Json.keysAt_of_get hget] at hks
        exact h q seg ks ((gone_cons_iff hget hkeep).mp hseg) hks

/-- By induction on the containers: the one that goes is looked at from outside, the ones
around it only have another value in them. -/
theorem removes_iff {container : List String} {key : String}
    (hunique : Json.UniqueKeys (.object m))
    (hsome : (Json.lookup (.object m) (container ++ [key])).isSome) :
    Removes (container ++ [key]) m (removeAt container key m).1
      ↔ KeepsOrder m (container ++ [key]) := by
  induction container generalizing m with
  | nil =>
      have hmem : key ∈ IndexMap.keys m := by
        rw [IndexMap.mem_keys_iff]
        rw [List.nil_append, Json.lookup_cons] at hsome
        exact Option.isSome_of_isSome_bind hsome
      have hgone : Gone m [key] [key] := gone_self (by simp)
      rw [removeAt, List.nil_append, removes_head_iff hunique hmem hgone,
        keepsOrder_head_iff hgone]
  | cons head rest ih =>
      obtain ⟨c, hget, hchild⟩ := exists_child hsome
      have hunique' := hunique.get hget
      have hhead : (removeAt rest key c).1 = [] ↔ Gone m (head :: (rest ++ [key])) [head] := by
        rw [removeAt_eq_nil_iff hunique' hchild, gone_head hget]
      rw [removeAt_cons hget hchild, List.cons_append]
      by_cases hnil : (removeAt rest key c).1 = []
      · have hgone := hhead.mp hnil
        rw [if_pos hnil, IndexMap.swapRemove_set _ hunique.keys,
          removes_head_iff hunique (IndexMap.mem_keys_of_get hget) hgone,
          keepsOrder_head_iff hgone]
      · have hkeep := mt hhead.mpr hnil
        rw [if_neg hnil, removes_below_iff hget hkeep, keepsOrder_below_iff hget hkeep,
          ih hunique' hchild]

end Removing

/-! ### The files -/

section Files

variable {env : Env} {file : File} {container : List String} {key : String} {entry : Json}

theorem loadObject_unique {m : Members} (h : loadObject env file = .ok m) :
    Json.UniqueKeys (.object m) := by
  rw [loadObject] at h
  cases hread : readOpt env file with
  | error e =>
      rw [hread] at h
      cases h
  | ok before =>
      rw [hread] at h
      cases before with
      | none =>
          cases h
          exact Json.uniqueKeys_empty
      | some text =>
          change (if Text.trim text = "" then _ else _) = _ at h
          split at h
          · cases h
            exact Json.uniqueKeys_empty
          · split at h
            case h_2 map hparse =>
              cases h
              exact env.unique text _ hparse
            all_goals cases h

theorem writeAll_error {text : String} {e : InstallError} {file' : File}
    (h : writeAll env file text = (.error e, file')) : file' = file := by
  rw [writeAll] at h
  split at h
  · cases h
    rfl
  · cases h

theorem writeAll_ok {text : String} {file' : File}
    (h : writeAll env file text = (.ok (), file')) :
    file' = { file with content := some text } ∧ env.refusesWrite = none := by
  rw [writeAll] at h
  split at h
  · cases h
  · cases h
    exact ⟨rfl, ‹_›⟩

theorem readOpt_ok {before : Option String} (h : readOpt env file = .ok before) :
    before = file.content := by
  rw [readOpt] at h
  split at h
  · cases h
  · cases h
    rfl

theorem upserts : Upserts env file container key entry := by
  cases hread : readOpt env file with
  | error e =>
      have hupsert : upsert env file container key entry = (.error e, file) := by
        rw [upsert, hread]
      refine ⟨?_, ?_⟩
      · intro e' file' h
        rw [hupsert] at h
        cases h
        rfl
      · intro did file' h
        rw [hupsert] at h
        cases h
  | ok before =>
      obtain rfl := readOpt_ok hread
      cases hload : loadObject env file with
      | error e =>
          have hupsert : upsert env file container key entry = (.error e, file) := by
            rw [upsert, hread, hload]
          refine ⟨?_, ?_⟩
          · intro e' file' h
            rw [hupsert] at h
            cases h
            rfl
          · intro did file' h
            rw [hupsert] at h
            cases h
      | ok m =>
          refine ⟨?_, ?_⟩
          · intro e file' h
            simp only [upsert, hread, hload] at h
            split at h
            · cases h
              rfl
            · split at h
              · cases h
              · split at h
                · rename_i hwrite
                  cases h
                  exact writeAll_error hwrite
                · cases h
          · intro did file' h
            simp only [upsert, hread, hload] at h
            split at h
            · cases h
            · rename_i m' hinsert
              refine ⟨m, m', hload, insertAt_puts hinsert, ?_⟩
              split at h
              · rename_i hsame
                cases h
                rw [← hsame]
              · split at h
                · cases h
                · rename_i hwrite
                  cases h
                  exact (writeAll_ok hwrite).1

/-- What `remove` does where the entry is there. -/
theorem remove_present {m : Members} (hload : loadObject env file = .ok m)
    (hread : readOpt env file = .ok file.content) (hfile : file.content.isSome)
    (hsome : (removeAt container key m).2 = true) :
    (env.refusesWrite = none ∧ ∃ detail, remove env file container key
        = (.ok (.removed, detail), left env file (removeAt container key m).1))
      ∨ ∃ e, env.refusesWrite = some e
        ∧ remove env file container key = (.error e, file) := by
  obtain ⟨before, hbefore⟩ := Option.isSome_iff_exists.mp hfile
  have hpair : removeAt container key m = ((removeAt container key m).1, true) := by
    rw [← hsome]
  rw [remove, hread, hbefore, left]
  simp only [hload]
  rw [hpair]
  simp only [removeFile, writeAll]
  cases env.refusesWrite with
  | some e => exact Or.inr ⟨e, rfl, by split <;> rfl⟩
  | none =>
      refine Or.inl ⟨rfl, ?_⟩
      split
      · cases file.linked
        · exact ⟨_, rfl⟩
        · exact ⟨_, rfl⟩
      · rw [hbefore]
        exact ⟨_, rfl⟩

theorem uninstalls_of_error {e : InstallError}
    (h : remove env file container key = (.error e, file)) :
    Uninstalls env file container key := by
  refine ⟨?_, ?_, ?_⟩
  · intro e' file' h'
    rw [h] at h'
    cases h'
    rfl
  · intro detail file' h'
    rw [h] at h'
    cases h'
  · intro action detail file' _ h'
    rw [h] at h'
    cases h'

theorem uninstalls_of_absent {detail : String}
    (h : remove env file container key = (.ok (.absent, detail), file))
    (hnone : ∀ m, loadObject env file = .ok m →
      Json.lookup (.object m) (container ++ [key]) = none) :
    Uninstalls env file container key := by
  refine ⟨?_, ?_, ?_⟩
  · intro e' file' h'
    rw [h] at h'
    cases h'
  · intro detail' file' h'
    rw [h] at h'
    cases h'
    exact ⟨rfl, hnone⟩
  · intro action detail' file' hne h'
    rw [h] at h'
    cases h'
    exact absurd rfl hne

theorem uninstalls_iff : Uninstalls env file container key
    ↔ ∀ m, env.refusesWrite = none → loadObject env file = .ok m →
        (Json.lookup (.object m) (container ++ [key])).isSome →
        KeepsOrder m (container ++ [key]) := by
  cases hread : readOpt env file with
  | error e =>
      have hload : loadObject env file = .error e := by
        rw [loadObject, hread]
        rfl
      rw [hload]
      exact iff_of_true (uninstalls_of_error (by rw [remove, hread])) fun _ _ h => nomatch h
  | ok before =>
      obtain rfl := readOpt_ok hread
      cases hfile : file.content with
      | none =>
          have hload : loadObject env file = .ok [] := by
            rw [loadObject, hread, hfile]
            rfl
          have hnone : Json.lookup (.object []) (container ++ [key]) = none :=
            Json.lookup_empty (by simp)
          refine iff_of_true (uninstalls_of_absent (by rw [remove, hread, hfile]) ?_) ?_
          · intro m hm
            rw [hload] at hm
            cases hm
            exact hnone
          · intro m _ hm hsome
            rw [hload] at hm
            cases hm
            rw [hnone] at hsome
            cases hsome
      | some text =>
          cases hload : loadObject env file with
          | error e =>
              refine iff_of_true (@uninstalls_of_error _ _ _ _ e ?_) fun _ _ h => nomatch h
              rw [remove, hread, hfile]
              simp only [hload]
          | ok m =>
              have hunique := loadObject_unique hload
              cases hsome : (removeAt container key m).2 with
              | false =>
                  have hnone : Json.lookup (.object m) (container ++ [key]) = none := by
                    rw [removeAt_snd] at hsome
                    exact Option.isSome_eq_false_iff.mp hsome |> Option.isNone_iff_eq_none.mp
                  have hpair : removeAt container key m = ((removeAt container key m).1, false) := by
                    rw [← hsome]
                  refine iff_of_true (@uninstalls_of_absent _ _ _ _
                    ("no `" ++ dotted container key ++ "` entry") ?_ ?_) ?_
                  · rw [remove, hread, hfile]
                    simp only [hload]
                    rw [hpair]
                  · intro m' hm'
                    rw [hload] at hm'
                    cases hm'
                    exact hnone
                  · intro m' _ hm' hsome'
                    cases hm'
                    rw [hnone] at hsome'
                    cases hsome'
              | true =>
                  have hentry : (Json.lookup (.object m) (container ++ [key])).isSome := by
                    rw [← removeAt_snd, hsome]
                  have hlaw := removes_iff hunique hentry
                  rcases remove_present hload hread (by rw [hfile]; rfl) hsome with
                    ⟨hwrite, detail, hremove⟩ | ⟨e, hwrite, hremove⟩
                  · constructor
                    · intro h m' _ hm' _
                      cases hm'
                      obtain ⟨m₀, m₁, hm₀, rfl, -, hremoves, -⟩ :=
                        h.done .removed detail _ (by simp) hremove
                      rw [hload] at hm₀
                      cases hm₀
                      exact hlaw.mp hremoves
                    · intro h
                      refine ⟨?_, ?_, ?_⟩
                      · intro e' file' h'
                        rw [hremove] at h'
                        cases h'
                      · intro detail' file' h'
                        rw [hremove] at h'
                        cases h'
                      · intro action detail' file' _ h'
                        rw [hremove] at h'
                        cases h'
                        exact ⟨m, _, hload, rfl, hsome, hlaw.mpr (h m hwrite rfl hentry), rfl⟩
                  · refine iff_of_true (uninstalls_of_error hremove) fun m' hwrite' => ?_
                    rw [hwrite] at hwrite'
                    cases hwrite'

/-- **Nothing but the entry is touched** exactly where at most one key stands behind what
goes: `file` is what the entry is put in, `later` what the user's edits have made of it. -/
theorem reversible_iff (env : Env) (file later : File) (container : List String) (key : String)
    (entry : Json) :
    Upserts env file container key entry ∧ Uninstalls env later container key
      ↔ ∀ m, env.refusesWrite = none → loadObject env later = .ok m →
          (Json.lookup (.object m) (container ++ [key])).isSome →
          KeepsOrder m (container ++ [key]) := by
  rw [uninstalls_iff]
  exact and_iff_right upserts

/-- Two servers added behind ours. -/
def sampleObject : Members :=
  [("mcpServers", .object [("filigrio", .null), ("a", .null), ("b", .null)])]

def sampleEnv : Env where
  parse _ := some (.object sampleObject)
  print _ := "\x7b\x7d"
  refusesRead := none
  refusesWrite := none
  unique := by
    intro text v h
    cases h
    refine Json.uniqueKeys_object (by decide) fun seg v hv => ?_
    obtain rfl : v = .object [("filigrio", .null), ("a", .null), ("b", .null)] := by
      have hmem := IndexMap.mem_of_get hv
      simp [sampleObject] at hmem
      exact hmem.2
    refine Json.uniqueKeys_object (by decide) fun seg v hv => ?_
    obtain rfl : v = .null := by
      have hmem := IndexMap.mem_of_get hv
      simp only [List.mem_cons, Prod.mk.injEq, List.not_mem_nil, or_false] at hmem
      rcases hmem with ⟨-, h⟩ | ⟨-, h⟩ | ⟨-, h⟩ <;> exact h
    exact Json.uniqueKeys_null

/-- `{filigrio, a, b}` becomes `{b, a}`. -/
theorem not_reversible :
    ¬ ∀ (env : Env) (file later : File) (container : List String) (key : String) (entry : Json),
      Upserts env file container key entry ∧ Uninstalls env later container key := by
  intro h
  have hlaw := (h sampleEnv ⟨none, false⟩ ⟨some "\x7b", false⟩ ["mcpServers"] "filigrio" .null).2
  have hload : loadObject sampleEnv ⟨some "\x7b", false⟩ = .ok sampleObject := by
    have hblank : Text.trim "\x7b" ≠ "" := by decide +kernel
    simp [loadObject, readOpt, sampleEnv, hblank, bind, Except.bind, pure, Except.pure]
  have horder : KeepsOrder sampleObject ["mcpServers", "filigrio"] :=
    uninstalls_iff.mp hlaw sampleObject rfl hload (by decide)
  have hlen := horder ["mcpServers"] "filigrio" ["filigrio", "a", "b"] (gone_self (by simp))
    (by decide)
  exact absurd hlen (by decide)

end Files

end Filigrio.JsonEntry
