import Filigrio.Lib.IndexMap

/-!
# JSON values

Values whose objects remember the order of their keys, and what stands in them at a path of
keys. Two objects that agree on the keys and on the other values at every path are equal to
a reader.
-/

/-- A number: what is not an integer in range is kept as its text. -/
inductive JsonNumber
  | posInt (n : ℕ)
  | negInt (n : ℕ)
  | float (text : String)
  deriving DecidableEq, Repr

inductive Json
  | null
  | bool (b : Bool)
  | number (n : JsonNumber)
  | string (s : String)
  | array (items : List Json)
  | object (members : List (String × Json))

namespace Json

/-- The pairs of an object. -/
abbrev Members : Type := List (String × Json)

/-- The value at a path of keys. -/
def lookup : Json → List String → Option Json
  | v, [] => some v
  | .object m, seg :: rest =>
      match IndexMap.get m seg with
      | some v => lookup v rest
      | none => none
  | _, _ :: _ => none

/-- The keys of the object at a path. -/
def keysAt (v : Json) (path : List String) : Option (List String) :=
  match v.lookup path with
  | some (.object m) => some (IndexMap.keys m)
  | _ => none

/-- No object on a path of keys has a key twice. -/
def UniqueKeys (v : Json) : Prop := ∀ path ks, v.keysAt path = some ks → ks.Nodup

/-! ### Reading a value -/

/-- `value.get(key)`. -/
def get? : Json → String → Option Json
  | .object m, key => IndexMap.get m key
  | _, _ => none

/-- `value[key]`: null where there is none. -/
def index (v : Json) (key : String) : Json := (v.get? key).getD .null

def asStr : Json → Option String
  | .string s => some s
  | _ => none

def asU64 : Json → Option ℕ
  | .number (.posInt n) => some n
  | _ => none

def asArray : Json → Option (List Json)
  | .array items => some items
  | _ => none

/-! ### Paths of keys -/

variable {m : Members} {seg : String} {path : List String}

@[simp] theorem lookup_nil (v : Json) : v.lookup [] = some v := by
  cases v <;> rfl

theorem lookup_cons (m : Members) (seg : String) (path : List String) :
    lookup (.object m) (seg :: path) = (IndexMap.get m seg).bind fun v => v.lookup path := by
  rw [lookup]
  cases IndexMap.get m seg <;> rfl

theorem lookup_of_get {v : Json} (h : IndexMap.get m seg = some v) :
    lookup (.object m) (seg :: path) = v.lookup path := by
  rw [lookup_cons, h, Option.bind_some]

theorem lookup_of_get_none (h : IndexMap.get m seg = none) :
    lookup (.object m) (seg :: path) = none := by
  rw [lookup_cons, h, Option.bind_none]

/-- Nothing stands below an empty object. -/
theorem lookup_empty (h : path ≠ []) : lookup (.object []) path = none := by
  cases path with
  | nil => exact absurd rfl h
  | cons seg path => exact lookup_of_get_none (IndexMap.get_nil seg)

@[simp] theorem keysAt_nil (m : Members) : keysAt (.object m) [] = some (IndexMap.keys m) := by
  simp [keysAt]

theorem keysAt_congr {v v' : Json} {path' : List String}
    (h : v.lookup path = v'.lookup path') : v.keysAt path = v'.keysAt path' := by
  rw [keysAt, keysAt, h]

theorem keysAt_of_get {v : Json} (h : IndexMap.get m seg = some v) :
    keysAt (.object m) (seg :: path) = v.keysAt path := keysAt_congr (lookup_of_get h)

theorem UniqueKeys.keys (h : UniqueKeys (.object m)) : (IndexMap.keys m).Nodup :=
  h [] _ (keysAt_nil m)

theorem UniqueKeys.get (h : UniqueKeys (.object m)) {v : Json}
    (hv : IndexMap.get m seg = some v) : v.UniqueKeys := by
  intro path ks hks
  exact h (seg :: path) ks (by rw [keysAt_of_get hv, hks])

theorem uniqueKeys_object (hkeys : (IndexMap.keys m).Nodup)
    (hmembers : ∀ seg v, IndexMap.get m seg = some v → v.UniqueKeys) :
    UniqueKeys (.object m) := by
  intro path ks hks
  cases path with
  | nil =>
      rw [keysAt_nil] at hks
      cases hks
      exact hkeys
  | cons seg path =>
      cases hget : IndexMap.get m seg with
      | none => simp [keysAt, lookup_of_get_none hget] at hks
      | some v =>
          rw [keysAt_of_get hget] at hks
          exact hmembers seg v hget path ks hks

theorem uniqueKeys_empty : UniqueKeys (.object []) :=
  uniqueKeys_object List.nodup_nil fun _ _ h => nomatch h

theorem uniqueKeys_null : UniqueKeys .null := by
  intro path ks hks
  cases path <;> simp [keysAt, lookup] at hks

end Json
