import Filigrio.Core.State
import Filigrio.Lib.Canon
import Filigrio.Lib.Text
import Filigrio.Lib.Utf8
import Mathlib.Data.String.Basic

/-!
# Filigrio.Hook.NameStatus

`git diff --name-status -z -M -C` as a changeset. The records are one flat stream of fields
with one or two paths behind each status; `parseFields` pairs them again, and what a cut
leaves of the last record is dropped (`parseFields_append_cut`). Names that are swapped or
chained stand in two lists at once, and the lists still make the new tree of the old one
(`nameStatus_transition`).
-/

namespace Filigrio.Hook

/-! ### The parser -/

/-- `raw.split(0)` without the empty fields, decoded. -/
def fields (raw : List UInt8) : List String :=
  ((raw.splitOn 0).filter fun f => !f.isEmpty).map Utf8.fromUtf8Lossy

/-- The records of a stream of fields, pushed to a changeset. A truncated one is dropped. -/
def parseFields : List String → ChangeSet → ChangeSet
  | [], cs => cs
  | status :: rest, cs =>
      match (Utf8.encode status).head? with
      | none => parseFields rest cs
      | some code =>
          if code = 'R'.toUInt8 ∨ code = 'C'.toUInt8 then
            match rest with
            | old :: new :: rest =>
                parseFields rest { cs with
                  removed := if code = 'R'.toUInt8 then cs.removed ++ [old] else cs.removed
                  added := cs.added ++ [new] }
            | _ => cs
          else
            match rest with
            | path :: rest =>
                parseFields rest (
                  if code = 'A'.toUInt8 then { cs with added := cs.added ++ [path] }
                  else if code = 'D'.toUInt8 then { cs with removed := cs.removed ++ [path] }
                  else { cs with modified := cs.modified ++ [path] })
            | [] => cs

/-- Each list sorted, without repeats. -/
def normalize (cs : ChangeSet) : ChangeSet where
  added := Canon.canon cs.added
  modified := Canon.canon cs.modified
  removed := Canon.canon cs.removed

def parseNameStatus (raw : List UInt8) : ChangeSet := normalize (parseFields (fields raw) ⟨[], [], []⟩)

/-! ### What git writes -/

/-- A path as git writes it under `-z`. -/
structure GitPath where
  text : String
  ne : text ≠ ""
  noNul : '\x00' ∉ text.toList

/-- The similarity behind a status letter, if any. -/
structure Score where
  text : String
  noNul : '\x00' ∉ text.toList

inductive Status
  | added
  | modified
  | typeChanged
  | deleted
  | unmerged
  deriving DecidableEq, Repr

def Status.letter : Status → Char
  | .added => 'A'
  | .modified => 'M'
  | .typeChanged => 'T'
  | .deleted => 'D'
  | .unmerged => 'U'

inductive Record
  | one (status : Status) (score : Score) (path : GitPath)
  | renamed (score : Score) (old new : GitPath)
  | copied (score : Score) (src new : GitPath)

namespace Record

def fields : Record → List String
  | one status score path => [String.singleton status.letter ++ score.text, path.text]
  | renamed score old new => ["R" ++ score.text, old.text, new.text]
  | copied score src new => ["C" ++ score.text, src.text, new.text]

/-- The path that the new tree has by this record. -/
def brings : Record → Option String
  | one .added _ path => some path.text
  | renamed _ _ new | copied _ _ new => some new.text
  | _ => none

/-- The path that leaves the old tree by this record. -/
def takes : Record → Option String
  | one .deleted _ path => some path.text
  | renamed _ old _ => some old.text
  | _ => none

/-- The path that stays, with another content or type. -/
def changes : Record → Option String
  | one .modified _ path | one .typeChanged _ path | one .unmerged _ path => some path.text
  | _ => none

end Record

/-- The fields, each ended by a NUL. -/
def listing (fs : List String) : List UInt8 := fs.flatMap fun f => Utf8.encode f ++ [0]

/-- The records that are whole in the first `k` fields. -/
def complete : ℕ → List Record → List Record
  | _, [] => []
  | k, r :: rest => if r.fields.length ≤ k then r :: complete (k - r.fields.length) rest else []

/-- **A listing describes a transition** of trees: a path that is brought is in the new one,
one that is only taken is not, one that is only changed stays, and no other is touched. -/
def Describes {Blob : Type} (old new : String → Option Blob) (records : List Record) : Prop :=
  ∀ p,
    if p ∈ records.filterMap Record.brings then (new p).isSome
    else if p ∈ records.filterMap Record.takes then new p = none
    else if p ∈ records.filterMap Record.changes then (new p).isSome = (old p).isSome
    else new p = old p

/-- **The tree transition** in the words of a changeset. -/
structure Transition {Blob : Type} (old new : String → Option Blob) (cs : ChangeSet) : Prop where
  union : ∀ p, ((old p).isSome ∧ p ∉ cs.removed) ∨ p ∈ cs.added ↔ (new p).isSome
  differs : ∀ p, (old p).isSome → (new p).isSome → old p ≠ new p →
    p ∈ cs.added ∨ p ∈ cs.modified
  removed : ∀ p ∈ cs.removed, (new p).isSome → p ∈ cs.added

/-- A changeset holds the paths of the records, each in the role its status gives it, sorted
and once; the source of a copy has no role. -/
structure Reads (records : List Record) (cs : ChangeSet) : Prop where
  added : ∀ p, p ∈ cs.added ↔ p ∈ records.filterMap Record.brings
  modified : ∀ p, p ∈ cs.modified ↔ p ∈ records.filterMap Record.changes
  removed : ∀ p, p ∈ cs.removed ↔ p ∈ records.filterMap Record.takes
  sortedAdded : cs.added.Pairwise (· < ·)
  sortedModified : cs.modified.Pairwise (· < ·)
  sortedRemoved : cs.removed.Pairwise (· < ·)

/-! ### Fields -/

/-- What stands in a stream between two NULs. -/
def IsField (f : String) : Prop := f ≠ "" ∧ '\x00' ∉ f.toList

theorem fields_listing_append {fs : List String} (h : ∀ f ∈ fs, IsField f) (tail : List UInt8) :
    fields (listing fs ++ tail) = fs ++ fields tail := by
  induction fs with
  | nil => rfl
  | cons f fs ih =>
      obtain ⟨hne, hnul⟩ := h f List.mem_cons_self
      have ih := ih fun f' hf' => h f' (List.mem_cons_of_mem f hf')
      have hsplit : (listing (f :: fs) ++ tail).splitOn 0
          = Utf8.encode f :: (listing fs ++ tail).splitOn 0 := by
        rw [listing, List.flatMap_cons, List.append_assoc, List.append_assoc,
          List.singleton_append,
          List.splitOn_append_cons_self_of_not_mem (Utf8.zero_notMem_encode hnul)]
        rfl
      rw [fields, fields] at ih
      rw [fields, hsplit, List.filter_cons_of_pos, List.map_cons, Utf8.fromUtf8Lossy_encode, ih]
      · rfl
      · simpa [Utf8.encode_eq_nil_iff] using hne

theorem fields_listing {fs : List String} (h : ∀ f ∈ fs, IsField f) : fields (listing fs) = fs := by
  have happend := fields_listing_append h []
  rwa [List.append_nil, show fields [] = [] from rfl, List.append_nil] at happend

/-- The last field needs no NUL. -/
theorem fields_dropLast {fs : List String} (h : ∀ f ∈ fs, IsField f) :
    fields (listing fs).dropLast = fs := by
  rcases List.eq_nil_or_concat fs with rfl | ⟨init, f, rfl⟩
  · rfl
  · rw [List.concat_eq_append] at h ⊢
    obtain ⟨hne, hnul⟩ := h f (by simp)
    have hlast : (listing (init ++ [f])).dropLast = listing init ++ Utf8.encode f := by
      simp [listing, ← List.append_assoc]
    have hfield : fields (Utf8.encode f) = [f] := by
      rw [fields, List.splitOn_eq_singleton (Utf8.zero_notMem_encode hnul),
        List.filter_cons_of_pos, List.filter_nil, List.map_singleton, Utf8.fromUtf8Lossy_encode]
      simpa [Utf8.encode_eq_nil_iff] using hne
    rw [hlast, fields_listing_append (fun f' hf' => h f' (by simp [hf'])), hfield]

theorem isField_of_letter {letter : Char} (h : letter ≠ '\x00') (score : Score) :
    IsField (String.singleton letter ++ score.text) := by
  refine ⟨by simp, ?_⟩
  rw [String.toList_append, String.toList_singleton, List.mem_append, List.mem_singleton]
  intro hmem
  rcases hmem with heq | hmem
  · exact h heq.symm
  · exact score.noNul hmem

theorem isField_fields (r : Record) : ∀ f ∈ r.fields, IsField f := by
  have hpath : ∀ p : GitPath, IsField p.text := fun p => ⟨p.ne, p.noNul⟩
  intro f hf
  cases r with
  | one status score path =>
      rcases List.mem_cons.mp hf with rfl | hf
      · exact isField_of_letter (by cases status <;> decide) score
      · exact List.mem_singleton.mp hf ▸ hpath path
  | renamed score old new =>
      simp only [Record.fields, List.mem_cons, List.not_mem_nil, or_false] at hf
      rcases hf with rfl | rfl | rfl
      · exact @isField_of_letter 'R' (by decide) score
      · exact hpath old
      · exact hpath new
  | copied score src new =>
      simp only [Record.fields, List.mem_cons, List.not_mem_nil, or_false] at hf
      rcases hf with rfl | rfl | rfl
      · exact @isField_of_letter 'C' (by decide) score
      · exact hpath src
      · exact hpath new

/-! ### Pairing -/

/-- The first byte of a status is its letter. -/
theorem head?_encode {letter : Char} {code : UInt8}
    (h : (String.utf8EncodeChar letter).head? = some code) (text : String) :
    (Utf8.encode (String.singleton letter ++ text)).head? = some code := by
  rw [Utf8.encode, String.toList_append, String.toList_singleton, List.singleton_append,
    List.flatMap_cons, List.head?_append_of_ne_nil _ String.utf8EncodeChar_ne_nil, h]

/-- One record at the front: its paths go where its status says. -/
theorem parseFields_record (r : Record) (rest : List String) (cs : ChangeSet) :
    parseFields (r.fields ++ rest) cs = parseFields rest
      ⟨cs.added ++ r.brings.toList, cs.modified ++ r.changes.toList,
        cs.removed ++ r.takes.toList⟩ := by
  cases r with
  | one status score path =>
      have hcode : (Utf8.encode (String.singleton status.letter ++ score.text)).head?
          = some status.letter.toUInt8 := head?_encode (by cases status <;> rfl) score.text
      have hone : ¬ (status.letter.toUInt8 = 'R'.toUInt8 ∨ status.letter.toUInt8 = 'C'.toUInt8) := by
        cases status <;> decide
      rw [Record.fields, List.cons_append, List.singleton_append, parseFields, hcode]
      simp only [if_neg hone]
      cases status <;> simp +decide [Record.brings, Record.changes, Record.takes]
  | renamed score old new =>
      have hcode : (Utf8.encode ("R" ++ score.text)).head? = some 'R'.toUInt8 :=
        @head?_encode 'R' _ rfl score.text
      rw [Record.fields, List.cons_append, List.cons_append, List.singleton_append, parseFields,
        hcode]
      simp [Record.brings, Record.changes, Record.takes]
  | copied score src new =>
      have hcode : (Utf8.encode ("C" ++ score.text)).head? = some 'C'.toUInt8 :=
        @head?_encode 'C' _ rfl score.text
      rw [Record.fields, List.cons_append, List.cons_append, List.singleton_append, parseFields,
        hcode]
      simp +decide [Record.brings, Record.changes, Record.takes]

theorem parseFields_alone (status : String) (cs : ChangeSet) : parseFields [status] cs = cs := by
  rw [parseFields]
  split
  · rfl
  · split <;> rfl

/-- A rename or a copy with one path. -/
theorem parseFields_half {letter : Char} (h : letter = 'R' ∨ letter = 'C') (score : Score)
    (path : String) (cs : ChangeSet) :
    parseFields [String.singleton letter ++ score.text, path] cs = cs := by
  have hcode : (Utf8.encode (String.singleton letter ++ score.text)).head?
      = some letter.toUInt8 := head?_encode (by rcases h with rfl | rfl <;> rfl) score.text
  have hpair : letter.toUInt8 = 'R'.toUInt8 ∨ letter.toUInt8 = 'C'.toUInt8 := by
    rcases h with rfl | rfl <;> decide
  rw [parseFields, hcode]
  simp only [if_pos hpair]

/-- A truncated record is dropped. -/
theorem parseFields_cut {r : Record} {cut : List String} (hcut : cut <+: r.fields)
    (hne : cut ≠ r.fields) (cs : ChangeSet) : parseFields cut cs = cs := by
  have hlen : cut.length < r.fields.length := by
    refine lt_of_le_of_ne hcut.length_le fun heq => ?_
    exact hne (hcut.eq_of_length heq)
  match cut with
  | [] => rfl
  | [status] => exact parseFields_alone status cs
  | [status, path] =>
      obtain ⟨rest, hrest⟩ := hcut
      cases r with
      | one st score p => simp [Record.fields] at hlen
      | renamed score old new =>
          obtain ⟨rfl, -⟩ := List.cons.inj hrest
          exact parseFields_half (Or.inl rfl) score path cs
      | copied score src new =>
          obtain ⟨rfl, -⟩ := List.cons.inj hrest
          exact parseFields_half (Or.inr rfl) score path cs
  | _ :: _ :: _ :: _ =>
      cases r <;> simp only [Record.fields, List.length_cons, List.length_nil] at hlen <;> omega

/-- A stream of records, cut in the one behind them. -/
theorem parseFields_append_cut (records : List Record) {cut : List String}
    (hcut : cut = [] ∨ ∃ r : Record, cut <+: r.fields ∧ cut ≠ r.fields) (cs : ChangeSet) :
    parseFields (records.flatMap Record.fields ++ cut) cs =
      ⟨cs.added ++ records.filterMap Record.brings, cs.modified ++ records.filterMap Record.changes,
        cs.removed ++ records.filterMap Record.takes⟩ := by
  induction records generalizing cs with
  | nil =>
      rcases hcut with rfl | ⟨r, hpre, hne⟩
      · simp [parseFields]
      · simp [parseFields_cut hpre hne]
  | cons r' records ih =>
      rw [List.flatMap_cons, List.append_assoc, parseFields_record, ih, List.filterMap_cons,
        List.filterMap_cons, List.filterMap_cons]
      cases r'.brings <;> cases r'.changes <;> cases r'.takes <;> simp

/-- What a cut leaves: the whole records, and a part of the next one. -/
theorem take_fields (k : ℕ) (records : List Record) :
    ∃ cut, (records.flatMap Record.fields).take k
        = (complete k records).flatMap Record.fields ++ cut
      ∧ (cut = [] ∨ ∃ r : Record, cut <+: r.fields ∧ cut ≠ r.fields) := by
  induction records generalizing k with
  | nil => exact ⟨[], by simp [complete], Or.inl rfl⟩
  | cons r records ih =>
      rw [List.flatMap_cons, complete]
      by_cases hk : r.fields.length ≤ k
      · obtain ⟨cut, htake, hcut⟩ := ih (k - r.fields.length)
        refine ⟨cut, ?_, hcut⟩
        rw [if_pos hk, List.flatMap_cons, List.append_assoc, ← htake, List.take_append,
          List.take_of_length_le hk]
      · refine ⟨r.fields.take k, ?_, Or.inr ⟨r, List.take_prefix _ _, ?_⟩⟩
        · rw [if_neg hk, List.take_append_of_le_length (by omega)]
          rfl
        · intro heq
          have hlen := congrArg List.length heq
          rw [List.length_take] at hlen
          omega

theorem complete_of_le {k : ℕ} {records : List Record}
    (h : (records.flatMap Record.fields).length ≤ k) : complete k records = records := by
  induction records generalizing k with
  | nil => rfl
  | cons r records ih =>
      rw [List.flatMap_cons, List.length_append] at h
      rw [complete, if_pos (by omega), ih (by omega)]

/-! ### The listing -/

theorem reads_normalize (records : List Record) :
    Reads records (normalize ⟨records.filterMap Record.brings, records.filterMap Record.changes,
      records.filterMap Record.takes⟩) where
  added _ := Canon.mem_canon
  modified _ := Canon.mem_canon
  removed _ := Canon.mem_canon
  sortedAdded := Canon.canon_pairwise _
  sortedModified := Canon.canon_pairwise _
  sortedRemoved := Canon.canon_pairwise _

theorem parseNameStatus_of_fields {raw : List UInt8} {records : List Record} {k : ℕ}
    (h : fields raw = (records.flatMap Record.fields).take k) :
    parseNameStatus raw = normalize ⟨(complete k records).filterMap Record.brings,
      (complete k records).filterMap Record.changes,
      (complete k records).filterMap Record.takes⟩ := by
  obtain ⟨cut, htake, hcut⟩ := take_fields k records
  rw [parseNameStatus, h, htake, parseFields_append_cut _ hcut]
  rfl

/-- What is read is the transition that is described. -/
theorem Reads.transition {Blob : Type} {old new : String → Option Blob} {records : List Record}
    {cs : ChangeSet} (h : Reads records cs) (hdesc : Describes old new records) :
    Transition old new cs := by
  have hnew : ∀ p, p ∈ cs.added → (new p).isSome := by
    intro p hp
    have hp' := hdesc p
    rwa [if_pos ((h.added p).mp hp)] at hp'
  have hgone : ∀ p, p ∉ cs.added → p ∈ cs.removed → new p = none := by
    intro p hp hremoved
    have hp' := hdesc p
    rwa [if_neg (mt (h.added p).mpr hp), if_pos ((h.removed p).mp hremoved)] at hp'
  have hstays : ∀ p, p ∉ cs.added → p ∉ cs.removed →
      (new p).isSome = (old p).isSome ∧ (p ∉ cs.modified → new p = old p) := by
    intro p hp hremoved
    have hp' := hdesc p
    rw [if_neg (mt (h.added p).mpr hp), if_neg (mt (h.removed p).mpr hremoved)] at hp'
    split at hp'
    · rename_i hchanged
      exact ⟨hp', fun hnot => absurd ((h.modified p).mpr hchanged) hnot⟩
    · exact ⟨by rw [hp'], fun _ => hp'⟩
  refine ⟨?_, ?_, ?_⟩
  · intro p
    by_cases hadded : p ∈ cs.added
    · exact iff_of_true (Or.inr hadded) (hnew p hadded)
    · by_cases hremoved : p ∈ cs.removed
      · simp [hadded, hremoved, hgone p hadded hremoved]
      · simp [hadded, hremoved, (hstays p hadded hremoved).1]
  · intro p hold hsome hdiff
    by_cases hadded : p ∈ cs.added
    · exact Or.inl hadded
    · have hremoved : p ∉ cs.removed := by
        intro hremoved
        rw [hgone p hadded hremoved] at hsome
        cases hsome
      by_contra hnot
      have hmodified : p ∉ cs.modified := fun hm => hnot (Or.inr hm)
      exact hdiff ((hstays p hadded hremoved).2 hmodified).symm
  · intro p hremoved hsome
    by_contra hadded
    rw [hgone p hadded hremoved] at hsome
    cases hsome

/-- **A name-status listing is read as the tree transition it describes**, and cut behind any
field, with or without the NUL that ends it, as its complete records. -/
theorem nameStatus_transition (records : List Record) :
    (∀ (Blob : Type) (old new : String → Option Blob), Describes old new records →
      Transition old new (parseNameStatus (listing (records.flatMap Record.fields))))
    ∧ Reads records (parseNameStatus (listing (records.flatMap Record.fields)))
    ∧ ∀ k, let cut := listing ((records.flatMap Record.fields).take k)
        let read := parseNameStatus (listing ((complete k records).flatMap Record.fields))
        Reads (complete k records) read
          ∧ parseNameStatus cut = read ∧ parseNameStatus cut.dropLast = read := by
  have hfields : ∀ rs : List Record, ∀ f ∈ rs.flatMap Record.fields, IsField f := by
    intro rs f hf
    obtain ⟨r, -, hr⟩ := List.mem_flatMap.mp hf
    exact isField_fields r f hr
  have hwhole : ∀ rs : List Record, parseNameStatus (listing (rs.flatMap Record.fields))
      = normalize ⟨rs.filterMap Record.brings, rs.filterMap Record.changes,
          rs.filterMap Record.takes⟩ := by
    intro rs
    have hread : fields (listing (rs.flatMap Record.fields))
        = (rs.flatMap Record.fields).take (rs.flatMap Record.fields).length := by
      rw [fields_listing (hfields rs), List.take_length]
    rw [parseNameStatus_of_fields hread, complete_of_le le_rfl]
  have hreads : ∀ rs : List Record,
      Reads rs (parseNameStatus (listing (rs.flatMap Record.fields))) := by
    intro rs
    rw [hwhole rs]
    exact reads_normalize rs
  refine ⟨fun Blob old new h => (hreads records).transition h, hreads records, ?_⟩
  intro k
  have htake : ∀ f ∈ (records.flatMap Record.fields).take k, IsField f :=
    fun f hf => hfields records f (List.mem_of_mem_take hf)
  refine ⟨hreads _, ?_, ?_⟩
  · rw [parseNameStatus_of_fields (fields_listing htake), hwhole]
  · rw [parseNameStatus_of_fields (fields_dropLast htake), hwhole]

/-- Two files that swapped their names. -/
def swapped : List Record :=
  let score : Score := ⟨"100", by decide⟩
  let a : GitPath := ⟨"a", by decide, by decide⟩
  let b : GitPath := ⟨"b", by decide, by decide⟩
  [.renamed score a b, .renamed score b a]

def swapOld (p : String) : Option ℕ := if p = "a" then some 1 else if p = "b" then some 2 else none

def swapNew (p : String) : Option ℕ := if p = "a" then some 2 else if p = "b" then some 1 else none

theorem nameStatus_transition_swapped :
    Transition swapOld swapNew (parseNameStatus (listing (swapped.flatMap Record.fields))) := by
  refine (nameStatus_transition swapped).1 ℕ swapOld swapNew ?_
  intro p
  by_cases ha : p = "a"
  · simp [ha, swapped, Record.brings, swapNew]
  · by_cases hb : p = "b"
    · simp [hb, swapped, Record.brings, swapNew]
    · simp [ha, hb, swapped, Record.brings, Record.takes, Record.changes, swapNew, swapOld]

/-! ### Our own output -/

def isOwnOutput (path : String) : Bool :=
  Text.startsWith path ".filigrio-out/" || Text.startsWith path ".filigrio/"

/-- Drop our own output; and how many paths were dropped. -/
def stripOwnOutput (cs : ChangeSet) : ChangeSet × ℕ :=
  let kept := fun paths : List String => paths.filter fun p => !isOwnOutput p
  let stripped : ChangeSet := ⟨kept cs.added, kept cs.modified, kept cs.removed⟩
  (stripped, cs.touched.length - stripped.touched.length)

/-- A tree without our own output. -/
def withoutOwn {Blob : Type} (tree : String → Option Blob) (p : String) : Option Blob :=
  if isOwnOutput p then none else tree p

/-- What is submitted is the transition of the trees without our own output. -/
theorem Transition.stripOwnOutput {Blob : Type} {old new : String → Option Blob} {cs : ChangeSet}
    (h : Transition old new cs) :
    Transition (withoutOwn old) (withoutOwn new) (stripOwnOutput cs).1 := by
  have hmem : ∀ (paths : List String) p,
      p ∈ paths.filter (fun p => !isOwnOutput p) ↔ p ∈ paths ∧ isOwnOutput p = false := by
    simp
  refine ⟨?_, ?_, ?_⟩
  · intro p
    rw [Hook.stripOwnOutput, hmem, hmem, withoutOwn, withoutOwn]
    cases hown : isOwnOutput p with
    | true => simp
    | false => simpa using h.union p
  · intro p hold hnew hdiff
    rw [withoutOwn] at hold hnew hdiff
    rw [withoutOwn] at hdiff
    rw [Hook.stripOwnOutput, hmem, hmem]
    cases hown : isOwnOutput p with
    | true => simp [hown] at hold
    | false =>
        rw [hown] at hold hnew hdiff
        simpa using h.differs p hold hnew hdiff
  · intro p hp hnew
    rw [Hook.stripOwnOutput, hmem] at hp ⊢
    rw [withoutOwn, hp.2] at hnew
    exact ⟨h.removed p hp.1 hnew, hp.2⟩

end Filigrio.Hook
