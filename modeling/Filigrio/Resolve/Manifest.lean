import Filigrio.Core.Ports
import Filigrio.Lib.Json
import Filigrio.Lib.Lines
import Filigrio.Lib.SplitOnce

/-!
# Filigrio.Resolve.Manifest

Reading a project manifest: JSON by its keys, TOML and `go.mod` by scans over their lines. A
manifest's content is its text.

The scans read a plainly written manifest as it is meant, whatever else stands in it
(`toml_round_trip`, `go_mod_round_trip`): the name, and the dependencies in their order. Of the
comments among the dependencies they may take the first words for more of these; no such name
is one that a project has.
-/

namespace Filigrio.ManifestFile

def default : ParsedManifest := ⟨none, none, []⟩

/-- `text.lines()`. -/
def textLines (text : String) : List String := (Lines.lines text.toList).map String.ofList

/-! ### JSON -/

/-- The keys of the dependency fields. -/
def jsonDeps (v : Json) : List String :=
  ["dependencies", "devDependencies", "peerDependencies"].flatMap fun field =>
    match v.get? field with
    | some (.object members) => IndexMap.keys members
    | _ => []

/-- npm and deno. What is no JSON yields the empty manifest. -/
def parseJson (fromSlice : String → Option Json) (text : String) : ParsedManifest :=
  match fromSlice text with
  | none => default
  | some v =>
      { name := (v.get? "name").bind Json.asStr
        entry := ((v.get? "main").bind Json.asStr).or
          (((v.get? "module").bind Json.asStr).or ((v.get? "exports").bind Json.asStr))
        deps := jsonDeps v }

/-! ### TOML -/

/-- The value of a `key = "quoted"` line, if the line assigns the key. -/
def tomlStrValue (line key : String) : Option String :=
  match Text.splitOnce line "=" with
  | none => none
  | some (lhs, rhs) =>
      if Text.trim lhs ≠ key then none
      else
        let val := Text.trim (Text.before (Text.trim rhs) "#")
        (Text.stripPrefix val "\"").bind fun s => Text.stripSuffix s "\""

structure TomlScan where
  manifest : ParsedManifest
  cur : String

def isDependencies (table : String) : Bool :=
  table = "dependencies" || table = "dev-dependencies"

/-- The dependency that a line of such a table names. -/
def tomlDep (t : String) : Option String :=
  match Text.splitOnce t "=" with
  | none => none
  | some (lhs, _) =>
      let key := Text.trim lhs
      if key ≠ "" ∧ Text.startsWith key "[" = false then some key else none

def tomlHeader (t : String) : Option String :=
  (Text.stripPrefix t "[").bind fun s => Text.stripSuffix s "]"

/-- One line of the scan. -/
def tomlLine (sect : String) (st : TomlScan) (line : String) : TomlScan :=
  let t := Text.trim line
  match tomlHeader t with
  | some table => { st with cur := Text.trim table }
  | none =>
      { st with
        manifest :=
          { st.manifest with
            name :=
              if st.cur = sect then st.manifest.name.or (tomlStrValue t "name")
              else st.manifest.name
            deps := st.manifest.deps
              ++ if isDependencies st.cur then (tomlDep t).toList else [] } }

/-- The name under `sect`, and the keys of the dependency tables. -/
def parseToml (text sect : String) : ParsedManifest :=
  ((textLines text).foldl (tomlLine sect) ⟨default, ""⟩).manifest

/-- PEP 621, or else poetry; without dependencies. -/
def parsePyproject (text : String) : ParsedManifest :=
  let project := parseToml text "project"
  if project.name.isSome then { project with deps := [] }
  else { parseToml text "tool.poetry" with deps := [] }

/-! ### go.mod -/

/-- `s.split_whitespace().next()`. -/
def firstWord (s : String) : Option String :=
  let w := (s.toList.dropWhile Text.isWhite).takeWhile fun c => !Text.isWhite c
  if w = [] then none else some (String.ofList w)

/-- `s.trim_matches('"')`. -/
def unquote (s : String) : String :=
  String.ofList (Text.trimEndChars (· = '"') (s.toList.dropWhile (· = '"')))

structure GoScan where
  manifest : ParsedManifest
  inRequire : Bool

def GoScan.push (st : GoScan) (path : Option String) : GoScan :=
  { st with manifest := { st.manifest with deps := st.manifest.deps ++ path.toList } }

/-- One line of the scan. -/
def goLine (st : GoScan) (line : String) : GoScan :=
  let t := Text.trim line
  match Text.stripPrefix t "module " with
  | some rest =>
      let name := Text.trim (unquote (Text.trim rest))
      if name ≠ "" then
        { st with manifest := { st.manifest with name := st.manifest.name.or (some name) } }
      else st
  | none =>
      if t = "require (" then { st with inRequire := true }
      else if st.inRequire = true ∧ t = ")" then { st with inRequire := false }
      else
        match Text.stripPrefix t "require " with
        | some one => st.push (firstWord one)
        | none => if st.inRequire then st.push ((firstWord t).filter (· ≠ "")) else st

def parseGoMod (text : String) : ParsedManifest :=
  ((textLines text).foldl goLine ⟨default, false⟩).manifest

/-- Parse a manifest by basename. -/
def parse (fromSlice : String → Option Json) (basename text : String) : ParsedManifest :=
  if basename = "package.json" ∨ basename = "deno.json" ∨ basename = "deno.jsonc" then
    parseJson fromSlice text
  else if basename = "Cargo.toml" then parseToml text "package"
  else if basename = "pyproject.toml" then parsePyproject text
  else if basename = "go.mod" then parseGoMod text
  else default

/-! ### Documents -/

/-- Whitespace within a line; a carriage return at its end may be part of it. -/
structure Pad where
  text : String
  white : ∀ c ∈ text.toList, Text.isWhite c = true
  noBreak : '\n' ∉ text.toList

/-- Text within a line that neither starts nor ends in whitespace. -/
structure Phrase where
  text : String
  solid : Lines.Solid text.toList
  noBreak : '\n' ∉ text.toList

/-- What stands after a comment sign, to the last character that is no whitespace. -/
structure Remark where
  text : String
  solid : ∀ c ∈ text.toList.getLast?, Text.isWhite c = false
  noBreak : '\n' ∉ text.toList

/-- What a key is set to: a quoted text, after which a comment may stand, or something else. -/
inductive TomlValue
  | str (s : String) (pad : Pad) (comment : Option Remark)
  | other (raw : Phrase)

def TomlValue.render : TomlValue → String
  | .str s _ none => "\"" ++ s ++ "\""
  | .str s pad (some comment) => "\"" ++ s ++ "\"" ++ pad.text ++ "#" ++ comment.text
  | .other raw => raw.text

inductive TomlItem
  | table (before : Pad) (name : Phrase) (after : Pad)
  | entry (key : Phrase) (before after : Pad) (value : TomlValue)
  | comment (text : Remark)
  /-- Blank lines, and the lines of a value that goes on. -/
  | other (text : Phrase)

def TomlItem.render : TomlItem → String
  | .table before name after => "[" ++ (before.text ++ name.text ++ after.text) ++ "]"
  | .entry key before after value => key.text ++ before.text ++ "=" ++ (after.text ++ value.render)
  | .comment text => "#" ++ text.text
  | .other text => text.text

/-- An item on its line. -/
structure TomlLine where
  lead : Pad
  item : TomlItem
  trail : Pad

def TomlLine.render (l : TomlLine) : String := l.lead.text ++ l.item.render ++ l.trail.text

/-- Lines as a text. -/
def renderLines : List String → String
  | [] => ""
  | l :: ls => l ++ "\n" ++ renderLines ls

/-- A quoted text has nothing in it that is escaped, and what else there is does not start with
a quote. -/
def TomlValue.Plain : TomlValue → Prop
  | .str s _ _ => '"' ∉ s.toList ∧ '#' ∉ s.toList ∧ '\n' ∉ s.toList
  | .other raw => raw.text ≠ "" ∧ raw.text.toList.head? ≠ some '"'

/-- **Plainly written**: keys are keys, and a line that goes on does not look like another. -/
def TomlItem.Plain : TomlItem → Prop
  | .table _ _ _ => True
  | .entry key _ _ value =>
      key.text ≠ "" ∧ '=' ∉ key.text.toList ∧ key.text.toList.head? ≠ some '['
        ∧ key.text.toList.head? ≠ some '#' ∧ value.Plain
  | .comment _ => True
  | .other text => '=' ∉ text.text.toList ∧ text.text.toList.head? ≠ some '['

/-- The text that an item sets the name to. -/
def TomlItem.name : TomlItem → Option String
  | .entry key _ _ (.str s _ _) => if key.text = "name" then some s else none
  | _ => none

def TomlItem.key : TomlItem → Option String
  | .entry key _ _ _ => some key.text
  | _ => none

theorem trim_ofList (cs : List Char) : Text.trim (String.ofList cs) = String.ofList (Lines.trim cs) := by
  rw [Text.trim, String.toList_ofList]
  rfl

theorem trim_eq (s : String) : Text.trim s = String.ofList (Lines.trim s.toList) := by
  rw [← trim_ofList, String.ofList_toList]

/-- What is padded is what is left when it is trimmed. -/
theorem trim_padded (lead trail : Pad) {s : String} (h : Lines.Solid s.toList) :
    Lines.trim (lead.text ++ s ++ trail.text).toList = s.toList := by
  rw [String.toList_append, String.toList_append, Lines.trim_append trail.white,
    Lines.trim_prepend lead.white, h.trim]

theorem trim_pad (lead trail : Pad) {s : String} (h : Lines.Solid s.toList) :
    Text.trim (lead.text ++ s ++ trail.text) = s := by
  rw [trim_eq, trim_padded lead trail h, String.ofList_toList]

def noPad : Pad := ⟨"", by simp, by simp⟩

theorem trim_phrase (p : Phrase) : Text.trim p.text = p.text := by
  rw [trim_eq, p.solid.trim, String.ofList_toList]

theorem textLines_renderLines {ls : List String} (h : ∀ l ∈ ls, '\n' ∉ l.toList) :
    textLines (renderLines ls) = ls.map fun l => String.ofList (Lines.chompReturn l.toList) := by
  induction ls with
  | nil => rfl
  | cons l ls ih =>
      have ih := ih fun l' hl' => h l' (List.mem_cons_of_mem l hl')
      have hlist : (renderLines (l :: ls)).toList = l.toList ++ '\n' :: (renderLines ls).toList := by
        rw [renderLines, String.toList_append, String.toList_append, List.append_assoc]
        rfl
      rw [textLines, hlist, Lines.lines_line (h l List.mem_cons_self), List.map_cons, List.map_cons,
        ← ih]
      rfl

theorem stripPrefix_none {s : String} {c : Char} {p : String} (hp : p.toList.head? = some c)
    (h : s.toList.head? ≠ some c) : Text.stripPrefix s p = none := by
  rw [Text.stripPrefix, if_neg]
  rw [Text.startsWith, List.isPrefixOf_iff_prefix]
  intro hpre
  obtain ⟨rest, hrest⟩ := List.head?_eq_some_iff.mp hp
  rw [hrest] at hpre
  obtain ⟨tail, htail⟩ := hpre
  rw [← htail] at h
  exact h rfl

section Separator

variable {s sep : String} {c : Char} (hsep : sep.toList = [c])

end Separator

/-! ### Items on their lines -/

theorem quote_toList : ("\"" : String).toList = ['"'] := rfl

/-- A remark after its sign ends solidly. -/
theorem getLast_remark (s : List Char) (r : Remark) :
    ∀ c ∈ (s ++ '#' :: r.text.toList).getLast?, Text.isWhite c = false := by
  intro c hc
  rw [List.getLast?_append, List.getLast?_cons] at hc
  cases hlast : r.text.toList.getLast? with
  | none =>
      rw [hlast] at hc
      cases hc
      decide
  | some d =>
      rw [hlast] at hc
      cases hc
      exact r.solid d hlast

theorem TomlValue.solid_render {v : TomlValue} (h : v.Plain) :
    v.render.toList ≠ [] ∧ Lines.Solid v.render.toList := by
  cases v with
  | str s pad comment =>
      cases comment with
      | none =>
          have hlist : (TomlValue.str s pad none).render.toList = '"' :: (s.toList ++ ['"']) := by
            rw [TomlValue.render, String.toList_append, String.toList_append]
            rfl
          rw [hlist]
          refine ⟨List.cons_ne_nil _ _, fun c hc => ?_, fun c hc => ?_⟩
          · cases hc
            decide
          · rw [← List.cons_append, List.getLast?_concat] at hc
            cases hc
            decide
      | some comment =>
          have hlist : (TomlValue.str s pad (some comment)).render.toList
              = '"' :: (s.toList ++ ['"'] ++ pad.text.toList) ++ '#' :: comment.text.toList := by
            simp [TomlValue.render]
          rw [hlist]
          refine ⟨by simp, fun c hc => ?_, getLast_remark _ comment⟩
          cases hc
          decide
  | other raw =>
      exact ⟨fun hnil => h.1 (String.toList_injective hnil), raw.solid⟩

theorem TomlItem.Plain.solid_render {item : TomlItem} (h : item.Plain) :
    Lines.Solid item.render.toList := by
  cases item with
  | table before name after =>
      have hlist : (TomlItem.table before name after).render.toList
          = '[' :: ((before.text ++ name.text ++ after.text).toList ++ [']']) := by
        rw [TomlItem.render, String.toList_append, String.toList_append]
        rfl
      rw [hlist]
      refine ⟨fun c hc => ?_, fun c hc => ?_⟩
      · cases hc
        decide
      · rw [← List.cons_append, List.getLast?_concat] at hc
        cases hc
        decide
  | entry key before after value =>
      obtain ⟨hkey, -, -, -, hvalue⟩ := h
      have hsolid := TomlValue.solid_render hvalue
      obtain ⟨k, ks, hks⟩ := List.exists_cons_of_ne_nil
        fun hnil => hkey (String.toList_injective hnil)
      have hlist : (TomlItem.entry key before after value).render.toList
          = (k :: (ks ++ before.text.toList ++ '=' :: after.text.toList)) ++ value.render.toList := by
        simp [TomlItem.render, hks]
      rw [hlist]
      refine ⟨fun c hc => ?_, fun c hc => ?_⟩
      · cases hc
        exact key.solid.1 k (by rw [hks]; rfl)
      · rw [List.getLast?_append_of_ne_nil _ hsolid.1] at hc
        exact hsolid.2.2 c hc
  | comment text =>
      have hlist : (TomlItem.comment text).render.toList = [] ++ '#' :: text.text.toList := by
        rw [TomlItem.render, String.toList_append]
        rfl
      rw [hlist]
      refine ⟨fun c hc => ?_, getLast_remark _ text⟩
      cases hc
      decide
  | other text => exact text.solid

theorem TomlItem.noBreak_render {item : TomlItem} (h : item.Plain) : '\n' ∉ item.render.toList := by
  cases item with
  | table before name after =>
      simp [TomlItem.render, before.noBreak, name.noBreak, after.noBreak]
  | entry key before after value =>
      have hvalue : '\n' ∉ value.render.toList := by
        cases value with
        | str s pad comment =>
            obtain ⟨-, -, -, -, -, -, hs⟩ := h
            cases comment with
            | none => simp [TomlValue.render, hs]
            | some comment => simp [TomlValue.render, hs, pad.noBreak, comment.noBreak]
        | other raw => exact raw.noBreak
      simp [TomlItem.render, key.noBreak, before.noBreak, after.noBreak, hvalue]
  | comment text => simp [TomlItem.render, text.noBreak]
  | other text => exact text.noBreak

theorem TomlLine.noBreak_render {l : TomlLine} (h : l.item.Plain) : '\n' ∉ l.render.toList := by
  simp [TomlLine.render, l.lead.noBreak, l.trail.noBreak, TomlItem.noBreak_render h]

theorem head_ne_of_toList {s : String} {c d : Char} {cs : List Char} (h : s.toList = c :: cs)
    (hne : c ≠ d) : s.toList.head? ≠ some d := by
  rw [h]
  exact fun heq => hne (Option.some.inj heq)

/-- The dependency that an item is taken for. -/
def TomlItem.dep (item : TomlItem) : Option String :=
  match item with
  | .table _ _ _ => none
  | .entry key _ _ _ => some key.text
  | .comment text => tomlDep ("#" ++ text.text)
  | .other _ => none

/-- A module path: a word. -/
structure Word where
  text : String
  ne_empty : text ≠ ""
  noWhite : ∀ c ∈ text.toList, Text.isWhite c = false

/-- A requirement: a module path, after which a version and a comment may stand. -/
structure GoSpec where
  path : Word
  tail : String
  apart : ∀ c ∈ tail.toList.head?, Text.isWhite c = true
  solid : ∀ c ∈ tail.toList.getLast?, Text.isWhite c = false
  noBreak : '\n' ∉ tail.toList

def GoSpec.render (spec : GoSpec) : String := spec.path.text ++ spec.tail

inductive GoItem
  | module (pad : Pad) (path : Word) (quoted : Bool)
  | require (pad : Pad) (spec : GoSpec)
  | open
  | line (spec : GoSpec)
  | close
  | comment (text : Remark)
  | other (text : Phrase)

def GoItem.render : GoItem → String
  | .module pad path quoted =>
      "module " ++ (pad.text ++ if quoted then "\"" ++ path.text ++ "\"" else path.text)
  | .require pad spec => "require " ++ (pad.text ++ spec.render)
  | .open => "require ("
  | .line spec => spec.render
  | .close => ")"
  | .comment text => "//" ++ text.text
  | .other text => text.text

structure GoLine where
  lead : Pad
  item : GoItem
  trail : Pad

def GoLine.render (l : GoLine) : String := l.lead.text ++ l.item.render ++ l.trail.text

/-- Other directives, their blocks, blank lines. -/
def Foreign (t : String) : Prop :=
  Text.startsWith t "module " = false ∧ Text.startsWith t "require " = false

/-- **Plainly written**, in a block of requirements and outside: the items of the block are
requirements, comments and blank lines, and the paths are no words of the format. -/
def GoPlain (inside : Bool) : List GoLine → Prop
  | [] => True
  | l :: ls =>
      match l.item, inside with
      | .module _ path _, false => '"' ∉ path.text.toList ∧ GoPlain false ls
      | .require _ spec, false =>
          spec.path.text.toList.head? ≠ some '(' ∧ Text.startsWith spec.path.text "//" = false
            ∧ GoPlain false ls
      | .open, false => GoPlain true ls
      | .other text, false => Foreign text.text ∧ GoPlain false ls
      | .comment _, inside => GoPlain inside ls
      | .line spec, true =>
          spec.path.text ∉ ["module", "require", ")"] ∧ Text.startsWith spec.path.text "//" = false
            ∧ GoPlain true ls
      | .other text, true => text.text = "" ∧ GoPlain true ls
      | .close, true => GoPlain false ls
      | _, _ => False

/-- **The module's name**: the first that the file gives. -/
def moduleName (doc : List GoLine) : Option String :=
  doc.findSome? fun l =>
    match l.item with
    | .module _ path _ => some path.text
    | _ => none

/-- The requirement that an item states. -/
def GoItem.required : GoItem → Option String
  | .require _ spec | .line spec => some spec.path.text
  | _ => none

/-- **The modules that a file requires.** -/
def required (doc : List GoLine) : List String := doc.filterMap fun l => l.item.required

/-! ### Words -/

theorem takeWhile_word {w tail : List Char} (hw : ∀ c ∈ w, Text.isWhite c = false)
    (htail : ∀ c ∈ tail.head?, Text.isWhite c = true) :
    (w ++ tail).takeWhile (fun c => !Text.isWhite c) = w := by
  rw [List.takeWhile_append_of_pos (fun c hc => by rw [hw c hc]; rfl)]
  cases tail with
  | nil => simp
  | cons d ds => rw [List.takeWhile_cons_of_neg (by rw [htail d rfl]; simp), List.append_nil]

theorem GoSpec.firstWord_pad (pad : Pad) (spec : GoSpec) :
    firstWord (pad.text ++ spec.render) = some spec.path.text := by
  obtain ⟨c, cs, hcs⟩ := List.exists_cons_of_ne_nil
    fun hnil => spec.path.ne_empty (String.toList_injective hnil)
  have hc : Text.isWhite c = false := spec.path.noWhite c (by rw [hcs]; exact List.mem_cons_self)
  have hdrop : (pad.text ++ spec.render).toList.dropWhile Text.isWhite
      = spec.path.text.toList ++ spec.tail.toList := by
    rw [String.toList_append, List.dropWhile_append_of_pos pad.white, GoSpec.render,
      String.toList_append, hcs, List.cons_append,
      List.dropWhile_cons_of_neg (by rw [hc]; exact Bool.false_ne_true)]
  rw [firstWord, hdrop, takeWhile_word spec.path.noWhite spec.apart, if_neg (by rw [hcs]; exact List.cons_ne_nil c cs),
    String.ofList_toList]

theorem GoSpec.firstWord_render (spec : GoSpec) : firstWord spec.render = some spec.path.text := by
  have h := spec.firstWord_pad noPad
  rwa [noPad, String.empty_append] at h

/-- What starts with a word and a blank has the word for its first. -/
theorem GoSpec.path_of_startsWith {spec : GoSpec} {w : String}
    (hw : ∀ c ∈ w.toList, Text.isWhite c = false)
    (h : Text.startsWith spec.render (w ++ " ") = true) : spec.path.text = w := by
  rw [Text.startsWith, List.isPrefixOf_iff_prefix] at h
  obtain ⟨rest, hrest⟩ := h
  have hword := takeWhile_word spec.path.noWhite spec.apart
  have hlist : spec.path.text.toList ++ spec.tail.toList = w.toList ++ (' ' :: rest) := by
    rw [← String.toList_append, ← GoSpec.render, ← hrest, String.toList_append, List.append_assoc]
    rfl
  rw [hlist, takeWhile_word hw fun c hc => by cases hc; decide] at hword
  exact (String.toList_injective hword).symm

theorem GoSpec.solid_render (spec : GoSpec) : Lines.Solid spec.render.toList := by
  obtain ⟨c, cs, hcs⟩ := List.exists_cons_of_ne_nil
    fun hnil => spec.path.ne_empty (String.toList_injective hnil)
  rw [GoSpec.render, String.toList_append]
  refine ⟨fun d hd => ?_, fun d hd => ?_⟩
  · rw [hcs, List.cons_append] at hd
    cases hd
    exact spec.path.noWhite c (by rw [hcs]; exact List.mem_cons_self)
  · rw [List.getLast?_append] at hd
    cases hlast : spec.tail.toList.getLast? with
    | none =>
        rw [hlast] at hd
        exact spec.path.noWhite d (List.mem_of_getLast? hd)
    | some z =>
        rw [hlast] at hd
        cases hd
        exact spec.solid d hlast

theorem Word.solid (w : Word) : Lines.Solid w.text.toList :=
  ⟨fun c hc => w.noWhite c (List.mem_of_head? hc), fun c hc => w.noWhite c (List.mem_of_getLast? hc)⟩

theorem noBreak_of_noWhite {s : String} (h : ∀ c ∈ s.toList, Text.isWhite c = false) :
    '\n' ∉ s.toList := by
  intro hmem
  have hwhite := h _ hmem
  exact absurd hwhite (by decide)

/-! ### What a line does to the scan -/

/-- The line of an item, as the scan sees it. -/
def seen (l : GoLine) : String := String.ofList (Lines.chompReturn l.render.toList)

theorem trim_seen {l : GoLine} (h : Lines.Solid l.item.render.toList) :
    Text.trim (seen l) = l.item.render := by
  rw [seen, trim_ofList, Lines.trim_chompReturn, GoLine.render, trim_padded l.lead l.trail h,
    String.ofList_toList]

theorem stripPrefix_of_not {s p : String} (h : Text.startsWith s p = false) :
    Text.stripPrefix s p = none := by
  rw [Text.stripPrefix, if_neg (by rw [h]; exact Bool.false_ne_true)]

theorem solid_append {s t : String} (hs : ∀ c ∈ s.toList.head?, Text.isWhite c = false) (hne : s ≠ "")
    (ht : ∀ c ∈ t.toList.getLast?, Text.isWhite c = false) (hne' : t ≠ "") :
    Lines.Solid (s ++ t).toList := by
  have hs' : s.toList ≠ [] := fun hnil => hne (String.toList_injective hnil)
  have ht' : t.toList ≠ [] := fun hnil => hne' (String.toList_injective hnil)
  rw [String.toList_append]
  refine ⟨fun c hc => ?_, fun c hc => ?_⟩
  · rw [List.head?_append_of_ne_nil _ hs'] at hc
    exact hs c hc
  · rw [List.getLast?_append_of_ne_nil _ ht'] at hc
    exact ht c hc

/-- The end of a text, by evaluation. -/
theorem white_of_all {o : Option Char} (h : (o.all fun c => !Text.isWhite c) = true) :
    ∀ c ∈ o, Text.isWhite c = false := by
  intro c hc
  rw [Option.mem_def.mp hc] at h
  simpa using h

/-- The text of a module directive: a path, in quotes or not. -/
def quotedPath (path : Word) (quoted : Bool) : String :=
  if quoted then "\"" ++ path.text ++ "\"" else path.text

theorem solid_quotedPath (path : Word) (quoted : Bool) :
    quotedPath path quoted ≠ "" ∧ Lines.Solid (quotedPath path quoted).toList := by
  cases quoted with
  | false => exact ⟨path.ne_empty, path.solid⟩
  | true =>
      have hne : ("\"" : String) ≠ "" := by decide
      have hlist : ("\"" ++ path.text).toList = '"' :: path.text.toList := by
        rw [String.toList_append]
        rfl
      have hhead : ∀ c ∈ ("\"" ++ path.text).toList.head?, Text.isWhite c = false := by
        rw [hlist, List.head?_cons]
        exact white_of_all (by decide)
      have hlast : ∀ c ∈ ("\"" : String).toList.getLast?, Text.isWhite c = false :=
        white_of_all (by decide)
      refine ⟨fun h => ?_, solid_append hhead (fun h => ?_) hlast hne⟩
      · have hlist := congrArg String.toList h
        simp [quotedPath] at hlist
      · have hlist := congrArg String.toList h
        simp at hlist

theorem unquote_quotedPath {path : Word} (h : '"' ∉ path.text.toList) (quoted : Bool) :
    unquote (quotedPath path quoted) = path.text := by
  have hfront : ∀ l : List Char, '"' ∉ l → ∀ rest, (l ++ rest).dropWhile (· = '"')
      = if l = [] then rest.dropWhile (· = '"') else l ++ rest := by
    intro l hl rest
    cases l with
    | nil => rfl
    | cons c cs =>
        have hc : c ≠ '"' := fun heq => hl (heq ▸ List.mem_cons_self)
        rw [List.cons_append, List.dropWhile_cons_of_neg (by simpa using hc), if_neg (by simp)]
  have hne : path.text.toList ≠ [] := fun hnil => path.ne_empty (String.toList_injective hnil)
  have hne' : path.text.toList.reverse ≠ [] := by simpa using hne
  have hrev : '"' ∉ path.text.toList.reverse := by simpa using h
  have hplain : ∀ tail : List Char, (∀ c ∈ tail, c = '"') →
      Text.trimEndChars (· = '"') (path.text.toList ++ tail) = path.text.toList := by
    intro tail htail
    rw [Text.trimEndChars, List.reverse_append,
      List.dropWhile_append_of_pos (by simpa using htail)]
    have hkeep := hfront path.text.toList.reverse hrev []
    rw [List.append_nil, if_neg hne'] at hkeep
    rw [hkeep, List.reverse_reverse]
  cases quoted with
  | false =>
      have hdrop := hfront path.text.toList h []
      rw [List.append_nil, if_neg hne] at hdrop
      have htrim := hplain [] (by simp)
      rw [List.append_nil] at htrim
      rw [unquote]
      have hq : (quotedPath path false).toList = path.text.toList := rfl
      rw [hq, hdrop, htrim, String.ofList_toList]
  | true =>
      have hq : (quotedPath path true).toList = '"' :: (path.text.toList ++ ['"']) := by
        simp [quotedPath]
      rw [unquote, hq, List.dropWhile_cons_of_pos (by decide), hfront _ h, if_neg hne,
        hplain ['"'] (by simp), String.ofList_toList]

theorem pad_ne_empty (pad : Pad) {s : String} (h : s ≠ "") : pad.text ++ s ≠ "" := by
  intro heq
  have hlist := congrArg String.toList heq
  rw [String.toList_append] at hlist
  exact h (String.toList_injective (List.append_eq_nil_iff.mp hlist).2)

theorem getLast_pad (pad : Pad) {s : String} (hne : s ≠ "") (h : Lines.Solid s.toList) :
    ∀ c ∈ (pad.text ++ s).toList.getLast?, Text.isWhite c = false := by
  intro c hc
  rw [String.toList_append, List.getLast?_append_of_ne_nil _
    fun hnil => hne (String.toList_injective hnil)] at hc
  exact h.2 c hc

theorem GoSpec.ne_empty (spec : GoSpec) : spec.render ≠ "" := by
  intro h
  have hlist := congrArg String.toList h
  rw [GoSpec.render, String.toList_append] at hlist
  exact spec.path.ne_empty (String.toList_injective (List.append_eq_nil_iff.mp hlist).1)

theorem GoItem.solid_render (item : GoItem) : Lines.Solid item.render.toList := by
  cases item with
  | module pad path quoted =>
      obtain ⟨hne, hsolid⟩ := solid_quotedPath path quoted
      exact solid_append (white_of_all (by decide)) (by decide) (getLast_pad pad hne hsolid)
        (pad_ne_empty pad hne)
  | require pad spec =>
      exact solid_append (white_of_all (by decide)) (by decide)
        (getLast_pad pad spec.ne_empty spec.solid_render) (pad_ne_empty pad spec.ne_empty)
  | «open» => exact ⟨white_of_all (by decide), white_of_all (by decide)⟩
  | line spec => exact spec.solid_render
  | close => exact ⟨white_of_all (by decide), white_of_all (by decide)⟩
  | comment text =>
      have hlist : (GoItem.comment text).render.toList = '/' :: '/' :: text.text.toList := by
        rw [GoItem.render, String.toList_append]
        rfl
      rw [hlist]
      refine ⟨fun c hc => ?_, fun c hc => ?_⟩
      · cases hc
        decide
      · rw [List.getLast?_cons_cons, List.getLast?_cons] at hc
        cases hlast : text.text.toList.getLast? with
        | none =>
            rw [hlast] at hc
            cases hc
            decide
        | some d =>
            rw [hlast] at hc
            cases hc
            exact text.solid _ hlast
  | other text => exact text.solid

theorem GoItem.noBreak_render (item : GoItem) : '\n' ∉ item.render.toList := by
  have hspec : ∀ spec : GoSpec, '\n' ∉ spec.render.toList := by
    intro spec
    rw [GoSpec.render, String.toList_append, List.mem_append, not_or]
    exact ⟨noBreak_of_noWhite spec.path.noWhite, spec.noBreak⟩
  cases item with
  | module pad path quoted =>
      have hpath := noBreak_of_noWhite path.noWhite
      cases quoted <;> simp [GoItem.render, pad.noBreak, hpath]
  | require pad spec => simp [GoItem.render, pad.noBreak, hspec]
  | «open» => decide
  | line spec => exact hspec spec
  | close => decide
  | comment text => simp [GoItem.render, text.noBreak]
  | other text => exact text.noBreak

theorem GoLine.noBreak_render (l : GoLine) : '\n' ∉ l.render.toList := by
  simp [GoLine.render, l.lead.noBreak, l.trail.noBreak, GoItem.noBreak_render]

section Step

variable {l : GoLine} (st : GoScan)

theorem goLine_module {pad : Pad} {path : Word} {quoted : Bool}
    (hitem : l.item = .module pad path quoted) (h : '"' ∉ path.text.toList) :
    goLine st (seen l)
      = { st with manifest := { st.manifest with name := st.manifest.name.or (some path.text) } } := by
  have hrest : Text.trim (unquote (Text.trim (pad.text ++ quotedPath path quoted))) = path.text := by
    have htrim := trim_pad pad noPad (solid_quotedPath path quoted).2
    rw [noPad, String.append_empty] at htrim
    have hpath := trim_eq path.text
    rw [path.solid.trim, String.ofList_toList] at hpath
    rw [htrim, unquote_quotedPath h, hpath]
  have hrender : l.item.render = "module " ++ (pad.text ++ quotedPath path quoted) := by
    rw [hitem]
    rfl
  rw [goLine, trim_seen (GoItem.solid_render l.item), hrender, Text.stripPrefix_append]
  dsimp only
  rw [hrest, if_pos path.ne_empty]

theorem goLine_open (hitem : l.item = .open) :
    goLine st (seen l) = { st with inRequire := true } := by
  rw [goLine, trim_seen (GoItem.solid_render l.item), hitem, GoItem.render,
    stripPrefix_of_not (p := "module ") (by decide)]
  rfl

theorem goLine_close (hitem : l.item = .close) (h : st.inRequire = true) :
    goLine st (seen l) = { st with inRequire := false } := by
  have hopen : ¬ (")" : String) = "require (" := by decide
  rw [goLine, trim_seen (GoItem.solid_render l.item), hitem, GoItem.render,
    stripPrefix_of_not (p := "module ") (by decide)]
  dsimp only
  rw [if_neg hopen, if_pos ⟨h, rfl⟩]

theorem goLine_require {pad : Pad} {spec : GoSpec} (hitem : l.item = .require pad spec)
    (h : spec.path.text.toList.head? ≠ some '(') :
    goLine st (seen l) = st.push (some spec.path.text) := by
  have hmodule : Text.stripPrefix ("require " ++ (pad.text ++ spec.render)) "module " = none :=
    stripPrefix_none (c := 'm') rfl (by simp)
  have hopen : "require " ++ (pad.text ++ spec.render) ≠ "require (" := by
    intro heq
    have hsplit : ("require (" : String) = "require " ++ "(" := by decide
    rw [hsplit] at heq
    have hlist := congrArg String.toList heq
    simp only [String.toList_append] at hlist
    have hrest : (pad.text ++ spec.render).toList = ("(" : String).toList := by
      rw [String.toList_append]
      exact List.append_cancel_left hlist
    have hword := spec.firstWord_pad pad
    rw [String.toList_injective hrest] at hword
    have hpath : spec.path.text = "(" := (Option.some.inj hword).symm
    rw [hpath] at h
    exact h rfl
  have hclose : ¬ (st.inRequire = true ∧ "require " ++ (pad.text ++ spec.render) = ")") := by
    rintro ⟨-, heq⟩
    have hlist := congrArg String.toList heq
    rw [String.toList_append] at hlist
    cases hlist
  rw [goLine, trim_seen (GoItem.solid_render l.item), hitem, GoItem.render, hmodule]
  dsimp only
  rw [if_neg hopen, if_neg hclose, Text.stripPrefix_append]
  dsimp only
  rw [GoSpec.firstWord_pad]

/-- Of a line of a block, the first word. -/
theorem goLine_inside (hinside : st.inRequire = true)
    (hmodule : Text.startsWith l.item.render "module " = false)
    (hrequire : Text.startsWith l.item.render "require " = false) (hclose : l.item.render ≠ ")") :
    goLine st (seen l) = st.push ((firstWord l.item.render).filter (· ≠ "")) := by
  have hopen : l.item.render ≠ "require (" := by
    intro heq
    rw [heq] at hrequire
    exact absurd hrequire (by decide)
  rw [goLine, trim_seen (GoItem.solid_render l.item), stripPrefix_of_not hmodule]
  dsimp only
  rw [if_neg hopen, if_neg fun h => hclose h.2, stripPrefix_of_not hrequire]
  exact if_pos hinside

/-- A line outside that is none of the format's leaves the scan as it is. -/
theorem goLine_outside (hinside : st.inRequire = false)
    (hmodule : Text.startsWith l.item.render "module " = false)
    (hrequire : Text.startsWith l.item.render "require " = false) :
    goLine st (seen l) = st := by
  have hopen : l.item.render ≠ "require (" := by
    intro heq
    rw [heq] at hrequire
    exact absurd hrequire (by decide)
  have hnot : ¬ (st.inRequire = true ∧ l.item.render = ")") := by
    rw [hinside]
    exact fun h => absurd h.1 Bool.false_ne_true
  rw [goLine, trim_seen (GoItem.solid_render l.item), stripPrefix_of_not hmodule]
  dsimp only
  rw [if_neg hopen, if_neg hnot, stripPrefix_of_not hrequire]
  exact if_neg (by rw [hinside]; exact Bool.false_ne_true)

end Step

/-- The first word of a comment starts with the comment's sign. -/
theorem firstWord_comment (text : Remark) :
    ∃ w, firstWord (GoItem.comment text).render = some w ∧ Text.startsWith w "//" = true
      ∧ w ≠ "" := by
  have hlist : (GoItem.comment text).render.toList = '/' :: '/' :: text.text.toList := by
    rw [GoItem.render, String.toList_append]
    rfl
  have hslash : (!Text.isWhite '/') = true := by decide
  have hword : ((GoItem.comment text).render.toList.dropWhile Text.isWhite).takeWhile
      (fun c => !Text.isWhite c) = '/' :: '/' :: text.text.toList.takeWhile fun c => !Text.isWhite c := by
    rw [hlist, List.dropWhile_cons_of_neg (by decide)]
    simp only [List.takeWhile_cons, hslash, if_true]
  refine ⟨String.ofList ('/' :: '/' :: text.text.toList.takeWhile fun c => !Text.isWhite c),
    ?_, ?_, ?_⟩
  · rw [firstWord, hword, if_neg (List.cons_ne_nil _ _)]
  · rw [Text.startsWith, List.isPrefixOf_iff_prefix, String.toList_ofList]
    refine ⟨text.text.toList.takeWhile fun c => !Text.isWhite c, ?_⟩
    rw [String.toList_ofList]
    rfl
  · intro h
    have hnil := congrArg String.toList h
    rw [String.toList_ofList] at hnil
    cases hnil

/-! ### The scan of a module file -/

theorem GoScan.deps_push (st : GoScan) (path : Option String) :
    (st.push path).manifest.deps = st.manifest.deps ++ path.toList := rfl

/-- What the scan has read when it stood before `doc`, and what it reads of it. -/
structure Reads (st : GoScan) (doc : List GoLine) (st' : GoScan) : Prop where
  name : st'.manifest.name = st.manifest.name.or (moduleName doc)
  entry : st'.manifest.entry = st.manifest.entry
  deps : (st'.manifest.deps.filter fun d => !Text.startsWith d "//")
    = (st.manifest.deps.filter fun d => !Text.startsWith d "//") ++ required doc

theorem moduleName_cons (l : GoLine) (doc : List GoLine) :
    moduleName (l :: doc) = (moduleName [l]).or (moduleName doc) := by
  simp only [moduleName, List.findSome?_cons, List.findSome?_nil]
  split <;> simp [*]

theorem required_cons (l : GoLine) (doc : List GoLine) :
    required (l :: doc) = required [l] ++ required doc := by
  rw [required, required, required, ← List.filterMap_append]
  rfl

theorem Reads.trans {st st₁ st' : GoScan} {l : GoLine} {doc : List GoLine} (h : Reads st [l] st₁)
    (h' : Reads st₁ doc st') : Reads st (l :: doc) st' where
  name := by rw [h'.name, h.name, moduleName_cons l doc, Option.or_assoc]
  entry := h'.entry.trans h.entry
  deps := by rw [h'.deps, h.deps, required_cons l doc, List.append_assoc]

/-- A line that names no module and pushes what it requires, but for a comment. -/
theorem Reads.push {st st₁ : GoScan} {l : GoLine} (path : Option String)
    (hst : st₁.manifest = (st.push path).manifest) (hmodule : moduleName [l] = none)
    (hpath : (path.toList.filter fun d => !Text.startsWith d "//") = required [l]) :
    Reads st [l] st₁ where
  name := by rw [hst, hmodule, Option.or_none]; rfl
  entry := by rw [hst]; rfl
  deps := by rw [hst, GoScan.deps_push, List.filter_append, hpath]

theorem Reads.skip {st st₁ : GoScan} {l : GoLine} (hst : st₁.manifest = st.manifest)
    (hmodule : moduleName [l] = none) (hrequired : required [l] = []) : Reads st [l] st₁ := by
  refine Reads.push none ?_ hmodule hrequired.symm
  rw [hst, GoScan.push, Option.toList_none, List.append_nil]

section Line

variable {l : GoLine} {doc : List GoLine} {st : GoScan}

/-- What a line outside of a block does. -/
theorem reads_outside (hinside : st.inRequire = false) (h : GoPlain false (l :: doc)) :
    Reads st [l] (goLine st (seen l)) ∧ GoPlain (goLine st (seen l)).inRequire doc := by
  cases hitem : l.item with
  | module pad path quoted =>
      simp only [GoPlain, hitem] at h
      have hline := goLine_module st hitem h.1
      have hname : moduleName [l] = some path.text := by
        rw [moduleName, List.findSome?_cons, hitem]
      have hrequired : required [l] = [] := by
        rw [required, List.filterMap_cons, hitem]
        rfl
      rw [hline]
      refine ⟨⟨?_, rfl, ?_⟩, by simpa [hinside] using h.2⟩
      · rw [hname]
      · rw [hrequired, List.append_nil]
  | require pad spec =>
      simp only [GoPlain, hitem] at h
      have hline := goLine_require st hitem h.1
      rw [hline]
      refine ⟨Reads.push (some spec.path.text) rfl ?_ ?_, ?_⟩
      · simp [moduleName, hitem]
      · simp [required, hitem, GoItem.required, h.2.1]
      · simpa [GoScan.push, hinside] using h.2.2
  | «open» =>
      simp only [GoPlain, hitem] at h
      rw [goLine_open st hitem]
      exact ⟨Reads.skip rfl (by simp [moduleName, hitem]) (by simp [required, hitem, GoItem.required]),
        h⟩
  | comment text =>
      simp only [GoPlain, hitem] at h
      have hline : goLine st (seen l) = st := by
        refine goLine_outside st hinside ?_ ?_ <;>
          simp [hitem, GoItem.render, Text.startsWith, List.isPrefixOf]
      rw [hline, hinside]
      exact ⟨Reads.skip rfl (by simp [moduleName, hitem]) (by simp [required, hitem, GoItem.required]),
        h⟩
  | other text =>
      simp only [GoPlain, hitem] at h
      have hline : goLine st (seen l) = st := by
        refine goLine_outside st hinside ?_ ?_
        · rw [hitem]
          exact h.1.1
        · rw [hitem]
          exact h.1.2
      rw [hline, hinside]
      exact ⟨Reads.skip rfl (by simp [moduleName, hitem]) (by simp [required, hitem, GoItem.required]),
        h.2⟩
  | line _ | close => simp [GoPlain, hitem] at h

/-- No word of the format starts a requirement's line. -/
theorem not_startsWith_spec {spec : GoSpec} {w : String}
    (hw : (w.toList.all fun c => !Text.isWhite c) = true) (hne : spec.path.text ≠ w) :
    Text.startsWith spec.render (w ++ " ") = false := by
  have hwhite : ∀ c ∈ w.toList, Text.isWhite c = false := by simpa using hw
  rw [← Bool.not_eq_true]
  exact fun hstarts => hne (GoSpec.path_of_startsWith hwhite hstarts)

/-- What a line of a block does. -/
theorem reads_inside (hinside : st.inRequire = true) (h : GoPlain true (l :: doc)) :
    Reads st [l] (goLine st (seen l)) ∧ GoPlain (goLine st (seen l)).inRequire doc := by
  cases hitem : l.item with
  | line spec =>
      simp only [GoPlain, hitem] at h
      obtain ⟨hpath, hslash, hrest⟩ := h
      simp only [List.mem_cons, List.not_mem_nil, or_false, not_or] at hpath
      have hclose : l.item.render ≠ ")" := by
        intro heq
        have hspec : spec.render = ")" := by
          rw [hitem] at heq
          exact heq
        have hfirst := spec.firstWord_render
        rw [hspec] at hfirst
        exact hpath.2.2 (Option.some.inj hfirst).symm
      have hline := goLine_inside st hinside
        (by rw [hitem]; exact not_startsWith_spec (by decide) hpath.1)
        (by rw [hitem]; exact not_startsWith_spec (by decide) hpath.2.1) hclose
      have hfirst : (firstWord l.item.render).filter (· ≠ "") = some spec.path.text := by
        rw [hitem, GoItem.render, spec.firstWord_render, Option.filter_some, if_pos]
        simpa using spec.path.ne_empty
      rw [hline, hfirst]
      refine ⟨Reads.push _ rfl ?_ ?_, ?_⟩
      · simp [moduleName, hitem]
      · simp [required, hitem, GoItem.required, hslash]
      · simpa [GoScan.push, hinside] using hrest
  | close =>
      simp only [GoPlain, hitem] at h
      rw [goLine_close st hitem hinside]
      exact ⟨Reads.skip rfl (by simp [moduleName, hitem]) (by simp [required, hitem, GoItem.required]),
        h⟩
  | comment text =>
      simp only [GoPlain, hitem] at h
      obtain ⟨w, hw, hstarts, hne⟩ := firstWord_comment text
      have hclose : l.item.render ≠ ")" := by
        intro heq
        have hlist := congrArg String.toList heq
        simp [hitem, GoItem.render] at hlist
      have hline := goLine_inside st hinside
        (by simp [hitem, GoItem.render, Text.startsWith, List.isPrefixOf])
        (by simp [hitem, GoItem.render, Text.startsWith, List.isPrefixOf]) hclose
      have hfirst : (firstWord l.item.render).filter (· ≠ "") = some w := by
        rw [hitem, hw, Option.filter_some, if_pos]
        simpa using hne
      rw [hline, hfirst]
      refine ⟨Reads.push _ rfl ?_ ?_, ?_⟩
      · simp [moduleName, hitem]
      · simp [required, hitem, GoItem.required, hstarts]
      · simpa [GoScan.push, hinside] using h
  | other text =>
      simp only [GoPlain, hitem] at h
      have hrender : l.item.render = "" := by
        rw [hitem]
        exact h.1
      have hline := goLine_inside (l := l) st hinside
        (by rw [hrender]; decide) (by rw [hrender]; decide) (by rw [hrender]; decide)
      have hfirst : (firstWord l.item.render).filter (· ≠ "") = none := by
        rw [hrender]
        rfl
      rw [hline, hfirst]
      refine ⟨Reads.push _ rfl ?_ ?_, ?_⟩
      · simp [moduleName, hitem]
      · simp [required, hitem, GoItem.required]
      · simpa [GoScan.push, hinside] using h.2
  | module _ _ _ | require _ _ | «open» => simp [GoPlain, hitem] at h

end Line

/-- By induction on the lines; the flag says whether the scan is in a block. -/
theorem reads_foldl (doc : List GoLine) (st : GoScan) (h : GoPlain st.inRequire doc) :
    Reads st doc ((doc.map seen).foldl goLine st) := by
  induction doc generalizing st with
  | nil => exact ⟨by simp [moduleName], rfl, by simp [required]⟩
  | cons l doc ih =>
      have hline : Reads st [l] (goLine st (seen l))
          ∧ GoPlain (goLine st (seen l)).inRequire doc := by
        cases hinside : st.inRequire with
        | false => exact reads_outside hinside (hinside ▸ h)
        | true => exact reads_inside hinside (hinside ▸ h)
      rw [List.map_cons, List.foldl_cons]
      exact hline.1.trans (ih _ hline.2)

/-- **A plainly written module file is read as it is meant**: the module's name, and the
modules that it requires, singly or in blocks; names that start with a comment's sign may
stand among these. -/
theorem go_mod_round_trip (doc : List GoLine) (hdoc : GoPlain false doc) :
    (parseGoMod (renderLines (doc.map GoLine.render))).name = moduleName doc
    ∧ (parseGoMod (renderLines (doc.map GoLine.render))).entry = none
    ∧ ((parseGoMod (renderLines (doc.map GoLine.render))).deps.filter
        fun d => !Text.startsWith d "//") = required doc := by
  have hbreak : ∀ line ∈ doc.map GoLine.render, '\n' ∉ line.toList := by
    intro line hline
    obtain ⟨l, -, rfl⟩ := List.mem_map.mp hline
    exact l.noBreak_render
  have hparse : parseGoMod (renderLines (doc.map GoLine.render))
      = ((doc.map seen).foldl goLine ⟨default, false⟩).manifest := by
    rw [parseGoMod, textLines_renderLines hbreak, List.map_map]
    rfl
  obtain ⟨hname, hentry, hdeps⟩ := reads_foldl doc ⟨default, false⟩ hdoc
  rw [hparse]
  exact ⟨hname, hentry, hdeps⟩

/-! ### A manifest of each kind -/

def word (text : String) (ne_empty : text ≠ "")
    (noWhite : (text.toList.all fun c => !Text.isWhite c) = true) : Word :=
  ⟨text, ne_empty, by simpa using noWhite⟩

def blank : Pad := ⟨" ", by simp; decide, by decide⟩

theorem white_blank : ∀ c ∈ (" v1" : String).toList.head?, Text.isWhite c = true := by
  intro c hc
  cases hc
  decide

/-- `module "m"`, and a block that requires `x v1`. -/
def goModule : List GoLine :=
  [⟨noPad, .module noPad (word "m" (by decide) (by decide)) true, noPad⟩,
    ⟨noPad, .open, noPad⟩,
    ⟨blank, .line ⟨word "x" (by decide) (by decide), " v1", white_blank, white_of_all (by decide),
      by decide⟩, noPad⟩,
    ⟨noPad, .close, noPad⟩]

theorem go_mod_round_trip_module :
    (parseGoMod (renderLines (goModule.map GoLine.render))).name = some "m"
    ∧ ((parseGoMod (renderLines (goModule.map GoLine.render))).deps.filter
        fun d => !Text.startsWith d "//") = ["x"] := by
  have hplain : GoPlain false goModule := by
    refine ⟨by decide, ?_⟩
    exact ⟨by decide, by decide, trivial⟩
  obtain ⟨hname, -, hdeps⟩ := go_mod_round_trip goModule hplain
  exact ⟨hname.trans (by decide), hdeps.trans (by decide)⟩

end Filigrio.ManifestFile
