import Filigrio.Install.Uninstall

/-!
# Filigrio.Install.Hooks

The git hook files. A hook file may be the user's, ours, or the user's with our block in it,
and it works only while it is executable. `installOne`, `uninstallOne` and `statusOne` are the
three verbs for one file; `Command.run` is a verb over a selection of hooks, or something that
happens to a file in between. What the template has between its markers is a body that reads
back as it is (`isBody_inner`).
-/

namespace Filigrio.Install.Hooks

open Lines

/-! ### The script -/

/-- What the generated script names. -/
structure Environment where
  cliBin : String
  socketPath : String

structure Hook where
  name : String
  event : String
  transition : String
  readsStdin : Bool
  deriving DecidableEq, Repr

def HOOKS : List Hook :=
  [⟨"post-commit", "post-commit", "commit", false⟩,
    ⟨"post-checkout", "post-checkout", "checkout", false⟩,
    ⟨"post-merge", "post-merge", "merge", false⟩,
    ⟨"post-rewrite", "post-rewrite", "history rewrite", true⟩]

/-- Resolve a `--hook` value. -/
def Hook.parse (name : String) : Option Hook := HOOKS.find? fun h => h.name = name

def SKIP_ENV : String := "FILIGRIO_SKIP_HOOK"

def SHEBANG : List Char := "#!/bin/sh".toList

def STALE : String := "stale — re-run install to refresh"

/-- The lines of the template between its markers. -/
def scriptLines (env : Environment) (hook : Hook) : List String :=
  ["# filigrio " ++ hook.name ++ " — refresh the knowledge graph after a " ++ hook.transition
      ++ ".",
    "# Managed by `" ++ env.cliBin ++ " hooks install`. Do not edit between the markers;",
    "# `" ++ env.cliBin ++ " hooks uninstall` removes exactly this block and leaves the rest of",
    "# the hook alone.",
    "#",
    "# The block is deliberately thin: `filigrio hooks run` owns the git diff, the",
    "# delivery ladder (socket → spool → drop), the non-blocking behaviour, and the",
    "# `" ++ SKIP_ENV ++ "` opt-out — set " ++ SKIP_ENV ++ "=1 to disable. It always exits 0,",
    "# because a commit must never fail or stall on us (ADR-0032b §4). The `|| true`",
    "# is belt and braces, not the guarantee.",
    "#",
    "# The socket is named, and named *before* the verb. `--socket` is a global flag,",
    "# but `hooks run`'s own arguments are trailing and hyphen-tolerant — everything",
    "# after the event word is git's, verbatim — so this is the one position where the",
    "# CLI parses it. Leaving it out let `filigrio hooks run` fall back to the default",
    "# socket while the MCP registrations pointed at the one `install` was given: two",
    "# halves that can never meet, written by a single command that reported success."]
  ++ (if hook.readsStdin then
      ["#",
        "# git feeds " ++ hook.name ++ " its old/new commit pairs on **stdin**, so nothing here",
        "# may read or redirect it."]
    else [])
  ++ ["\"" ++ env.cliBin ++ "\" --socket \"" ++ env.socketPath ++ "\" hooks run " ++ hook.event
      ++ " \"$@\" || true"]

/-- Each line with its newline. -/
def terminated (ls : List (List Char)) : List Char := ls.flatMap fun l => l ++ ['\n']

/-- Render one hook's script block, markers included. -/
def script (env : Environment) (hook : Hook) : List Char :=
  terminated (SHELL.start :: (scriptLines env hook).map String.toList ++ [SHELL.end])

/-- The inner text, which is what `upsert` is handed. -/
def inner (env : Environment) (hook : Hook) : List Char :=
  unlines (((lines (script env hook)).drop 1).takeWhile fun l => trim l ≠ SHELL.end)

/-- Does this hook script exit before our appended block could run? -/
def exitsFrom : Bool → List (List Char) → Bool
  | saw, [] => saw
  | saw, line :: rest =>
      -- an indented line is inside a function or a conditional
      if line.dropWhile Text.isWhite ≠ line then exitsFrom saw rest
      else
        let t := trim line
        if t = SHELL.start then saw
        else if t = "exit".toList ∨ t = "exit 0".toList then exitsFrom true rest
        else if t ≠ [] ∧ t.head? ≠ some '#' then exitsFrom false rest
        else exitsFrom saw rest

def exitsBeforeOurBlock (content : List Char) : Bool := exitsFrom false (lines content)

/-! ### The file and the report -/

/-- A hook file, if it is there; whether it is executable; whether a symlink stands at its
path. -/
structure HookFile where
  content : Option (List Char)
  executable : Bool
  linked : Bool
  deriving DecidableEq, Repr

/-- What the file system refuses, with the error. -/
structure Sys where
  refusesRead : Option String
  refusesWrite : Option String
  refusesMode : Option String
  deriving DecidableEq, Repr

def readOpt (sys : Sys) (file : HookFile) : Except String (Option (List Char)) :=
  match sys.refusesRead with
  | some e => .error e
  | none => .ok file.content

/-- Replace the contents: an existing file keeps its mode, a new one is not executable. -/
def writeAll (sys : Sys) (file : HookFile) (text : List Char) : Except String Unit × HookFile :=
  match sys.refusesWrite with
  | some e => (.error e, file)
  | none =>
      (.ok (), { file with
        content := some text, executable := file.content.isSome && file.executable })

/-- A file behind a symlink is emptied, any other is unlinked. -/
def removeFile (sys : Sys) (file : HookFile) : Except String String × HookFile :=
  match sys.refusesWrite with
  | some e => (.error e, file)
  | none =>
      if file.linked then
        (.ok ("emptied through the symlink at this path (held only our block) — the link and the "
          ++ "file it points at are the user's, so neither was deleted"),
          { file with content := some [] })
      else
        (.ok "file removed (held only our block)",
          { file with content := none, executable := false })

def makeExecutable (sys : Sys) (file : HookFile) : Except String Unit × HookFile :=
  match sys.refusesMode with
  | some e => (.error e, file)
  | none => (.ok (), { file with executable := true })

/-- Would git run this file? What is not there is no defect. -/
def isExecutable (file : HookFile) : Bool := file.content.isNone || file.executable

inductive Action
  | installed
  | updated
  | unchanged
  | removed
  | absent
  | present
  deriving DecidableEq, Repr

structure Step where
  target : String
  path : String
  action : Action
  detail : String
  deriving DecidableEq, Repr

structure Failure where
  target : String
  path : String
  reason : String
  deriving DecidableEq, Repr

/-- The outcome of a whole run. -/
structure Report where
  steps : List Step
  failures : List Failure
  notes : List String
  deriving DecidableEq, Repr

/-- A verdict, or an error. -/
abbrev Verdict := Except String (Action × String)

/-- A verdict becomes a step, an error a failure. -/
def Report.record (report : Report) (target path : String) (outcome : Verdict) : Report :=
  match outcome with
  | .ok (action, detail) =>
      { report with steps := report.steps ++ [⟨target, path, action, detail⟩] }
  | .error e => { report with failures := report.failures ++ [⟨target, path, e⟩] }

/-! ### The verbs for one file -/

/-- What a verb answers, what it leaves, and its notes. -/
structure Ran (σ : Type) where
  outcome : Verdict
  left : σ
  notes : List String

/-- Said of a block that was appended behind an `exit`. -/
def deadNote (path : String) : String :=
  path ++ ": the pre-existing hook ends in an unconditional `exit`, so the appended filigrio block "
    ++ "will never run — move it above that exit, or chain filigrio from the existing script"

/-- Write what is to be there, if it is not there yet. -/
def writeBlock (sys : Sys) (path : String) (body : List Char) (file : HookFile) : Ran HookFile :=
  match file.content with
  | none =>
      match writeAll sys file (upsert (SHEBANG ++ ['\n']) body SHELL) with
      | (.error e, file) => ⟨.error e, file, []⟩
      | (.ok _, file) => ⟨.ok (.installed, "hook created"), file, []⟩
  | some prior =>
      let updated := upsert prior body SHELL
      if updated = prior then ⟨.ok (.unchanged, "already current"), file, []⟩
      else match writeAll sys file updated with
        | (.error e, file) => ⟨.error e, file, []⟩
        | (.ok _, file) =>
            if contains prior SHELL then ⟨.ok (.updated, "managed block refreshed"), file, []⟩
            else ⟨.ok (.installed, "appended to the existing hook"), file,
              if exitsBeforeOurBlock updated then [deadNote path] else []⟩

/-- The mode is part of the artifact, whether the text changed or not. -/
def restoreMode (sys : Sys) (ran : Ran HookFile) : Ran HookFile :=
  match ran.outcome with
  | .error _ => ran
  | .ok verdict =>
      match makeExecutable sys ran.left with
      | (.error e, file) => ⟨.error e, file, ran.notes⟩
      | (.ok _, file) =>
          ⟨.ok (if isExecutable ran.left = false ∧ verdict.1 = .unchanged then
              (.updated, "executable bit restored")
            else verdict), file, ran.notes⟩

def installOne (sys : Sys) (path : String) (body : List Char) (file : HookFile) : Ran HookFile :=
  match readOpt sys file with
  | .error e => ⟨.error e, file, []⟩
  | .ok _ => restoreMode sys (writeBlock sys path body file)

/-- Nothing left but a shebang. -/
def bareShebang (rest : List Char) : Bool :=
  trim rest = [] || trim rest = SHEBANG || trim rest = "#!/bin/bash".toList

/-- Remove the block from the file. -/
def removeFileBlock (sys : Sys) (m : Markers) (emptyMeansOurs : List Char → Bool)
    (file : HookFile) : Ran HookFile :=
  match readOpt sys file with
  | .error e => ⟨.error e, file, []⟩
  | .ok none => ⟨.ok (.absent, "no such file"), file, []⟩
  | .ok (some existing) =>
      match remove existing m with
      | none => ⟨.ok (.absent, "no filigrio block in this file"), file, []⟩
      | some cleaned =>
          if emptyMeansOurs cleaned then
            match removeFile sys file with
            | (.error e, file) => ⟨.error e, file, []⟩
            | (.ok detail, file) => ⟨.ok (.removed, detail), file, []⟩
          else match writeAll sys file cleaned with
            | (.error e, file) => ⟨.error e, file, []⟩
            | (.ok _, file) => ⟨.ok (.removed, "managed block removed, rest preserved"), file, []⟩

def uninstallOne (sys : Sys) (file : HookFile) : Ran HookFile :=
  removeFileBlock sys SHELL bareShebang file

def unreachedNote (path : String) : String :=
  path ++ ": an unconditional `exit` precedes the filigrio block — it cannot run"

def inertNote (path : String) : String :=
  path ++ ": the filigrio block is current but the hook is not executable, so git will never run it"

/-- `want` is the inner text that `install` would write. -/
def statusOne (sys : Sys) (path : String) (want : List Char) (file : HookFile) : Ran HookFile :=
  match readOpt sys file with
  | .error e => ⟨.error e, file, []⟩
  | .ok none => ⟨.ok (.absent, "not installed"), file, []⟩
  | .ok (some text) =>
      match bodyOf text SHELL with
      | none => ⟨.ok (.absent, "hook exists but holds no filigrio block"), file, []⟩
      | some found =>
          if trim found = trim want then
            let notes := if exitsBeforeOurBlock text then [unreachedNote path] else []
            if isExecutable file then ⟨.ok (.present, "current"), file, notes⟩
            else ⟨.ok (.present, STALE), file, notes ++ [inertNote path]⟩
          else ⟨.ok (.present, STALE), file, []⟩

/-! ### Runs of verbs -/

/-- What the hooks directory holds, by the names of the hooks, and what was reported. -/
structure HookDir (σ : Type) where
  files : String → σ
  report : Report

/-- Where git keeps the hooks, and what the file system refuses for each of them. -/
structure Call where
  root : String
  dir : Except String String
  sys : String → Sys

/-- The loop of a verb over the hooks that it is asked for. -/
def overHooks {σ : Type} (call : Call) (verb : Sys → String → Hook → σ → Ran σ)
    (hooks : List Hook) (st : HookDir σ) : HookDir σ :=
  match call.dir with
  | .error e => { st with report := st.report.record "hooks" call.root (.error e) }
  | .ok dir =>
      hooks.foldl (fun st hook =>
        let path := dir ++ "/" ++ hook.name
        let ran := verb (call.sys hook.name) path hook (st.files hook.name)
        { files := Function.update st.files hook.name ran.left
          report := { st.report with notes := st.report.notes ++ ran.notes }.record
            ("hooks/" ++ hook.name) path ran.outcome }) st

/-- A verb, or what else becomes of a hook file. -/
inductive Command
  | install (call : Call) (env : Environment) (hooks : List Hook)
  | uninstall (call : Call) (hooks : List Hook)
  | status (call : Call) (env : Environment) (hooks : List Hook)
  /-- The user rewrites the text above and below the block, or the whole text. -/
  | edit (name : String) (above below : List Char)
  | delete (name : String)
  | chmod (name : String) (executable : Bool)

/-- The user's edit: the lines of a block stay, with the blank line above. -/
def HookFile.edit (above below : List Char) (file : HookFile) : HookFile :=
  match file.content with
  | none => { file with content := some (above ++ below) }
  | some text =>
      match find text SHELL with
      | none => { file with content := some (above ++ below) }
      | some range => { file with
          content := some (beforeBlock above ++ ((text.take range.2).drop range.1 ++ below)) }

def HookFile.delete (file : HookFile) : HookFile :=
  { file with content := none, executable := false }

def HookFile.chmod (executable : Bool) (file : HookFile) : HookFile :=
  { file with executable := file.content.isSome && executable }

def Command.run (st : HookDir HookFile) : Command → HookDir HookFile
  | install call env hooks =>
      overHooks call (fun sys path hook file => installOne sys path (inner env hook) file) hooks st
  | uninstall call hooks => overHooks call (fun sys _ _ file => uninstallOne sys file) hooks st
  | status call env hooks =>
      overHooks call (fun sys path hook file => statusOne sys path (inner env hook) file) hooks st
  | edit name above below => { st with
      files := Function.update st.files name ((st.files name).edit above below) }
  | delete name => { st with files := Function.update st.files name (st.files name).delete }
  | chmod name executable => { st with
      files := Function.update st.files name ((st.files name).chmod executable) }

/-! ### The body of a hook -/

section Body

/-- What `upsert` is handed for a hook reads back as it was. -/
structure IsBody (body : List Char) : Prop where
  free : Free SHELL body
  solid : Solid body
  newlines : trimNewlines body = body
  noReturn : NoReturn body

/-- A text that a line can end in. -/
structure Ending (l : List Char) : Prop where
  oneLine : '\n' ∉ l
  last : ∃ c, l.getLast? = some c ∧ Text.isWhite c = false

/-- A text that a line can begin with, whatever follows, and not be a marker. -/
structure Opening (l : List Char) : Prop where
  oneLine : '\n' ∉ l
  head : ∃ c, l.head? = some c ∧ Text.isWhite c = false
  apart : ¬ "# filigrio-".toList <+: l ∧ ¬ l <+: "# filigrio-".toList

/-- A line of the template: one line, and not a marker. -/
structure Line (l : List Char) : Prop extends Ending l where
  head : ∃ c, l.head? = some c ∧ Text.isWhite c = false
  other : ¬ "# filigrio-".toList <+: l

def isEnding (l : List Char) : Bool := !l.contains '\n' && l.getLast?.any (!Text.isWhite ·)

def isOpening (l : List Char) : Bool :=
  !l.contains '\n' && l.head?.any (!Text.isWhite ·)
    && (!"# filigrio-".toList.isPrefixOf l && !l.isPrefixOf "# filigrio-".toList)

def isLine (l : List Char) : Bool :=
  isEnding l && (l.head?.any (!Text.isWhite ·) && !"# filigrio-".toList.isPrefixOf l)

theorem ending_of_isEnding {l : List Char} (h : isEnding l = true) : Ending l := by
  rw [isEnding, Bool.and_eq_true] at h
  refine ⟨by simpa using h.1, ?_⟩
  simpa [Option.any_eq_true] using h.2

/-- A literal is looked at character by character. -/
theorem ending_literal {l : List Char} (h : isEnding l = true) :
    Ending (String.ofList l).toList := by
  rw [String.toList_ofList]
  exact ending_of_isEnding h

theorem opening_literal {l : List Char} (h : isOpening l = true) :
    Opening (String.ofList l).toList := by
  rw [isOpening, Bool.and_eq_true, Bool.and_eq_true, Bool.and_eq_true] at h
  obtain ⟨⟨hnewline, hhead⟩, hstart, hshort⟩ := h
  rw [String.toList_ofList]
  refine ⟨by simpa using hnewline, by simpa [Option.any_eq_true] using hhead, ?_, ?_⟩
  · rw [← List.isPrefixOf_iff_prefix, Bool.not_eq_true]
    exact Bool.not_eq_true' _ ▸ hstart
  · rw [← List.isPrefixOf_iff_prefix, Bool.not_eq_true]
    exact Bool.not_eq_true' _ ▸ hshort

theorem line_literal {l : List Char} (h : isLine l = true) : Line (String.ofList l).toList := by
  rw [isLine, Bool.and_eq_true, Bool.and_eq_true] at h
  obtain ⟨hending, hhead, hother⟩ := h
  rw [String.toList_ofList]
  refine ⟨ending_of_isEnding hending, by simpa [Option.any_eq_true] using hhead, ?_⟩
  rw [← List.isPrefixOf_iff_prefix, Bool.not_eq_true]
  exact Bool.not_eq_true' _ ▸ hother

theorem Ending.ne_nil {l : List Char} (h : Ending l) : l ≠ [] := by
  rintro rfl
  obtain ⟨c, hc, -⟩ := h.last
  cases hc

theorem Ending.prepend {front back : List Char} (hback : Ending back) (hfront : '\n' ∉ front) :
    Ending (front ++ back) := by
  refine ⟨by simp [hfront, hback.oneLine], ?_⟩
  rw [List.getLast?_append_of_ne_nil _ hback.ne_nil]
  exact hback.last

theorem Line.solid {l : List Char} (h : Line l) : Solid l := by
  obtain ⟨c, hc, hwhite⟩ := h.head
  obtain ⟨d, hd, hwhite'⟩ := h.last
  rw [Solid, hc, hd]
  simp [hwhite, hwhite']

/-- What is filled in between texts of the template does not matter. -/
theorem line_fill {front back filled : List Char} (hfront : Opening front) (hback : Ending back)
    (hfilled : '\n' ∉ filled) : Line (front ++ (filled ++ back)) := by
  have hne : front ≠ [] := by
    rintro rfl
    exact hfront.apart.2 List.nil_prefix
  refine ⟨(hback.prepend hfilled).prepend hfront.oneLine, ?_, ?_⟩
  · rw [List.head?_append_of_ne_nil _ hne]
    exact hfront.head
  · intro h
    rcases List.prefix_or_prefix_of_prefix h (List.prefix_append front (filled ++ back)) with h | h
    · exact hfront.apart.1 h
    · exact hfront.apart.2 h

theorem marker_starts : "# filigrio-".toList <+: SHELL.start ∧ "# filigrio-".toList <+: SHELL.end :=
  ⟨⟨"hook-start".toList, by decide +kernel⟩, ⟨"hook-end".toList, by decide +kernel⟩⟩

theorem Line.text_ne {l marker : List Char} (h : Line l)
    (hmarker : "# filigrio-".toList <+: marker) : markerText l ≠ marker := by
  rw [markerText_eq_trim, h.solid.trim]
  rintro rfl
  exact h.other hmarker

theorem Line.chompReturn {l : List Char} (h : Line l) : chompReturn l = l := by
  rw [chompReturn_eq_self]
  intro hlast
  exact absurd (h.solid.2 '\r' hlast) (by decide)

theorem splitInclusive_terminated {ls : List (List Char)} (h : ∀ l ∈ ls, '\n' ∉ l) :
    splitInclusive (terminated ls) = ls.map (· ++ ['\n']) := by
  induction ls with
  | nil => rfl
  | cons l ls ih =>
      rw [terminated, List.flatMap_cons, List.append_assoc, List.singleton_append,
        splitInclusive_line (h l List.mem_cons_self), List.map_cons, ← terminated,
        ih fun l' hl' => h l' (List.mem_cons_of_mem l hl')]

theorem lines_terminated {ls : List (List Char)} (h : ∀ l ∈ ls, '\n' ∉ l ∧ chompReturn l = l) :
    lines (terminated ls) = ls := by
  rw [lines, splitInclusive_terminated fun l hl => (h l hl).1, List.map_map]
  refine (List.map_congr_left fun l hl => ?_).trans (List.map_id ls)
  rw [Function.comp_apply, chomp_newline, (h l hl).2, id_eq]

theorem unlines_newline {ls : List (List Char)} (hne : ls ≠ []) :
    unlines ls ++ ['\n'] = terminated ls := by
  induction ls with
  | nil => exact absurd rfl hne
  | cons l ls ih =>
      cases ls with
      | nil => simp [unlines, terminated, List.intercalate]
      | cons l' ls =>
          have h := ih (List.cons_ne_nil l' ls)
          rw [terminated, List.flatMap_cons, ← terminated, ← h]
          simp [unlines, List.intercalate]

theorem solid_unlines {ls : List (List Char)} (hne : ls ≠ []) (h : ∀ l ∈ ls, Line l) :
    unlines ls ≠ [] ∧ Solid (unlines ls) := by
  induction ls with
  | nil => exact absurd rfl hne
  | cons l ls ih =>
      have hl := h l List.mem_cons_self
      cases ls with
      | nil =>
          have hone : unlines [l] = l := by simp [unlines, List.intercalate]
          rw [hone]
          exact ⟨hl.ne_nil, hl.solid⟩
      | cons l' ls =>
          obtain ⟨hrest, hsolid⟩ :=
            ih (List.cons_ne_nil l' ls) fun x hx => h x (List.mem_cons_of_mem l hx)
          have hmore : unlines (l :: l' :: ls) = l ++ ('\n' :: unlines (l' :: ls)) := by
            simp [unlines, List.intercalate]
          rw [hmore]
          refine ⟨by simp, ?_, ?_⟩
          · rw [List.head?_append_of_ne_nil _ hl.ne_nil]
            exact hl.solid.1
          · rw [List.getLast?_append_of_ne_nil _ (by simp), List.getLast?_cons_of_ne_nil hrest]
            exact hsolid.2

theorem trimNewlines_solid {s : List Char} (h : Solid s) : trimNewlines s = s := by
  have hkeep : ∀ l : List Char, (∀ c ∈ l.head?, Text.isWhite c = false) →
      l.dropWhile (· = '\n') = l := by
    intro l hl
    cases l with
    | nil => rfl
    | cons c cs =>
        have hc : c ≠ '\n' := by
          rintro rfl
          exact absurd (hl '\n' rfl) (by decide)
        rw [List.dropWhile_cons_of_neg (by simpa using hc)]
  rw [trimNewlines, hkeep s h.1, Text.trimEndChars, hkeep, List.reverse_reverse]
  rw [List.head?_reverse]
  exact h.2

theorem isBody_unlines {ls : List (List Char)} (hne : ls ≠ []) (h : ∀ l ∈ ls, Line l) :
    IsBody (unlines ls) := by
  have hsolid := (solid_unlines hne h).2
  have havoids : ∀ marker, IsMarker marker → "# filigrio-".toList <+: marker →
      Avoids marker (unlines ls) := by
    intro marker hmarker hprefix
    rw [← avoids_newline hmarker, unlines_newline hne, Avoids,
      splitInclusive_terminated fun l hl => (h l hl).oneLine]
    intro line hline
    obtain ⟨l, hl, rfl⟩ := List.mem_map.mp hline
    rw [markerText_newline]
    exact (h l hl).text_ne hprefix
  refine ⟨⟨?_, ?_⟩, hsolid, trimNewlines_solid hsolid, ?_⟩
  · exact havoids SHELL.start SHELL.startMarker marker_starts.1
  · exact havoids SHELL.end SHELL.endMarker marker_starts.2
  · rw [← unlines_lines, unlines_newline hne,
      lines_terminated fun l hl => ⟨(h l hl).oneLine, (h l hl).chompReturn⟩]

/-- The environment names one-line paths. -/
structure Environment.Plain (env : Environment) : Prop where
  cliBin : '\n' ∉ env.cliBin.toList
  socketPath : '\n' ∉ env.socketPath.toList

/-- Two texts are filled in. -/
theorem line_fill_two {front gap back filled filled' : List Char} (hfront : Opening front)
    (hgap : '\n' ∉ gap) (hback : Ending back) (hfilled : '\n' ∉ filled)
    (hfilled' : '\n' ∉ filled') :
    Line (front ++ (filled ++ (gap ++ (filled' ++ back)))) := by
  have hmiddle : '\n' ∉ filled ++ (gap ++ filled') := by simp [hfilled, hgap, hfilled']
  simpa only [List.append_assoc] using line_fill hfront hback hmiddle

theorem oneLine_literal {l : List Char} (h : l.contains '\n' = false) :
    '\n' ∉ (String.ofList l).toList := by
  rw [String.toList_ofList]
  simpa using h

theorem hooks_oneLine : ∀ hook ∈ HOOKS, '\n' ∉ hook.name.toList ∧ '\n' ∉ hook.transition.toList
    ∧ '\n' ∉ hook.event.toList := by
  decide +kernel

theorem scriptLines_lines {env : Environment} {hook : Hook} (henv : env.Plain)
    (hhook : hook ∈ HOOKS) : ∀ l ∈ (scriptLines env hook).map String.toList, Line l := by
  obtain ⟨hname, htransition, hevent⟩ := hooks_oneLine hook hhook
  rw [scriptLines, List.map_append, List.map_append, List.forall_mem_append,
    List.forall_mem_append]
  refine ⟨⟨?_, ?_⟩, ?_⟩
  · simp only [List.map_cons, List.forall_mem_cons, String.toList_append, List.append_assoc]
    -- four lines name something, the others stand in the template as they are
    refine ⟨?_, ?_, ?_, line_literal (by decide), line_literal (by decide),
      line_literal (by decide), line_literal (by decide), ?_, line_literal (by decide),
      line_literal (by decide), line_literal (by decide), line_literal (by decide),
      line_literal (by decide), line_literal (by decide), line_literal (by decide),
      line_literal (by decide), line_literal (by decide), List.forall_mem_nil _⟩
    · exact line_fill_two (opening_literal (by decide)) (oneLine_literal (by decide))
        (ending_literal (by decide)) hname htransition
    · exact line_fill (opening_literal (by decide)) (ending_literal (by decide)) henv.cliBin
    · exact line_fill (opening_literal (by decide)) (ending_literal (by decide)) henv.cliBin
    · exact line_fill_two (opening_literal (by decide)) (oneLine_literal (by decide))
        (ending_literal (by decide)) (oneLine_literal (by decide)) (oneLine_literal (by decide))
  · split
    · simp only [List.map_cons, List.forall_mem_cons, String.toList_append, List.append_assoc]
      refine ⟨line_literal (by decide), ?_, line_literal (by decide), List.forall_mem_nil _⟩
      exact line_fill (opening_literal (by decide)) (ending_literal (by decide)) hname
    · exact List.forall_mem_nil _
  · have hcall : Ending
        ("\" hooks run ".toList ++ (hook.event.toList ++ " \"$@\" || true".toList)) :=
      ((ending_literal (by decide)).prepend hevent).prepend (oneLine_literal (by decide))
    rw [List.map_singleton, List.forall_mem_singleton]
    simp only [String.toList_append, List.append_assoc]
    exact line_fill_two (opening_literal (by decide)) (oneLine_literal (by decide)) hcall
      henv.cliBin henv.socketPath

theorem lines_script {env : Environment} {hook : Hook} (henv : env.Plain) (hhook : hook ∈ HOOKS) :
    lines (script env hook)
      = SHELL.start :: (scriptLines env hook).map String.toList ++ [SHELL.end] := by
  rw [script]
  refine lines_terminated fun l hl => ?_
  rcases List.mem_append.mp hl with hl | hl
  · rcases List.mem_cons.mp hl with rfl | hl
    · exact ⟨SHELL.startMarker.oneLine, SHELL.startMarker.chompReturn⟩
    · have hline := scriptLines_lines henv hhook l hl
      exact ⟨hline.oneLine, hline.chompReturn⟩
  · rw [List.mem_singleton.mp hl]
    exact ⟨SHELL.endMarker.oneLine, SHELL.endMarker.chompReturn⟩

theorem scriptLines_ne_nil (env : Environment) (hook : Hook) : scriptLines env hook ≠ [] :=
  List.append_ne_nil_of_right_ne_nil _ (List.cons_ne_nil _ [])

/-- What `upsert` is handed is the template between its markers. -/
theorem inner_eq {env : Environment} {hook : Hook} (henv : env.Plain) (hhook : hook ∈ HOOKS) :
    inner env hook = unlines ((scriptLines env hook).map String.toList) := by
  rw [inner, lines_script henv hhook, List.cons_append, List.drop_succ_cons, List.drop_zero,
    List.takeWhile_append_of_pos, List.takeWhile_cons_of_neg, List.append_nil]
  · rw [decide_eq_true_eq]
    exact not_not.mpr SHELL.endMarker.trimmed
  · intro l hl
    rw [decide_eq_true_eq, ← markerText_eq_trim]
    exact (scriptLines_lines henv hhook l hl).text_ne marker_starts.2

/-- It reads back as it is. -/
theorem isBody_inner {env : Environment} {hook : Hook} (henv : env.Plain) (hhook : hook ∈ HOOKS) :
    IsBody (inner env hook) := by
  rw [inner_eq henv hhook]
  have hne := scriptLines_ne_nil env hook
  exact isBody_unlines (by rwa [ne_eq, List.map_eq_nil_iff]) (scriptLines_lines henv hhook)

end Body

end Filigrio.Install.Hooks
