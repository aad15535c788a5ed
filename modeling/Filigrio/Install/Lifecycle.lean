import Filigrio.Install.Hooks

/-!
# Filigrio.Install.Lifecycle

What the verbs of the hook files are for. `Spec` is a hook as it is meant: the user's text, and
our block in it or none. Each verb does to the file what its namesake does to the hook
(`Agrees`), so that whole runs of verbs and of edits by the user keep to it
(`hooks_lifecycle`, `user_text_kept`).
-/

namespace Filigrio.Install.Hooks

open Lines

/-! ### What the verbs are for -/

/-- A text that ends where a line ends. -/
def finish (t : List Char) : List Char := if t = [] ∨ t.getLast? = some '\n' then t else t ++ ['\n']

/-- **A hook as it is meant**: the user's text, and our block in it or none. -/
structure Spec where
  above : Option (List Char)
  body : Option (List Char)
  below : List Char
  executable : Bool
  linked : Bool

namespace Spec

/-- What is the user's, or would be ours alone. -/
def user (s : Spec) : Option (List Char) := s.above.map fun t => t ++ s.below

def ofFile (file : HookFile) : Spec :=
  ⟨file.content, none, [], file.executable, file.linked⟩

/-- The executable bit, as `restoreMode` puts it. -/
def restore (sys : Sys) (ran : Ran Spec) : Ran Spec :=
  match ran.outcome with
  | .error _ => ran
  | .ok verdict =>
      match sys.refusesMode with
      | some e => ⟨.error e, ran.left, ran.notes⟩
      | none =>
          ⟨.ok (if ran.left.executable = false ∧ verdict.1 = .unchanged then
              (.updated, "executable bit restored")
            else verdict), { ran.left with executable := true }, ran.notes⟩

/-- The block gets the body; a missing hook becomes a script with nothing but the block. -/
def write (sys : Sys) (path : String) (body : List Char) (s : Spec) : Ran Spec :=
  if s.body = some body then ⟨.ok (.unchanged, "already current"), s, []⟩
  else match sys.refusesWrite with
    | some e => ⟨.error e, s, []⟩
    | none =>
        match s.above with
        | none => ⟨.ok (.installed, "hook created"), { s with
            above := some (SHEBANG ++ ['\n']), body := some body, executable := false }, []⟩
        | some t =>
            if s.body.isSome then
              ⟨.ok (.updated, "managed block refreshed"), { s with body := some body }, []⟩
            else ⟨.ok (.installed, "appended to the existing hook"),
              { s with above := some (finish t), body := some body },
              if exitsFrom false (lines t) then [deadNote path] else []⟩

def install (sys : Sys) (path : String) (body : List Char) (s : Spec) : Ran Spec :=
  match sys.refusesRead with
  | some e => ⟨.error e, s, []⟩
  | none => restore sys (write sys path body s)

/-- The block goes; a hook that has nothing else goes with it. -/
def uninstall (sys : Sys) (s : Spec) : Ran Spec :=
  match sys.refusesRead with
  | some e => ⟨.error e, s, []⟩
  | none =>
      match s.above, s.body with
      | none, _ => ⟨.ok (.absent, "no such file"), s, []⟩
      | some _, none => ⟨.ok (.absent, "no filigrio block in this file"), s, []⟩
      | some t, some _ =>
          match sys.refusesWrite with
          | some e => ⟨.error e, s, []⟩
          | none =>
              if bareShebang (t ++ s.below) = false then
                ⟨.ok (.removed, "managed block removed, rest preserved"),
                  { s with above := some (t ++ s.below), body := none, below := [] }, []⟩
              else if s.linked then
                ⟨.ok (.removed, "emptied through the symlink at this path (held only our block) — "
                  ++ "the link and the file it points at are the user's, so neither was deleted"),
                  { s with above := some [], body := none, below := [] }, []⟩
              else
                ⟨.ok (.removed, "file removed (held only our block)"),
                  { s with above := none, body := none, below := [], executable := false }, []⟩

def status (sys : Sys) (path : String) (want : List Char) (s : Spec) : Ran Spec :=
  match sys.refusesRead with
  | some e => ⟨.error e, s, []⟩
  | none =>
      match s.above, s.body with
      | none, _ => ⟨.ok (.absent, "not installed"), s, []⟩
      | some _, none => ⟨.ok (.absent, "hook exists but holds no filigrio block"), s, []⟩
      | some t, some body =>
          if body = want then
            let notes := if exitsFrom false (lines t) then [unreachedNote path] else []
            if s.executable then ⟨.ok (.present, "current"), s, notes⟩
            else ⟨.ok (.present, STALE), s, notes ++ [inertNote path]⟩
          else ⟨.ok (.present, STALE), s, []⟩

def edit (above below : List Char) (s : Spec) : Spec :=
  if s.body.isSome then { s with above := some (finish above), below := below }
  else { s with above := some (above ++ below) }

def delete (s : Spec) : Spec :=
  { s with above := none, body := none, below := [], executable := false }

def chmod (executable : Bool) (s : Spec) : Spec :=
  { s with executable := s.above.isSome && executable }

end Spec

/-- A command, as it is meant. -/
def Command.meant (st : HookDir Spec) : Command → HookDir Spec
  | install call env hooks =>
      overHooks call (fun sys path hook s => s.install sys path (inner env hook)) hooks st
  | uninstall call hooks => overHooks call (fun sys _ _ s => s.uninstall sys) hooks st
  | status call env hooks =>
      overHooks call (fun sys path hook s => s.status sys path (inner env hook)) hooks st
  | edit name above below => { st with
      files := Function.update st.files name ((st.files name).edit above below) }
  | delete name => { st with files := Function.update st.files name (st.files name).delete }
  | chmod name executable => { st with
      files := Function.update st.files name ((st.files name).chmod executable) }

/-! ### The file of a hook -/

/-- The file that a hook as it is meant is kept in. -/
inductive Tracks : HookFile → Spec → Prop
  | absent (l : Bool) : Tracks ⟨none, false, l⟩ ⟨none, none, [], false, l⟩
  | plain {t : List Char} (x l : Bool) : Free SHELL t →
      Tracks ⟨some t, x, l⟩ ⟨some t, none, [], x, l⟩
  | block {t body below : List Char} (x l : Bool) : Free SHELL t → IsBody body → Free SHELL below →
      Tracks ⟨some (beforeBlock t ++ (blockText body SHELL ++ below)), x, l⟩
        ⟨some (finish t), some body, below, x, l⟩

/-! ### What a hook file reads as -/

theorem dropNewline_beforeBlock (t : List Char) : dropNewline (beforeBlock t) = finish t :=
  dropLast_beforeBlock t

theorem whole_finish (t : List Char) : Whole (finish t) := by
  rw [finish]
  split
  · assumption
  · exact Whole.append_newline t

theorem free_finish {t : List Char} (h : Free SHELL t) : Free SHELL (finish t) := by
  rw [finish]
  split
  · exact h
  · exact ⟨(avoids_newline SHELL.startMarker).mpr h.1, (avoids_newline SHELL.endMarker).mpr h.2⟩

theorem free_append {s t : List Char} (hs : Whole s) (h : Free SHELL s) (h' : Free SHELL t) :
    Free SHELL (s ++ t) :=
  ⟨(avoids_append hs).mpr ⟨h.1, h'.1⟩, (avoids_append hs).mpr ⟨h.2, h'.2⟩⟩

theorem free_nil : Free SHELL [] := ⟨by simp [Avoids], by simp [Avoids]⟩

theorem find_of_free {t : List Char} (h : Free SHELL t) : find t SHELL = none := find_eq_none h.1

section Block

variable {t body below : List Char}

theorem find_block (ht : Free SHELL t) (hbody : IsBody body) :
    find (beforeBlock t ++ (blockText body SHELL ++ below)) SHELL
      = some ((beforeBlock t).length, (beforeBlock t).length + (blockText body SHELL).length) :=
  find_around (whole_beforeBlock t) (avoids_beforeBlock SHELL.startMarker ht.1) hbody.free.2

theorem cut_block (front block back : List Char) :
    ((front ++ (block ++ back)).take (front.length + block.length)).drop front.length = block := by
  rw [← List.append_assoc, ← List.length_append, List.take_left, List.drop_left]

theorem bodyOf_block (ht : Free SHELL t) (hbody : IsBody body) :
    bodyOf (beforeBlock t ++ (blockText body SHELL ++ below)) SHELL = some body := by
  have hread : ∀ back, bodyOf (beforeBlock t ++ (blockText body SHELL ++ back)) SHELL
      = bodyOf (beforeBlock t ++ (blockText body SHELL ++ [])) SHELL := by
    intro back
    rw [bodyOf, bodyOf, find_block ht hbody, find_block ht hbody, Option.map_some, Option.map_some,
      cut_block, cut_block]
  rw [hread, bodyOf_around (whole_beforeBlock t) (avoids_beforeBlock SHELL.startMarker ht.1)
    hbody.free.2, hbody.newlines, unlines_lines.mpr hbody.noReturn]

theorem upsert_block {body' : List Char} (ht : Free SHELL t) (hbody : IsBody body)
    (hbelow : Free SHELL below) :
    upsert (beforeBlock t ++ (blockText body SHELL ++ below)) body' SHELL
      = beforeBlock t ++ (blockText body' SHELL ++ below) :=
  upsert_around (whole_beforeBlock t) (avoids_beforeBlock SHELL.startMarker ht.1) hbody.free.2
    hbelow.1

theorem upsert_free (ht : Free SHELL t) (body : List Char) :
    upsert t body SHELL = beforeBlock t ++ (blockText body SHELL ++ []) := by
  rw [upsert_of_free body ht.1, append_eq, List.append_nil]

theorem remove_block (ht : Free SHELL t) (hbody : IsBody body) (hbelow : Free SHELL below) :
    remove (beforeBlock t ++ (blockText body SHELL ++ below)) SHELL = some (finish t ++ below) := by
  rw [remove_around body (whole_beforeBlock t) (avoids_beforeBlock SHELL.startMarker ht.1) hbelow.1,
    stripAll_blockText hbody.free.2, dropNewline_beforeBlock, List.nil_append]

/-- Two files with a block are the same only with the same body. -/
theorem body_of_block_eq {body' : List Char} (ht : Free SHELL t) (hbody : IsBody body)
    (hbody' : IsBody body')
    (h : beforeBlock t ++ (blockText body' SHELL ++ below)
      = beforeBlock t ++ (blockText body SHELL ++ below)) : body' = body := by
  have hread := congrArg (fun content => bodyOf content SHELL) h
  simpa [bodyOf_block ht hbody, bodyOf_block ht hbody'] using hread

theorem trim_chomp (l : List Char) : trim (chomp l) = trim l := by
  by_cases hl : l.getLast? = some '\n'
  · rw [← List.dropLast_append_getLast? '\n' hl, chomp_newline, trim_chompReturn, trim_newline]
  · rw [chomp, if_neg hl]

theorem exitsFrom_append {front rest : List (List Char)} (saw : Bool)
    (h : ∀ l ∈ front, trim l ≠ SHELL.start) :
    exitsFrom saw (front ++ rest) = exitsFrom (exitsFrom saw front) rest := by
  induction front generalizing saw with
  | nil => rfl
  | cons l front ih =>
      have ih := fun saw => ih saw fun l' hl' => h l' (List.mem_cons_of_mem l hl')
      rw [List.cons_append, exitsFrom, exitsFrom]
      dsimp only
      rw [if_neg (h l List.mem_cons_self), if_neg (h l List.mem_cons_self), ih, ih, ih]
      split_ifs <;> rfl

theorem dropWhile_append_return {l : List Char} (hne : l ≠ []) :
    (l ++ ['\r']).dropWhile Text.isWhite = l ++ ['\r'] ↔ l.dropWhile Text.isWhite = l := by
  cases l with
  | nil => exact absurd rfl hne
  | cons c cs =>
      have hshort : ∀ s : List Char, s.dropWhile Text.isWhite ≠ c :: s := by
        intro s h
        have hle := (List.dropWhile_sublist Text.isWhite (l := s)).length_le
        rw [h, List.length_cons] at hle
        omega
      rw [List.cons_append]
      by_cases hc : Text.isWhite c
      · rw [List.dropWhile_cons_of_pos hc, List.dropWhile_cons_of_pos hc]
        exact iff_of_false (hshort _) (hshort _)
      · rw [List.dropWhile_cons_of_neg hc, List.dropWhile_cons_of_neg hc]
        exact iff_of_true rfl rfl

/-- A carriage return at its end does not change what a line does. -/
theorem exitsFrom_chompReturn (saw : Bool) (l : List Char) (rest : List (List Char)) :
    exitsFrom saw (chompReturn l :: rest) = exitsFrom saw (l :: rest) := by
  have htrim : trim (chompReturn l) = trim l := trim_chompReturn l
  rcases chompReturn_cases l with ⟨hsame, -⟩ | hreturn
  · rw [hsame]
  · by_cases hnil : chompReturn l = []
    · rw [hnil] at hreturn ⊢
      rw [hreturn]
      cases saw <;> rfl
    · have hindent := dropWhile_append_return hnil
      rw [← hreturn] at hindent
      rw [exitsFrom, exitsFrom]
      dsimp only
      simp only [htrim, hindent, ne_eq]

theorem exitsFrom_newline (saw : Bool) (t : List Char) :
    exitsFrom saw (lines (t ++ ['\n'])) = exitsFrom saw (lines t) := by
  induction t using line_induction generalizing saw with
  | last l hl =>
      rw [lines_line hl, exitsFrom_chompReturn, lines_of_notMem hl]
      split
      · rename_i hnil
        rw [hnil]
        cases saw <;> rfl
      · rfl
  | line l cs hl ih =>
      -- the first line is the same, and the flag after it
      rw [List.append_assoc, List.cons_append, lines_line hl, lines_line hl, exitsFrom, exitsFrom]
      simp only [ih]

theorem exitsFrom_finish (t : List Char) :
    exitsFrom false (lines (finish t)) = exitsFrom false (lines t) := by
  rw [finish]
  split
  · rfl
  · exact exitsFrom_newline false t

/-- The block changes nothing about an `exit` above it. -/
theorem exitsBeforeOurBlock_block (ht : Free SHELL t) :
    exitsBeforeOurBlock (beforeBlock t ++ (blockText body SHELL ++ below))
      = exitsFrom false (lines t) := by
  have hfree : ∀ l ∈ lines (beforeBlock t), trim l ≠ SHELL.start := by
    intro l hl
    obtain ⟨l', hl', rfl⟩ := List.mem_map.mp hl
    rw [trim_chomp, ← markerText_eq_trim]
    exact avoids_beforeBlock SHELL.startMarker ht.1 l' hl'
  have hblock : ∀ saw, exitsFrom saw (lines (blockText body SHELL ++ below)) = saw := by
    intro saw
    rw [blockText, List.append_assoc, List.cons_append, lines_line SHELL.startMarker.oneLine,
      SHELL.startMarker.chompReturn, exitsFrom, if_neg (by decide +kernel)]
    exact if_pos SHELL.startMarker.trimmed
  rw [exitsBeforeOurBlock, lines_append (whole_beforeBlock t), exitsFrom_append false hfree, hblock,
    beforeBlock]
  split
  · rename_i hnil
    rw [hnil]
  · split
    · exact exitsFrom_newline false t
    · rw [exitsFrom_newline, exitsFrom_newline]

end Block

/-! ### One verb -/

/-- What a verb does to the file is what it does to the hook. -/
structure Agrees (file : Ran HookFile) (spec : Ran Spec) : Prop where
  outcome : file.outcome = spec.outcome
  left : Tracks file.left spec.left
  notes : file.notes = spec.notes

section Verb

variable {sys : Sys} {path : String} {body : List Char} {file : HookFile} {s : Spec}

theorem Tracks.isExecutable (h : Tracks file s) (hs : s.above ≠ none) :
    isExecutable file = s.executable := by
  cases h with
  | absent l => exact absurd rfl hs
  | plain x l ht => rfl
  | block x l ht hbody hbelow => rfl

theorem Tracks.mode (b : Bool) (h : Tracks file s) (hs : s.above ≠ none) :
    Tracks { file with executable := b } { s with executable := b } := by
  cases h with
  | absent l => exact absurd rfl hs
  | plain x l ht => exact .plain b l ht
  | block x l ht hbody hbelow => exact .block b l ht hbody hbelow

/-- Writing succeeds only where a file is left. -/
theorem present_of_write {verdict : Action × String}
    (h : (s.write sys path body).outcome = .ok verdict) (hs : s.body = some body → s.above ≠ none) :
    (s.write sys path body).left.above ≠ none := by
  rw [Spec.write] at h ⊢
  split at h
  · rename_i hbody
    rw [if_pos hbody]
    exact hs hbody
  · rename_i hbody
    rw [if_neg hbody]
    split at h
    · cases h
    · split at h
      · exact Option.some_ne_none _
      · rename_i habove
        split at h
        · rename_i hsome
          rw [habove]
          simp [hsome]
        · rename_i hsome
          rw [habove]
          simp [hsome]

theorem writeBlock_agrees (h : Tracks file s) (hbody : IsBody body) :
    Agrees (writeBlock sys path body file) (s.write sys path body) := by
  cases h with
  | absent l =>
      have hfresh : Free SHELL (SHEBANG ++ ['\n']) := by decide +kernel
      rw [writeBlock, Spec.write, if_neg (by simp)]
      dsimp only
      cases hw : sys.refusesWrite with
      | some e =>
          simp only [writeAll, hw]
          exact ⟨rfl, .absent l, rfl⟩
      | none =>
          simp only [writeAll, hw, upsert_free hfresh]
          exact ⟨rfl, .block false l hfresh hbody free_nil, rfl⟩
  | plain x l ht =>
      rename_i t
      -- an install is a change here: there is a block afterwards and none before
      have hblock : find (upsert t body SHELL) SHELL ≠ none := by
        rw [upsert_free ht, find_block ht hbody]
        exact Option.some_ne_none _
      have hchanged : upsert t body SHELL ≠ t := by
        intro hsame
        rw [hsame, find_of_free ht] at hblock
        exact hblock rfl
      rw [writeBlock, Spec.write, if_neg (by simp)]
      dsimp only
      rw [if_neg hchanged]
      cases hw : sys.refusesWrite with
      | some e =>
          simp only [writeAll, hw]
          exact ⟨rfl, .plain x l ht, rfl⟩
      | none =>
          have hnone : contains t SHELL = false := by rw [contains, find_of_free ht]; rfl
          simp only [writeAll, hw, hnone]
          rw [upsert_free ht, exitsBeforeOurBlock_block ht]
          exact ⟨rfl, .block x l ht hbody free_nil, rfl⟩
  | block x l ht hprior hbelow =>
      rename_i t prior below
      rw [writeBlock, Spec.write]
      dsimp only
      rw [upsert_block ht hprior hbelow]
      by_cases hsame : prior = body
      · rw [if_pos (by rw [hsame]), if_pos (by rw [hsame])]
        exact ⟨rfl, .block x l ht hprior hbelow, rfl⟩
      · -- the text changes with the body, because the body can be read back
        have hchanged : beforeBlock t ++ (blockText body SHELL ++ below)
            ≠ beforeBlock t ++ (blockText prior SHELL ++ below) := by
          intro h
          exact hsame (body_of_block_eq ht hprior hbody h).symm
        have hbodies : some prior ≠ some body := fun h => hsame (Option.some.inj h)
        rw [if_neg hchanged, if_neg hbodies]
        cases hw : sys.refusesWrite with
        | some e =>
            simp only [writeAll, hw]
            exact ⟨rfl, .block x l ht hprior hbelow, rfl⟩
        | none =>
            have hsome :
                contains (beforeBlock t ++ (blockText prior SHELL ++ below)) SHELL = true := by
              rw [contains, find_block ht hprior]
              rfl
            simp only [writeAll, hw, hsome]
            exact ⟨rfl, .block x l ht hbody hbelow, rfl⟩

theorem restoreMode_agrees {ran : Ran HookFile} {spec : Ran Spec} (h : Agrees ran spec)
    (hpresent : ∀ verdict, spec.outcome = .ok verdict → spec.left.above ≠ none) :
    Agrees (restoreMode sys ran) (Spec.restore sys spec) := by
  obtain ⟨houtcome, hleft, hnotes⟩ := h
  rw [restoreMode, Spec.restore, houtcome]
  cases hspec : spec.outcome with
  | error e => exact ⟨houtcome, hleft, hnotes⟩
  | ok verdict =>
      have hs := hpresent verdict hspec
      dsimp only
      rw [makeExecutable]
      cases hmode : sys.refusesMode with
      | some e => exact ⟨rfl, hleft, hnotes⟩
      | none =>
          dsimp only
          rw [hleft.isExecutable hs]
          exact ⟨rfl, hleft.mode true hs, hnotes⟩

theorem installOne_agrees (h : Tracks file s) (hbody : IsBody body) :
    Agrees (installOne sys path body file) (s.install sys path body) := by
  rw [installOne, readOpt, Spec.install]
  cases hread : sys.refusesRead with
  | some e => exact ⟨rfl, h, rfl⟩
  | none =>
      refine restoreMode_agrees (writeBlock_agrees h hbody) fun verdict hok => ?_
      refine present_of_write hok fun hs => ?_
      cases h with
      | absent l => cases hs
      | plain x l ht => exact Option.some_ne_none _
      | block x l ht hprior hbelow => exact Option.some_ne_none _

theorem uninstallOne_agrees (h : Tracks file s) :
    Agrees (uninstallOne sys file) (s.uninstall sys) := by
  rw [uninstallOne, removeFileBlock, readOpt, Spec.uninstall]
  cases hread : sys.refusesRead with
  | some e => exact ⟨rfl, h, rfl⟩
  | none =>
      cases h with
      | absent l => exact ⟨rfl, .absent l, rfl⟩
      | plain x l ht =>
          dsimp only
          rw [remove, find_of_free ht]
          exact ⟨rfl, .plain x l ht, rfl⟩
      | block x l ht hbody hbelow =>
          dsimp only
          rw [remove_block ht hbody hbelow]
          dsimp only
          rw [removeFile, writeAll]
          cases hw : sys.refusesWrite with
          | some e =>
              dsimp only
              split <;> exact ⟨rfl, .block x l ht hbody hbelow, rfl⟩
          | none =>
              -- what is left of a bare script goes, or is emptied behind a link
              have hfree := free_append (whole_finish _) (free_finish ht) hbelow
              cases hbare : bareShebang (finish _ ++ _) with
              | false => exact ⟨rfl, .plain x l hfree, rfl⟩
              | true =>
                  cases l with
                  | false => exact ⟨rfl, .absent false, rfl⟩
                  | true => exact ⟨rfl, .plain x true free_nil, rfl⟩

theorem statusOne_agrees (h : Tracks file s) (hbody : IsBody body) :
    Agrees (statusOne sys path body file) (s.status sys path body) := by
  rw [statusOne, readOpt, Spec.status]
  cases hread : sys.refusesRead with
  | some e => exact ⟨rfl, h, rfl⟩
  | none =>
      cases h with
      | absent l => exact ⟨rfl, .absent l, rfl⟩
      | plain x l ht =>
          dsimp only
          rw [bodyOf, find_of_free ht]
          exact ⟨rfl, .plain x l ht, rfl⟩
      | block x l ht hprior hbelow =>
          dsimp only
          rw [bodyOf_block ht hprior]
          dsimp only
          rw [hprior.solid.trim, hbody.solid.trim, exitsBeforeOurBlock_block ht, exitsFrom_finish]
          have hleft := Tracks.block x l ht hprior hbelow
          split
          · rw [Hooks.isExecutable]
            dsimp only
            cases x with
            | false => exact ⟨rfl, hleft, rfl⟩
            | true => exact ⟨rfl, hleft, rfl⟩
          · exact ⟨rfl, hleft, rfl⟩

end Verb

/-! ### Runs -/

/-- The files are those of the hooks as they are meant, and the reports are the same. -/
structure Follows (dir : HookDir HookFile) (meant : HookDir Spec) : Prop where
  files : ∀ name, Tracks (dir.files name) (meant.files name)
  report : dir.report = meant.report

section Run

variable {dir : HookDir HookFile} {meant : HookDir Spec}

theorem follows_update {file : HookFile} {s : Spec} (h : Follows dir meant) (name : String)
    (hfile : Tracks file s) :
    Follows { dir with files := Function.update dir.files name file }
      { meant with files := Function.update meant.files name s } := by
  refine ⟨fun other => ?_, h.report⟩
  by_cases hother : other = name
  · subst hother
    simpa using hfile
  · simpa [Function.update_of_ne hother] using h.files other

/-- A verb that agrees on each hook agrees on a selection. -/
theorem overHooks_follows {call : Call} {verb : Sys → String → Hook → HookFile → Ran HookFile}
    {verb' : Sys → String → Hook → Spec → Ran Spec} {hooks : List Hook}
    (hverb : ∀ hook ∈ hooks, ∀ sys path file s, Tracks file s →
      Agrees (verb sys path hook file) (verb' sys path hook s))
    (h : Follows dir meant) :
    Follows (overHooks call verb hooks dir) (overHooks call verb' hooks meant) := by
  rw [overHooks, overHooks]
  cases call.dir with
  | error e => exact ⟨h.files, by rw [h.report]⟩
  | ok root =>
      dsimp only
      induction hooks generalizing dir meant with
      | nil => exact h
      | cons hook hooks ih =>
          -- a hook may be named twice: the second time it is the file that the first one left
          have hone := hverb hook List.mem_cons_self (call.sys hook.name) (root ++ "/" ++ hook.name)
            _ _ (h.files hook.name)
          rw [List.foldl_cons, List.foldl_cons]
          refine ih (fun hook' hmem => hverb hook' (List.mem_cons_of_mem hook hmem)) ?_
          refine ⟨(follows_update h hook.name hone.left).files, ?_⟩
          rw [h.report, hone.outcome, hone.notes]

/-- What the verbs are promised: paths of one line, hooks that there are, and a user who does not
write our markers. -/
def Command.Proper : Command → Prop
  | install _ env hooks => env.Plain ∧ ∀ hook ∈ hooks, hook ∈ HOOKS
  | uninstall _ _ => True
  | status _ env hooks => env.Plain ∧ ∀ hook ∈ hooks, hook ∈ HOOKS
  | edit _ above below => Free SHELL above ∧ Free SHELL below ∧ Free SHELL (above ++ below)
  | delete _ => True
  | chmod _ _ => True

theorem edit_tracks {file : HookFile} {s : Spec} {above below : List Char} (h : Tracks file s)
    (habove : Free SHELL above) (hbelow : Free SHELL below) (hboth : Free SHELL (above ++ below)) :
    Tracks (file.edit above below) (s.edit above below) := by
  cases h with
  | absent l => exact .plain false l hboth
  | plain x l ht =>
      rw [HookFile.edit]
      dsimp only
      rw [find_of_free ht]
      exact .plain x l hboth
  | block x l ht hbody hb =>
      rw [HookFile.edit]
      dsimp only
      rw [find_block ht hbody]
      dsimp only
      rw [cut_block]
      exact .block x l habove hbody hbelow

theorem delete_tracks {file : HookFile} {s : Spec} (h : Tracks file s) :
    Tracks file.delete s.delete := by
  cases h with
  | absent l => exact .absent l
  | plain x l ht => exact .absent l
  | block x l ht hbody hbelow => exact .absent l

theorem chmod_tracks {file : HookFile} {s : Spec} (executable : Bool) (h : Tracks file s) :
    Tracks (file.chmod executable) (s.chmod executable) := by
  cases h with
  | absent l => exact .absent l
  | plain x l ht => exact .plain executable l ht
  | block x l ht hbody hbelow => exact .block executable l ht hbody hbelow

theorem run_follows {c : Command} (hc : c.Proper) (h : Follows dir meant) :
    Follows (c.run dir) (c.meant meant) := by
  cases c with
  | install call env hooks =>
      obtain ⟨henv, hhooks⟩ := hc
      rw [Command.run, Command.meant]
      refine overHooks_follows ?_ h
      intro hook hmem sys path file s hfile
      exact installOne_agrees hfile (isBody_inner henv (hhooks hook hmem))
  | uninstall call hooks =>
      rw [Command.run, Command.meant]
      refine overHooks_follows ?_ h
      intro hook hmem sys path file s hfile
      exact uninstallOne_agrees hfile
  | status call env hooks =>
      obtain ⟨henv, hhooks⟩ := hc
      rw [Command.run, Command.meant]
      refine overHooks_follows ?_ h
      intro hook hmem sys path file s hfile
      exact statusOne_agrees hfile (isBody_inner henv (hhooks hook hmem))
  | edit name above below =>
      exact follows_update h name (edit_tracks (h.files name) hc.1 hc.2.1 hc.2.2)
  | delete name => exact follows_update h name (delete_tracks (h.files name))
  | chmod name executable => exact follows_update h name (chmod_tracks executable (h.files name))

/-- A file that is there has none of our marker lines. -/
def Fresh (file : HookFile) : Prop :=
  (file.content = none → file.executable = false) ∧ ∀ t, file.content = some t → Free SHELL t

/-- The hooks of a directory that we have not touched. -/
def HookDir.asFound (dir : HookDir HookFile) : HookDir Spec :=
  ⟨fun name => Spec.ofFile (dir.files name), dir.report⟩

theorem follows_asFound (hfresh : ∀ name, Fresh (dir.files name)) : Follows dir dir.asFound := by
  refine ⟨fun name => ?_, rfl⟩
  obtain ⟨habsent, hfree⟩ := hfresh name
  rw [HookDir.asFound]
  dsimp only
  generalize dir.files name = file at habsent hfree
  obtain ⟨content, x, l⟩ := file
  cases content with
  | none =>
      obtain rfl : x = false := habsent rfl
      exact .absent l
  | some t => exact .plain x l (hfree t rfl)

theorem foldl_follows {cmds : List Command} (hcmds : ∀ c ∈ cmds, c.Proper) (h : Follows dir meant) :
    Follows (cmds.foldl Command.run dir) (cmds.foldl Command.meant meant) := by
  induction cmds generalizing dir meant with
  | nil => exact h
  | cons c cmds ih =>
      exact ih (fun c' hc' => hcmds c' (List.mem_cons_of_mem c hc'))
        (run_follows (hcmds c List.mem_cons_self) h)

/-- **The hook files go through every run as they are meant to.** Verbs in any order, edits of the
user in between and refusals of the file system: the reports are those of the hooks as they are
meant, and each file is the user's text with our block in it, or the user's text alone. -/
theorem hooks_lifecycle (hfresh : ∀ name, Fresh (dir.files name)) {cmds : List Command}
    (hcmds : ∀ c ∈ cmds, c.Proper) :
    (cmds.foldl Command.run dir).report = (cmds.foldl Command.meant dir.asFound).report
    ∧ ∀ name, Tracks ((cmds.foldl Command.run dir).files name)
        ((cmds.foldl Command.meant dir.asFound).files name) := by
  have h := foldl_follows hcmds (follows_asFound hfresh)
  exact ⟨h.report, h.files⟩

/-! ### The user's text -/

/-- The command leaves the file to the verbs. -/
def Command.LeavesAlone (name : String) : Command → Prop
  | edit other _ _ => other ≠ name
  | delete other => other ≠ name
  | _ => True

/-- The hook has the user's text, up to a newline at its end, and nothing below the block. -/
structure Keeps (t : List Char) (s : Spec) : Prop where
  above : s.above = some t ∨ s.above = some (finish t)
  marked : s.body ≠ none → s.above = some (finish t)
  below : s.below = []

theorem finish_finish (t : List Char) : finish (finish t) = finish t := if_pos (whole_finish t)

theorem bareShebang_finish (t : List Char) : bareShebang (finish t) = bareShebang t := by
  rw [finish]
  split
  · rfl
  · rw [bareShebang, bareShebang, trim_newline]

theorem finish_ne_nil {t : List Char} (ht : t ≠ []) : finish t ≠ [] := by
  rw [finish]
  split
  · exact ht
  · simp

theorem beforeBlock_eq {t : List Char} (ht : t ≠ []) : beforeBlock t = finish t ++ ['\n'] := by
  rw [beforeBlock, finish, if_neg ht]
  split
  · rename_i hlast
    rw [if_pos (Or.inr hlast)]
  · rename_i hlast
    rw [if_neg (by simp [ht, hlast])]

section Keeps

variable {t body : List Char} {s : Spec} {sys : Sys} {path : String}

theorem Keeps.above_ne (h : Keeps t s) : s.above ≠ none := by
  rcases h.above with h | h <;> rw [h] <;> exact Option.some_ne_none _

/-- The text that the hook has differs by a newline at most. -/
theorem Keeps.finish_above {t' : List Char} (h : Keeps t s) (habove : s.above = some t') :
    finish t' = finish t := by
  rcases h.above with h | h <;> rw [h, Option.some.injEq] at habove <;> subst habove
  · rfl
  · exact finish_finish t

theorem keeps_write (h : Keeps t s) : Keeps t (s.write sys path body).left := by
  rw [Spec.write]
  split
  · exact h
  · split
    · exact h
    · split
      · rename_i hnone
        exact absurd hnone h.above_ne
      · rename_i t' habove
        split
        · rename_i hsome
          have hmarked := h.marked (Option.isSome_iff_ne_none.mp hsome)
          exact ⟨Or.inr hmarked, fun _ => hmarked, h.below⟩
        · -- a new block is put behind the text, whichever of the two it is by now
          have hfinish := h.finish_above habove
          exact ⟨Or.inr (congrArg some hfinish), fun _ => congrArg some hfinish, h.below⟩

theorem keeps_restore {ran : Ran Spec} (h : Keeps t ran.left) :
    Keeps t (Spec.restore sys ran).left := by
  rw [Spec.restore]
  split
  · exact h
  · split
    · exact h
    · exact ⟨h.above, h.marked, h.below⟩

theorem keeps_install (h : Keeps t s) : Keeps t (s.install sys path body).left := by
  rw [Spec.install]
  split
  · exact h
  · exact keeps_restore (keeps_write h)

theorem keeps_uninstall (hown : bareShebang t = false) (h : Keeps t s) :
    Keeps t (s.uninstall sys).left := by
  rw [Spec.uninstall]
  split
  · exact h
  · split
    · exact h
    · exact h
    · rename_i t' body' habove hbody
      split
      · exact h
      · have hbare : bareShebang (t' ++ s.below) = false := by
          rw [h.below, List.append_nil, ← bareShebang_finish, h.finish_above habove,
            bareShebang_finish, hown]
        rw [if_pos hbare]
        refine ⟨?_, fun hne => absurd rfl hne, rfl⟩
        rw [h.below, List.append_nil, ← habove]
        exact h.above

theorem keeps_status (h : Keeps t s) : Keeps t (s.status sys path body).left := by
  rw [Spec.status]
  split
  · exact h
  · split
    · exact h
    · exact h
    · split
      · dsimp only
        split <;> exact h
      · exact h

theorem keeps_overHooks {call : Call} {verb : Sys → String → Hook → Spec → Ran Spec}
    {hooks : List Hook} {meant : HookDir Spec} {name : String}
    (hverb : ∀ sys path hook s, Keeps t s → Keeps t (verb sys path hook s).left)
    (h : Keeps t (meant.files name)) : Keeps t ((overHooks call verb hooks meant).files name) := by
  rw [overHooks]
  cases call.dir with
  | error e => exact h
  | ok root =>
      dsimp only
      induction hooks generalizing meant with
      | nil => exact h
      | cons hook hooks ih =>
          rw [List.foldl_cons]
          refine ih ?_
          dsimp only
          by_cases hname : name = hook.name
          · subst hname
            rw [Function.update_self]
            exact hverb _ _ _ _ h
          · rw [Function.update_of_ne hname]
            exact h

theorem keeps_meant {c : Command} {meant : HookDir Spec} {name : String}
    (hown : bareShebang t = false) (hc : c.LeavesAlone name) (h : Keeps t (meant.files name)) :
    Keeps t ((c.meant meant).files name) := by
  cases c with
  | install call env hooks =>
      rw [Command.meant]
      exact keeps_overHooks (fun _ _ _ _ h' => keeps_install h') h
  | uninstall call hooks =>
      rw [Command.meant]
      exact keeps_overHooks (fun _ _ _ _ h' => keeps_uninstall hown h') h
  | status call env hooks =>
      rw [Command.meant]
      exact keeps_overHooks (fun _ _ _ _ h' => keeps_status h') h
  | edit other above below =>
      rw [Command.meant]
      dsimp only
      rw [Function.update_of_ne (Ne.symm hc)]
      exact h
  | delete other =>
      rw [Command.meant]
      dsimp only
      rw [Function.update_of_ne (Ne.symm hc)]
      exact h
  | chmod other executable =>
      rw [Command.meant]
      dsimp only
      by_cases hname : name = other
      · subst hname
        rw [Function.update_self]
        exact ⟨h.above, h.marked, h.below⟩
      · rw [Function.update_of_ne hname]
        exact h

theorem keeps_foldl {cmds : List Command} {meant : HookDir Spec} {name : String}
    (hown : bareShebang t = false) (hcmds : ∀ c ∈ cmds, c.LeavesAlone name)
    (h : Keeps t (meant.files name)) : Keeps t ((cmds.foldl Command.meant meant).files name) := by
  induction cmds generalizing meant with
  | nil => exact h
  | cons c cmds ih =>
      exact ih (fun c' hc' => hcmds c' (List.mem_cons_of_mem c hc'))
        (keeps_meant hown (hcmds c List.mem_cons_self) h)

theorem content_of_plain {file : HookFile} (h : Tracks file s) (hbody : s.body = none) :
    file.content = s.above := by
  cases h with
  | absent l => rfl
  | plain x l ht => rfl
  | block x l ht hb hbelow => cases hbody

theorem content_of_block {file : HookFile} (h : Tracks file s) (hkeeps : Keeps t s) (hne : t ≠ [])
    (hbody : s.body = some body) :
    file.content = some (finish t ++ '\n' :: blockText body SHELL) := by
  have hmarked := hkeeps.marked (by rw [hbody]; exact Option.some_ne_none body)
  have hbelow := hkeeps.below
  cases h with
  | absent l => cases hbody
  | plain x l ht => cases hbody
  | block x l ht hb hfree =>
      rename_i t' body' below'
      -- the text that the block was appended to differs from `t` by a newline at most
      obtain rfl : below' = [] := hbelow
      obtain rfl : body' = body := Option.some.inj hbody
      have hsame : finish t' = finish t := Option.some.inj hmarked
      have hne' : t' ≠ [] := by
        rintro rfl
        exact finish_ne_nil hne hsame.symm
      dsimp only
      rw [beforeBlock_eq hne', hsame]
      simp

theorem body_of_uninstall (hread : sys.refusesRead = none) (hwrite : sys.refusesWrite = none)
    (hs : s.above ≠ none) : (s.uninstall sys).left.body = none := by
  rw [Spec.uninstall, hread, hwrite]
  dsimp only
  split
  · rename_i hnone
    exact absurd hnone hs
  · assumption
  · split
    · rfl
    · split <;> rfl

theorem write_ok (hwrite : sys.refusesWrite = none) (hs : s.above ≠ none) :
    (∃ verdict, (s.write sys path body).outcome = .ok verdict)
    ∧ (s.write sys path body).left.body = some body := by
  rw [Spec.write, hwrite]
  dsimp only
  split
  · rename_i hbody
    exact ⟨⟨_, rfl⟩, hbody⟩
  · split
    · rename_i hnone
      exact absurd hnone hs
    · split <;> exact ⟨⟨_, rfl⟩, rfl⟩

theorem install_ok (hread : sys.refusesRead = none) (hwrite : sys.refusesWrite = none)
    (hmode : sys.refusesMode = none) (hs : s.above ≠ none) :
    (s.install sys path body).left.body = some body
    ∧ (s.install sys path body).left.executable = true := by
  obtain ⟨⟨verdict, hok⟩, hbody⟩ := @write_ok body s sys path hwrite hs
  rw [Spec.install, hread]
  dsimp only
  rw [Spec.restore, hok]
  dsimp only
  rw [hmode]
  exact ⟨hbody, rfl⟩

end Keeps

/-- **A hook of the user's is never clobbered.** Through every run that leaves its text to the
verbs the file holds the text, up to a newline at its end, with nothing but our block behind it;
an uninstall that is not refused leaves the text alone, an install the text, the block and the
mode that git asks for. -/
theorem user_text_kept (hfresh : ∀ name, Fresh (dir.files name)) {cmds : List Command}
    (hcmds : ∀ c ∈ cmds, c.Proper) {name : String} {t : List Char}
    (htext : (dir.files name).content = some t) (hown : bareShebang t = false)
    (hleft : ∀ c ∈ cmds, c.LeavesAlone name) :
    let file := (cmds.foldl Command.run dir).files name
    (file.content = some t ∨ file.content = some (finish t)
      ∨ ∃ body, file.content = some (finish t ++ '\n' :: blockText body SHELL))
    ∧ (∀ mode, (uninstallOne ⟨none, none, mode⟩ file).left.content = some t
      ∨ (uninstallOne ⟨none, none, mode⟩ file).left.content = some (finish t))
    ∧ ∀ path env hook, env.Plain → hook ∈ HOOKS →
        let left := (installOne ⟨none, none, none⟩ path (inner env hook) file).left
        left.content = some (finish t ++ '\n' :: blockText (inner env hook) SHELL)
        ∧ left.executable = true := by
  intro file
  have htracks : Tracks file ((cmds.foldl Command.meant dir.asFound).files name) :=
    (foldl_follows hcmds (follows_asFound hfresh)).files name
  have hkeeps : Keeps t ((cmds.foldl Command.meant dir.asFound).files name) :=
    keeps_foldl hown hleft ⟨Or.inl htext, fun h => absurd rfl h, rfl⟩
  -- from here on only what the run has left counts
  generalize (cmds.foldl Command.meant dir.asFound).files name = s at htracks hkeeps
  have hne : t ≠ [] := by
    rintro rfl
    exact absurd hown (by decide)
  have habove := hkeeps.above_ne
  refine ⟨?_, fun mode => ?_, ?_⟩
  · cases hbody : s.body with
    | none =>
        rw [content_of_plain htracks hbody]
        exact hkeeps.above.imp_right Or.inl
    | some body => exact Or.inr (Or.inr ⟨body, content_of_block htracks hkeeps hne hbody⟩)
  · have hleft : Tracks (uninstallOne ⟨none, none, mode⟩ file).left
        (s.uninstall ⟨none, none, mode⟩).left := (uninstallOne_agrees htracks).left
    rw [content_of_plain hleft (body_of_uninstall rfl rfl habove)]
    exact (keeps_uninstall hown hkeeps).above
  · intro path env hook henv hhook
    have hleft : Tracks (installOne ⟨none, none, none⟩ path (inner env hook) file).left
        (s.install ⟨none, none, none⟩ path (inner env hook)).left :=
      (installOne_agrees htracks (isBody_inner henv hhook)).left
    have hkept : Keeps t (s.install ⟨none, none, none⟩ path (inner env hook)).left :=
      keeps_install hkeeps
    have hran : (s.install ⟨none, none, none⟩ path (inner env hook)).left.body
          = some (inner env hook)
        ∧ (s.install ⟨none, none, none⟩ path (inner env hook)).left.executable = true :=
      install_ok rfl rfl rfl habove
    have hcontent := content_of_block hleft hkept hne hran.1
    refine ⟨hcontent, ?_⟩
    have hexec := hleft.isExecutable hkept.above_ne
    rw [hran.2, Hooks.isExecutable, hcontent] at hexec
    simpa using hexec

end Run

/-! ### A hook of the user's -/

/-- A hook that does something and exits. -/
def lintHook : List Char := "#!/bin/sh\nmake lint\nexit 0\n".toList

/-- A directory with the one hook. -/
def lintDir : HookDir HookFile where
  files name := if name = "post-merge" then ⟨some lintHook, true, false⟩ else ⟨none, false, false⟩
  report := ⟨[], [], []⟩

/-- The file system refuses nothing. -/
def granted : Call := ⟨"/repo", .ok "/repo/.git/hooks", fun _ => ⟨none, none, none⟩⟩

def lintEnv : Environment := ⟨"/usr/bin/filigrio", "/run/filigrio.sock"⟩

def mergeHook : List Hook := HOOKS.filter fun hook => hook.name = "post-merge"

/-- The hook is installed, loses its mode, and is installed again. -/
def lintRun : List Command :=
  [.install granted lintEnv mergeHook, .chmod "post-merge" false,
    .status granted lintEnv mergeHook, .install granted lintEnv mergeHook]

theorem fresh_lintDir (name : String) : Fresh (lintDir.files name) := by
  have hfree : Free SHELL lintHook := by decide +kernel
  unfold lintDir
  dsimp only
  split
  · exact ⟨fun h => absurd h (Option.some_ne_none _), fun t ht => Option.some.inj ht ▸ hfree⟩
  · exact ⟨fun _ => rfl, fun t ht => absurd ht (Option.some_ne_none t).symm⟩

theorem plain_lintEnv : lintEnv.Plain := ⟨by decide +kernel, by decide +kernel⟩

theorem proper_lintRun : ∀ c ∈ lintRun, c.Proper := by
  have hhooks : ∀ hook ∈ mergeHook, hook ∈ HOOKS := fun hook h => (List.mem_filter.mp h).1
  simp only [lintRun, List.forall_mem_cons]
  exact ⟨⟨plain_lintEnv, hhooks⟩, trivial, ⟨plain_lintEnv, hhooks⟩, ⟨plain_lintEnv, hhooks⟩,
    List.forall_mem_nil _⟩

theorem hooks_lifecycle_lint : Tracks ((lintRun.foldl Command.run lintDir).files "post-merge")
    ((lintRun.foldl Command.meant lintDir.asFound).files "post-merge") :=
  (hooks_lifecycle fresh_lintDir proper_lintRun).2 "post-merge"

theorem user_text_kept_lint :
    (uninstallOne ⟨none, none, none⟩
      ((lintRun.foldl Command.run lintDir).files "post-merge")).left.content = some lintHook := by
  have hleft : ∀ c ∈ lintRun, c.LeavesAlone "post-merge" := by
    simp only [lintRun, List.forall_mem_cons]
    exact ⟨trivial, trivial, trivial, trivial, List.forall_mem_nil _⟩
  have hfound : (lintDir.files "post-merge").content = some lintHook := rfl
  have hkept :=
    (user_text_kept fresh_lintDir proper_lintRun hfound (by decide +kernel) hleft).2.1 none
  have hfinish : finish lintHook = lintHook := by decide +kernel
  rw [hfinish, or_self] at hkept
  exact hkept

end Filigrio.Install.Hooks
