import Filigrio.Hook.Deliver
import Filigrio.Hook.NameStatus
import Filigrio.Lib.Lines
import Filigrio.Lib.SplitOnce

/-!
# Filigrio.Hook.Endpoints

One run of `filigrio hooks run`: which two trees the event compares, their difference as a
changeset, and the ladder it goes down. Git is what its commands answer (`Git`); a run has no
other failure than an outcome.
-/

namespace Filigrio.Hook

/-! ### The events -/

/-- The four commit-boundary transitions. -/
inductive HookEvent
  | postCommit
  | postCheckout
  | postMerge
  | postRewrite
  deriving DecidableEq, Repr

namespace HookEvent

/-- Git's own hook name. -/
def parse (name : String) : Option HookEvent :=
  if name = "post-commit" then some .postCommit
  else if name = "post-checkout" then some .postCheckout
  else if name = "post-merge" then some .postMerge
  else if name = "post-rewrite" then some .postRewrite
  else none

def asStr : HookEvent → String
  | postCommit => "post-commit"
  | postCheckout => "post-checkout"
  | postMerge => "post-merge"
  | postRewrite => "post-rewrite"

/-- Whether git feeds this hook on stdin. -/
def readsStdin : HookEvent → Bool
  | postRewrite => true
  | _ => false

end HookEvent

/-! ### Git -/

/-- A repository, by the answers of the git commands run in it: `rev-parse --verify` of a
commit, `hash-object` of the empty tree, `diff --name-status -z -M -C` of a tree-ish with
another one or with the worktree. -/
structure Git where
  root : String
  resolve : String → Option String
  emptyTree : Except String String
  nameStatus : String → Option String → Except String (List UInt8)

def Git.diff (git : Git) (old : String) (new : Option String) : Except String ChangeSet := do
  let raw ← git.nameStatus old new
  pure (parseNameStatus raw)

/-- The all-zero object id. -/
def isNullOid (s : String) : Bool := s != "" && s.toList.all (· = '0')

/-- `post-rewrite`'s stdin: one `<old-sha> <new-sha>` pair per line. -/
def rewritePairs (stdin : String) : List (String × String) :=
  (Lines.lines stdin.toList).filterMap fun line =>
    match Text.splitWhitespace line with
    | old :: new :: _ =>
        if isNullOid (String.ofList old) then none
        else some (String.ofList old, String.ofList new)
    | _ => none

/-! ### The endpoints of a transition -/

/-- The two endpoints of a transition, and why they were chosen. No `new` is the worktree. -/
structure Endpoints where
  old : String
  new : Option String
  why : String
  deriving DecidableEq, Repr

/-- Either a diff to run, or a deliberate no-op with a reason. -/
inductive Resolved
  | diff (ep : Endpoints)
  | noOp (why : String)
  deriving DecidableEq, Repr

/-- Resolve the event's two tree-ish endpoints from git's own hook arguments. -/
def Endpoints.forEvent (git : Git) (event : HookEvent) (args : List String) (stdin : String) :
    Except String Resolved :=
  match event with
  | .postCommit => do
      let old ← match git.resolve "HEAD^1" with
        | some parent => pure parent
        | none => git.emptyTree
      pure (.diff ⟨old, some "HEAD", "HEAD^1..HEAD"⟩)
  | .postCheckout =>
      match args with
      | prev :: new :: branch :: _ =>
          if branch ≠ "1" then
            pure (.noOp "file-level checkout (branch flag 0) — not a tree transition")
          else if prev = new then pure (.noOp "checkout did not move HEAD")
          else do
            let old ← if prev = "" ∨ isNullOid prev then git.emptyTree else pure prev
            pure (.diff ⟨old, some new, "checkout endpoints"⟩)
      -- fewer than git's three arguments: the gate fails closed
      | _ => pure (.noOp "post-checkout without git's <prev> <new> <branch-flag> arguments")
  | .postMerge =>
      if args.head? = some "1" then
        pure (.diff ⟨"HEAD", none, "squash merge: HEAD..worktree"⟩)
      else do
        let (old, why) ← match git.resolve "ORIG_HEAD" with
          | some orig => pure (orig, "ORIG_HEAD..HEAD")
          | none =>
              match git.resolve "HEAD^1" with
              | some parent => pure (parent, "HEAD^1..HEAD (no ORIG_HEAD)")
              | none => do
                  let empty ← git.emptyTree
                  pure (empty, "empty tree..HEAD (no ORIG_HEAD, no parent)")
        pure (.diff ⟨old, some "HEAD", why⟩)
  | .postRewrite =>
      match (rewritePairs stdin).getLast? with
      | none => pure (.noOp "post-rewrite carried no rewrite pairs")
      | some last => pure (.diff ⟨last.1, some "HEAD", "pre-rewrite tip..HEAD"⟩)

/-- The changeset for one hook invocation, and the reason for its endpoints. -/
def changesetFor (git : Git) (event : HookEvent) (args : List String) (stdin : String) :
    Except String (ChangeSet × String) := do
  match ← Endpoints.forEvent git event args stdin with
  | .noOp why => pure (⟨[], [], []⟩, why)
  | .diff ep =>
      let cs ← git.diff ep.old ep.new
      pure ((stripOwnOutput cs).1, ep.why)

/-- A listing is read as its records. -/
theorem reads_listing (records : List Record) :
    Reads records (parseNameStatus (listing (records.flatMap Record.fields))) := by
  have hfields : ∀ f ∈ records.flatMap Record.fields, IsField f := by
    intro f hf
    obtain ⟨r, -, hr⟩ := List.mem_flatMap.mp hf
    exact isField_fields r f hr
  have hread : fields (listing (records.flatMap Record.fields))
      = (records.flatMap Record.fields).take (records.flatMap Record.fields).length := by
    rw [fields_listing hfields, List.take_length]
  rw [parseNameStatus_of_fields hread, complete_of_le le_rfl]
  exact reads_normalize records

/-! ### The run -/

/-- Whether `FILIGRIO_SKIP_HOOK` is set, to anything but a spelling of no. -/
def skipping : Option String → Bool
  | none => false
  | some v =>
      let word := (Lines.trim v.toList).map Char.toLower
      !(word = "".toList || word = "0".toList || word = "false".toList || word = "no".toList)

/-- What a hook run did. Every one is a success. -/
inductive Outcome
  | skipped
  | unknownEvent (name : String)
  | notARepository (cwd : String)
  | gitFailed (err : String)
  | nothing (why : String) (replay : Replay)
  | submitted (project : String) (event : HookEvent) (why : String)
      (added modified removed : ℕ) (delivery : Delivery) (replay : Replay)
  deriving DecidableEq, Repr

/-- What a run says, and the changeset that went down the ladder. -/
structure Ran where
  outcome : Outcome
  submission : Option ChangeSet
  deriving DecidableEq, Repr

/-- Run one hook invocation. `git` is what was discovered at `cwd`, `replay` what the drain of
the spool did, `ladder` what becomes of a changeset for a project and an event. -/
def run (eventName : String) (args : List String) (stdin cwd : String) (skip : Option String)
    (git : Option Git) (replay : Replay) (ladder : String → String → ChangeSet → Delivery) : Ran :=
  if skipping skip then ⟨.skipped, none⟩
  else match HookEvent.parse eventName with
    | none => ⟨.unknownEvent eventName, none⟩
    | some event =>
        match git with
        | none => ⟨.notARepository cwd, none⟩
        | some git =>
            match changesetFor git event args stdin with
            | .error err => ⟨.gitFailed err, none⟩
            | .ok (changeset, why) =>
                if changeset.isEmpty then ⟨.nothing why replay, none⟩
                else
                  ⟨.submitted git.root event why changeset.added.length changeset.modified.length
                    changeset.removed.length (ladder git.root event.asStr changeset) replay,
                    some changeset⟩

end Filigrio.Hook
