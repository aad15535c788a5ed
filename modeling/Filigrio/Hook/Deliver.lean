import Filigrio.Lib.Lts
import Filigrio.Daemon.Queue
import Filigrio.Hook.Spool

/-!
# Filigrio.Hook.Deliver

The delivery ladder: the daemon's socket, else the spool, else drop; and the replay of the
spool. `deliver` spools on every failure of the socket, and `replay` takes every failure for
an absent daemon.
-/

namespace Filigrio.Hook

open Filigrio.Daemon (Priority)

/-! ### The wire -/

/-- Largest frame, with its four bytes of length. -/
def MAX_FRAME : ℕ := 10 * 1024 * 1024

/-- The `Submit` command. -/
structure Submit where
  project : String
  changeset : ChangeSet
  priority : Priority
  deriving DecidableEq, Repr

/-- Hooks ride the high lane. -/
def submit (project : String) (changeset : ChangeSet) : Submit := ⟨project, changeset, .git⟩

/-- One character inside a JSON string. -/
def escape (c : Char) : List Char :=
  match c.toNat with
  | 34 => "\\\"".toList
  | 92 => "\\\\".toList
  | 8 => "\\b".toList
  | 9 => "\\t".toList
  | 10 => "\\n".toList
  | 12 => "\\f".toList
  | 13 => "\\r".toList
  | n => if n < 32 then "\\u00".toList ++ [(n / 16).digitChar, (n % 16).digitChar] else [c]

def jsonString (s : String) : List Char := "\"".toList ++ s.toList.flatMap escape ++ "\"".toList

def jsonList (paths : List String) : List Char :=
  "[".toList ++ [','].intercalate (paths.map jsonString) ++ "]".toList

def Priority.json : Priority → String
  | .manual => "\"Manual\""
  | .git => "\"Git\""
  | .fs => "\"Fs\""

/-- `serde_json::to_vec` of the request, as characters. -/
def Submit.json (r : Submit) : List Char :=
  "\x7b\"type\":\"Command\",\"kind\":\"Submit\",\"project\":".toList ++ jsonString r.project
    ++ ",\"changeset\":\x7b\"added\":".toList ++ jsonList r.changeset.added
    ++ ",\"modified\":".toList ++ jsonList r.changeset.modified
    ++ ",\"removed\":".toList ++ jsonList r.changeset.removed
    ++ "\x7d,\"priority\":".toList ++ (Priority.json r.priority).toList ++ "\x7d".toList

/-- The bytes of a text in UTF-8. -/
def utf8Len (s : List Char) : ℕ := (s.map Char.utf8Size).sum

/-- How long `frame` gets: four bytes of length, then the body. -/
def frameLen (r : Submit) : ℕ := 4 + utf8Len r.json

/-- What the daemon's socket does with one connection. -/
inductive Attempt
  | accepted
  | connect (reason : String)
  | setTimeout (reason : String)
  | write (reason : String)
  | flush (reason : String)
  deriving DecidableEq, Repr

/-- Write one framed request and hang up. -/
def fireAndForget (attempt : Attempt) (r : Submit) : Except String Unit :=
  if MAX_FRAME < frameLen r then
    .error ("changeset frames to " ++ (frameLen r).repr ++ " bytes, over the "
      ++ MAX_FRAME.repr ++ "-byte wire limit")
  else match attempt with
    | .accepted => .ok ()
    | .connect reason => .error ("connect: " ++ reason)
    | .setTimeout reason => .error ("set timeout: " ++ reason)
    | .write reason => .error ("write: " ++ reason)
    | .flush reason => .error ("flush: " ++ reason)

/-! ### The ladder -/

/-- Which rung of the ladder the changeset came to rest on. -/
inductive Delivery
  | daemon
  | spooled (path : String)
  | dropped (why : String)
  deriving DecidableEq, Repr

def rootCause (chain : List String) : String := chain.getLastD ""

/-- Run the ladder for one changeset. -/
def deliver (attempt : Attempt) (env : PushEnv) (spool : SpoolDir) (project event : String)
    (changeset : ChangeSet) : Delivery × SpoolDir :=
  match fireAndForget attempt (submit project changeset) with
  | .ok _ => (.daemon, spool)
  | .error socketErr =>
      match spool.push env (SpooledJob.new project event env.created changeset) with
      | (.ok path, spool') => (.spooled path, spool')
      | (.error chain, spool') =>
          (.dropped ("socket " ++ socketErr ++ "; spool " ++ rootCause chain), spool')

/-- What one replay pass did. -/
structure Replay where
  delivered : ℕ
  discarded : ℕ
  remaining : ℕ
  deriving DecidableEq, Repr

/-- A pass under way: the directory, the counters, and what went over the socket, with the
file it was read from. -/
structure Pass where
  spool : SpoolDir
  out : Replay
  sent : List (String × Submit)
  deriving DecidableEq

def SpooledJob.submit (job : SpooledJob) : Submit := Hook.submit job.project job.changeset

/-- The loop over the listed jobs. It stops at the first socket failure. -/
def replayJobs (attempts : String → Attempt) : List String → Pass → Pass
  | [], pass => pass
  | path :: rest, pass =>
      match pass.spool.read path with
      | .error _ =>
          replayJobs attempts rest { pass with
            spool := pass.spool.remove path
            out := { pass.out with discarded := pass.out.discarded + 1 } }
      | .ok job =>
          match fireAndForget (attempts path) job.submit with
          | .ok _ =>
              replayJobs attempts rest {
                spool := pass.spool.remove path
                out := { pass.out with delivered := pass.out.delivered + 1 }
                sent := pass.sent ++ [(path, job.submit)] }
          | .error _ =>
              { pass with out := { pass.out with remaining := (path :: rest).length } }

/-- Replay the spool, oldest first. -/
def replay (attempts : String → Attempt) (spool : SpoolDir) : Pass :=
  replayJobs attempts spool.sweep.jobs ⟨spool.sweep, ⟨0, 0, 0⟩, []⟩

/-- The job fits the wire limit. -/
def SpooledJob.Fits (job : SpooledJob) : Prop := frameLen job.submit ≤ MAX_FRAME

instance (job : SpooledJob) : Decidable job.Fits := Nat.decLe _ _

theorem fireAndForget_accepted (job : SpooledJob) :
    (fireAndForget .accepted job.submit = .ok () ∧ job.Fits) ∨
      (∃ reason, fireAndForget .accepted job.submit = .error reason) ∧ ¬ job.Fits := by
  unfold fireAndForget SpooledJob.Fits
  by_cases h : MAX_FRAME < frameLen job.submit
  · rw [if_pos h]
    exact Or.inr ⟨⟨_, rfl⟩, Nat.not_le.mpr h⟩
  · rw [if_neg h]
    exact Or.inl ⟨rfl, Nat.not_lt.mp h⟩

theorem fireAndForget_error (attempt : Attempt) {job : SpooledJob} (h : ¬ job.Fits) :
    ∃ reason, fireAndForget attempt job.submit = .error reason := by
  unfold fireAndForget
  rw [if_pos (Nat.not_le.mp h)]
  exact ⟨_, rfl⟩

end Filigrio.Hook
