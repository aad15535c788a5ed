import Filigrio.Lib.TreeMap
import Filigrio.Lib.Text
import Filigrio.Lib.Digits
import Filigrio.Core.State

/-!
# Filigrio.Hook.Spool

The spool of undelivered changesets: one directory, one file a job. A job is written to
`<stem>.tmp` and renamed to `<stem>.json`, so that a job file is whole or absent; the stem
is the time and the process id, and jobs are taken in the order of their names.
-/

namespace Filigrio.Hook

/-- How many undelivered jobs the spool keeps before dropping the oldest. -/
def MAX_JOBS : ℕ := 128

/-- The on-disk format version. -/
def FORMAT : ℕ := 1

/-- One undelivered changeset. -/
structure SpooledJob where
  format : ℕ
  project : String
  event : String
  created : ℕ
  changeset : ChangeSet
  deriving DecidableEq, Repr

def SpooledJob.new (project event : String) (created : ℕ) (changeset : ChangeSet) : SpooledJob :=
  ⟨FORMAT, project, event, created, changeset⟩

theorem SpooledJob.format_new (project event : String) (created : ℕ) (changeset : ChangeSet) :
    (SpooledJob.new project event created changeset).format = FORMAT := rfl

/-- What a file of the directory holds: the JSON of a job, or bytes that are not, such as a
part of it. -/
inductive Contents
  | job (job : SpooledJob)
  | unparsable
  deriving DecidableEq, Repr

/-- A directory of spooled jobs, by file name. -/
structure SpoolDir where
  dir : String
  files : BTreeMap String Contents
  deriving DecidableEq

/-- `Path::extension` is `ext`: the name ends so, and is not that alone. -/
def hasExtension (name ext : String) : Bool :=
  Text.endsWith name ("." ++ ext) && decide (name ≠ "." ++ ext)

/-- `{stamp:039}-{pid}`: the decimal digits of the time, padded with zeros to 39. -/
def stem (stamp pid : ℕ) : String :=
  String.ofList (Digits.padded 39 stamp ++ '-' :: Nat.toDigits 10 pid)

namespace SpoolDir

def path (spool : SpoolDir) (name : String) : String := spool.dir ++ "/" ++ name

/-- Spooled jobs in delivery order: the `.json` files, sorted by name. -/
def jobs (spool : SpoolDir) : List String :=
  spool.files.keys.filter fun name => hasExtension name "json"

/-- Read one job. A file that this build cannot parse, or a newer `format`, is an error. -/
def read (spool : SpoolDir) (name : String) : Except String SpooledJob :=
  match spool.files[name]? with
  | none => .error ("read spooled job " ++ spool.path name)
  | some .unparsable => .error ("parse spooled job " ++ spool.path name)
  | some (.job job) =>
      if job.format = FORMAT then .ok job
      else .error ("spooled job " ++ spool.path name ++ " has format " ++ job.format.repr
        ++ " (this build reads " ++ FORMAT.repr ++ ")")

def remove (spool : SpoolDir) (name : String) : SpoolDir :=
  { spool with files := spool.files.erase name }

def write (spool : SpoolDir) (name : String) (contents : Contents) : SpoolDir :=
  { spool with files := spool.files.insert name contents }

def removeAll (spool : SpoolDir) (names : List String) : SpoolDir := names.foldl remove spool

/-- `rename`: it fails when there is no such file, and replaces a file of the new name. -/
def rename (spool : SpoolDir) (source target : String) : Option SpoolDir :=
  spool.files[source]?.map fun contents => (spool.remove source).write target contents

/-- Remove `.tmp` leftovers from a crash between write and rename. -/
def sweep (spool : SpoolDir) : SpoolDir :=
  spool.removeAll (spool.files.keys.filter fun name => hasExtension name "tmp")

/-- The oldest jobs past `MAX_JOBS`. -/
def excess (spool : SpoolDir) : List String := spool.jobs.take (spool.jobs.length - MAX_JOBS)

/-- Drop the oldest jobs past `MAX_JOBS`. -/
def enforceCap (spool : SpoolDir) : SpoolDir := spool.removeAll spool.excess

end SpoolDir

/-- What can fail in `push`, with the system's reason. A failed write may leave a part of
the file. -/
inductive Fault
  | createDir (reason : String)
  | write (reason : String) (left : Bool)
  | rename (reason : String)
  deriving DecidableEq, Repr

/-- What a `push` finds: the clock in seconds and in nanoseconds, its process and what fails,
if anything. -/
structure PushEnv where
  created : ℕ
  stamp : ℕ
  pid : ℕ
  fault : Option Fault
  deriving DecidableEq, Repr

def PushEnv.tmp (env : PushEnv) : String := stem env.stamp env.pid ++ ".tmp"

def PushEnv.final (env : PushEnv) : String := stem env.stamp env.pid ++ ".json"

/-- Append a job. The result is the file it landed in, or the chain of the errors. -/
def SpoolDir.push (spool : SpoolDir) (env : PushEnv) (job : SpooledJob) :
    Except (List String) String × SpoolDir :=
  match env.fault with
  | some (.createDir reason) => (.error ["create spool dir " ++ spool.dir, reason], spool)
  | some (.write reason left) =>
      (.error ["write " ++ spool.path env.tmp, reason],
        if left then spool.write env.tmp .unparsable else spool)
  | some (.rename reason) =>
      (.error ["rename " ++ spool.path env.tmp ++ " → " ++ spool.path env.final, reason],
        spool.write env.tmp (.job job))
  | none =>
      match (spool.write env.tmp (.job job)).rename env.tmp env.final with
      | none => (.error [], spool)
      | some spool' => (.ok (spool.path env.final), spool'.enforceCap)

/-! ### What a file is after each operation -/

namespace SpoolDir

variable {spool spool' : SpoolDir} {name other : String} {contents : Contents} {job : SpooledJob}
  {names : List String}

theorem files_remove (spool : SpoolDir) (name other : String) :
    (spool.remove name).files[other]? = if name = other then none else spool.files[other]? :=
  BTreeMap.get_erase _ _ _

theorem files_write (spool : SpoolDir) (name : String) (contents : Contents) (other : String) :
    (spool.write name contents).files[other]?
      = if name = other then some contents else spool.files[other]? :=
  BTreeMap.get_insert _ _ _ _

theorem files_removeAll (spool : SpoolDir) (names : List String) (name : String) :
    (spool.removeAll names).files[name]? = if name ∈ names then none else spool.files[name]? := by
  induction names generalizing spool with
  | nil => simp [removeAll]
  | cons first names ih =>
      show ((spool.remove first).removeAll names).files[name]? = _
      rw [ih, files_remove]
      by_cases hmem : name ∈ names
      · simp [hmem]
      · by_cases hfirst : first = name
        · simp [hfirst]
        · simp [hmem, hfirst, Ne.symm hfirst]

theorem dir_removeAll (spool : SpoolDir) (names : List String) :
    (spool.removeAll names).dir = spool.dir := by
  induction names generalizing spool with
  | nil => rfl
  | cons first names ih => exact ih (spool.remove first)

theorem rename_eq_some (h : spool.rename name other = some spool') :
    ∃ contents, spool.files[name]? = some contents ∧
      spool' = (spool.remove name).write other contents := by
  obtain ⟨contents, hc, rfl⟩ := Option.map_eq_some_iff.mp h
  exact ⟨contents, hc, rfl⟩

theorem rename_write (spool : SpoolDir) (name other : String) (contents : Contents) :
    (spool.write name contents).rename name other
      = some (((spool.write name contents).remove name).write other contents) := by
  unfold rename
  rw [files_write, if_pos rfl]
  rfl

/-! ### The listing -/

theorem mem_jobs : name ∈ spool.jobs ↔ name ∈ spool.files ∧ hasExtension name "json" = true := by
  simp [jobs, List.mem_filter]

theorem mem_jobs_iff : name ∈ spool.jobs ↔
    (∃ contents, spool.files[name]? = some contents) ∧ hasExtension name "json" = true := by
  rw [mem_jobs, ← Std.ExtTreeMap.isSome_getElem?_iff_mem, Option.isSome_iff_exists]

/-- The jobs are listed in the order of their names, each once. -/
theorem jobs_sorted (spool : SpoolDir) : spool.jobs.Pairwise (· < ·) := by
  have h := Std.ExtTreeMap.ordered_keys (t := spool.files)
  exact (h.imp fun hlt => compare_lt_iff_lt.mp hlt).filter _

theorem jobs_nodup (spool : SpoolDir) : spool.jobs.Nodup :=
  (jobs_sorted spool).imp fun h => ne_of_lt h

theorem read_eq_ok : spool.read name = .ok job ↔
    spool.files[name]? = some (.job job) ∧ job.format = FORMAT := by
  unfold read
  split
  · rename_i hnone
    simp [hnone]
  · rename_i hun
    simp [hun]
  · rename_i found hfound
    by_cases hformat : found.format = FORMAT
    · simp only [hformat, if_true, Except.ok.injEq, hfound, Option.some.injEq, Contents.job.injEq]
      exact ⟨fun h => ⟨h, h ▸ hformat⟩, And.left⟩
    · simp only [hformat, if_false, hfound, Option.some.injEq, Contents.job.injEq, reduceCtorEq,
        false_iff, not_and]
      exact fun h => h ▸ hformat

theorem read_congr (h : spool.files[name]? = spool'.files[name]?) :
    spool.read name = .ok job ↔ spool'.read name = .ok job := by
  rw [read_eq_ok, read_eq_ok, h]

end SpoolDir

/-! ### Names -/

/-- The clock as nanoseconds fits the padding, for a `u128` does. -/
def InRange (stamp : ℕ) : Prop := stamp < 10 ^ 39

theorem toList_name (stamp pid : ℕ) (ext : String) : (stem stamp pid ++ ext).toList
    = Digits.padded 39 stamp ++ ('-' :: Nat.toDigits 10 pid ++ ext.toList) := by
  rw [stem, String.toList_append, String.toList_ofList, List.append_assoc, List.cons_append]

/-- Sorting by name is sorting by spool order, where the clock moved on. -/
theorem name_lt_of_stamp_lt {stamp stamp' : ℕ} (pid pid' : ℕ) (ext : String)
    (hrange : InRange stamp) (hrange' : InRange stamp') (hlt : stamp < stamp') :
    stem stamp pid ++ ext < stem stamp' pid' ++ ext := by
  rw [String.lt_iff_toList_lt, toList_name, toList_name]
  exact Digits.padded_append_lt (by decide) hrange hrange' hlt

/-- Processes with different ids choose different names. -/
theorem pid_eq_of_name_eq {stamp stamp' pid pid' : ℕ} {ext : String} (hrange : InRange stamp)
    (hrange' : InRange stamp') (h : stem stamp pid ++ ext = stem stamp' pid' ++ ext) :
    pid = pid' := by
  have hlist := congrArg String.toList h
  rw [toList_name, toList_name] at hlist
  have hrest := (Digits.padded_append_inj (by decide) hrange hrange' hlist).2
  have hdigits := (List.cons.inj (List.append_cancel_right hrest)).2
  have hvalue := congrArg (Nat.ofDigitChars 10 · 0) hdigits
  simpa using hvalue

theorem endsWith_append (s ext : String) : Text.endsWith (s ++ ext) ext = true := by
  simp [Text.endsWith, String.toList_append]

/-- A stem is not empty. -/
theorem append_ne_of_stem (stamp pid : ℕ) (ext : String) : stem stamp pid ++ ext ≠ ext := by
  intro h
  have hlen := congrArg (fun s : String => s.toList.length) h
  rw [toList_name] at hlen
  simp only [List.length_append, List.length_cons] at hlen
  omega

theorem hasExtension_json (stamp pid : ℕ) :
    hasExtension (stem stamp pid ++ ".json") "json" = true := by
  have hne := append_ne_of_stem stamp pid ".json"
  unfold hasExtension
  rw [show "." ++ "json" = ".json" from rfl, endsWith_append]
  simp [hne]

theorem hasExtension_tmp (stamp pid : ℕ) :
    hasExtension (stem stamp pid ++ ".tmp") "tmp" = true := by
  have hne := append_ne_of_stem stamp pid ".tmp"
  unfold hasExtension
  rw [show "." ++ "tmp" = ".tmp" from rfl, endsWith_append]
  simp [hne]

/-- No file is both. -/
theorem not_json_of_tmp {name : String} (h : hasExtension name "tmp" = true) :
    hasExtension name "json" = false := by
  rw [← Bool.not_eq_true]
  intro hjson
  have htmp := (Bool.and_eq_true_iff.mp h).1
  have hends := (Bool.and_eq_true_iff.mp hjson).1
  unfold Text.endsWith at htmp hends
  have hp := List.isPrefixOf_iff_prefix.mp htmp
  have hn := List.isPrefixOf_iff_prefix.mp hends
  cases hname : name.toList.reverse with
  | nil =>
      rw [hname] at hp
      exact absurd hp (by decide)
  | cons last rest =>
      rw [hname] at hp hn
      have hlastp : 'p' = last := (List.cons_prefix_cons.mp hp).1
      have hlastn : 'n' = last := (List.cons_prefix_cons.mp hn).1
      exact absurd (hlastp.trans hlastn.symm) (by decide)

theorem PushEnv.final_json (env : PushEnv) : hasExtension env.final "json" = true :=
  hasExtension_json env.stamp env.pid

theorem PushEnv.tmp_ne {env : PushEnv} {name : String} (hjson : hasExtension name "json" = true) :
    env.tmp ≠ name := by
  intro h
  have hfalse := not_json_of_tmp (hasExtension_tmp env.stamp env.pid)
  rw [show stem env.stamp env.pid ++ ".tmp" = name from h, hjson] at hfalse
  cases hfalse

/-! ### The sweep and the cap -/

namespace SpoolDir

variable {spool : SpoolDir} {name : String}

theorem files_sweep (hjson : hasExtension name "json" = true) :
    spool.sweep.files[name]? = spool.files[name]? := by
  unfold sweep
  rw [files_removeAll, if_neg]
  intro hmem
  have htmp := (List.mem_filter.mp hmem).2
  rw [not_json_of_tmp htmp] at hjson
  cases hjson

theorem mem_jobs_sweep : name ∈ spool.sweep.jobs ↔ name ∈ spool.jobs := by
  rw [mem_jobs_iff, mem_jobs_iff]
  constructor <;>
  · intro ⟨hfile, hjson⟩
    refine ⟨?_, hjson⟩
    simpa only [files_sweep hjson] using hfile

theorem jobs_sweep (spool : SpoolDir) : spool.sweep.jobs = spool.jobs :=
  Canon.eq_of_mem_iff (jobs_sorted _) (jobs_sorted _) fun _ => mem_jobs_sweep

theorem excess_eq_nil (h : spool.jobs.length ≤ MAX_JOBS) : spool.excess = [] := by
  rw [excess, Nat.sub_eq_zero_of_le h, List.take_zero]

/-- The cap drops a job for at least `MAX_JOBS` with larger names. -/
theorem le_length_larger (h : name ∈ spool.excess) :
    MAX_JOBS ≤ (spool.jobs.filter fun other => name < other).length := by
  have hsorted := spool.jobs_sorted
  have hpos : 0 < spool.jobs.length - MAX_JOBS := by
    by_contra hzero
    rw [excess, Nat.eq_zero_of_not_pos hzero] at h
    cases h
  unfold excess at h
  generalize spool.jobs = jobs at h hsorted hpos ⊢
  rw [← List.take_append_drop (jobs.length - MAX_JOBS) jobs] at hsorted
  have hlarger := (List.pairwise_append.mp hsorted).2.2 name h
  have hkept : (jobs.drop (jobs.length - MAX_JOBS)).filter (fun other => name < other)
      = jobs.drop (jobs.length - MAX_JOBS) :=
    List.filter_eq_self.mpr fun other hother => decide_eq_true (hlarger other hother)
  have hlen : (jobs.drop (jobs.length - MAX_JOBS)).length = MAX_JOBS := by
    rw [List.length_drop]
    omega
  calc MAX_JOBS = ((jobs.drop (jobs.length - MAX_JOBS)).filter fun other => name < other).length := by
        rw [hkept, hlen]
    _ ≤ (jobs.filter fun other => name < other).length :=
        ((List.drop_sublist _ jobs).filter _).length_le

end SpoolDir

end Filigrio.Hook
