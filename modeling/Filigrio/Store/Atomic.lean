import Mathlib.Logic.Relation
import Mathlib.Tactic.Common
import Filigrio.Lib.Lts

/-!
# Filigrio.Store.Atomic

`atomic_write`: write the bytes to a temp file beside the target, rename it over the
target, and remove it where the rename fails. The temp's name is tagged with the process
id alone, so all calls of one process on one path share it.

Each system call is a step of one call. A file that lost its name, or got another one, is
still written through the descriptor of the call that opened it.
-/

namespace Filigrio.Atomic

abbrev Bytes := List UInt8

/-- The entries of the target and of the temp, and the files they name. -/
structure Fs where
  target : Option ℕ
  tmp : Option ℕ
  files : List Bytes
  deriving DecidableEq, Repr

inductive Failure
  /-- The system refused the call. -/
  | refused
  /-- There was no temp to rename. -/
  | missing
  deriving DecidableEq, Repr

/-- Where a call stands: the system call it makes next. -/
inductive Phase
  /-- `create_dir_all`. -/
  | preparing
  /-- `File::create` of the temp. -/
  | creating
  /-- `write_all` on the open temp, and how far it is. -/
  | writing (file off : ℕ)
  /-- `rename`. -/
  | committing
  /-- `remove_file`. -/
  | removing (cause : Failure)
  | finished
  | failed (cause : Failure)
  deriving DecidableEq, Repr

/-- Between the creation of the temp and its rename. -/
def Phase.busy : Phase → Bool
  | writing _ _ | committing => true
  | _ => false

structure Call where
  bytes : Bytes
  phase : Phase
  deriving DecidableEq, Repr

/-- The file system, the calls made so far, and what the target held before each step. -/
structure State where
  fs : Fs
  calls : List Call
  past : List (Option Bytes)
  deriving DecidableEq, Repr

/-- The system calls; a refused one is the one the call would make next. -/
inductive Sys
  | prepare
  | create
  | write (amount : ℕ)
  | close
  | rename
  | remove
  | refuse
  deriving DecidableEq, Repr

inductive Act
  /-- A thread calls `atomic_write`. -/
  | call (bytes : Bytes)
  | sys (i : ℕ) (op : Sys)
  deriving DecidableEq, Repr

/-! ### System calls -/

namespace Fs

/-- What a reader of the target gets. -/
def content (fs : Fs) : Option Bytes :=
  fs.target.bind fun f => fs.files[f]?

/-- Create or truncate the temp: the file it names from now on, and the file system. -/
def create (fs : Fs) : ℕ × Fs :=
  match fs.tmp with
  | some f => (f, { fs with files := fs.files.set f [] })
  | none => (fs.files.length, { fs with tmp := some fs.files.length, files := fs.files ++ [[]] })

/-- Write at an offset; a gap in front of it reads as zeros. -/
def writeAt (data : Bytes) (off : ℕ) (chunk : Bytes) : Bytes :=
  data.take off ++ List.replicate (off - data.length) 0 ++ chunk ++ data.drop (off + chunk.length)

def write (fs : Fs) (file off : ℕ) (chunk : Bytes) : Fs :=
  { fs with files := fs.files.modify file fun data => writeAt data off chunk }

/-- Rename the temp over the target. -/
def rename (fs : Fs) : Option Fs :=
  fs.tmp.map fun f => { fs with target := some f, tmp := none }

def remove (fs : Fs) : Fs :=
  { fs with tmp := none }

end Fs

/-! ### The calls -/

/-- Where a call stands when its next system call is refused. -/
def Phase.onRefused : Phase → Option Phase
  | preparing | creating | writing _ _ => some (failed .refused)
  | committing => some (removing .refused)
  | removing cause => some (failed cause)
  | finished | failed _ => none

/-- One system call of a call: the file system, and where the call stands then. -/
def Call.exec (c : Call) (fs : Fs) : Sys → Option (Fs × Phase)
  | .prepare =>
      match c.phase with
      | .preparing => some (fs, .creating)
      | _ => none
  | .create =>
      match c.phase with
      | .creating => some (fs.create.2, .writing fs.create.1 0)
      | _ => none
  | .write amount =>
      match c.phase with
      | .writing file off =>
          if 0 < amount ∧ off + amount ≤ c.bytes.length then
            some (fs.write file off ((c.bytes.drop off).take amount), .writing file (off + amount))
          else none
      | _ => none
  | .close =>
      match c.phase with
      | .writing _ off => if off = c.bytes.length then some (fs, .committing) else none
      | _ => none
  | .rename =>
      match c.phase with
      | .committing =>
          match fs.rename with
          | some fs' => some (fs', .finished)
          | none => some (fs, .removing .missing)
      | _ => none
  | .remove =>
      match c.phase with
      | .removing cause => some (fs.remove, .failed cause)
      | _ => none
  | .refuse => c.phase.onRefused.map fun phase => (fs, phase)

namespace State

def content (s : State) : Option Bytes :=
  s.fs.content

/-- What the target held at some moment. -/
def seen (s : State) : List (Option Bytes) :=
  s.past ++ [s.content]

/-- Call `i` goes on at `phase`, with the file system that it leaves. -/
def goto (s : State) (i : ℕ) (c : Call) (fs : Fs) (phase : Phase) : State :=
  { s with fs, calls := s.calls.set i { c with phase } }

def exec (s : State) : Act → Option State
  | .call bytes => some { s with calls := s.calls ++ [⟨bytes, .preparing⟩] }
  | .sys i op => do
      let c ← s.calls[i]?
      let (fs, phase) ← c.exec s.fs op
      return s.goto i c fs phase

/-- A step, with what the target held before it. -/
def step (s : State) (a : Act) : Option State :=
  (s.exec a).map fun t => { t with past := s.past ++ [s.content] }

/-- The state after a system call of call `i`. -/
def after (s : State) (i : ℕ) (c : Call) (fs : Fs) (phase : Phase) : State :=
  { s.goto i c fs phase with past := s.past ++ [s.content] }

@[simp] theorem fs_after (s : State) (i : ℕ) (c : Call) (fs : Fs) (phase : Phase) :
    (s.after i c fs phase).fs = fs := rfl

@[simp] theorem calls_after (s : State) (i : ℕ) (c : Call) (fs : Fs) (phase : Phase) :
    (s.after i c fs phase).calls = s.calls.set i { c with phase } := rfl

end State

/-- Both names have a file of their own, where they have one. -/
structure Fs.WellFormed (fs : Fs) : Prop where
  target_lt : ∀ f, fs.target = some f → f < fs.files.length
  tmp_lt : ∀ f, fs.tmp = some f → f < fs.files.length
  differ : ∀ f, fs.tmp = some f → fs.target ≠ some f

/-- Any number of calls on one path whose target first held `old`; a temp of a crashed
process may be there. -/
def system (old : Option Bytes) : Lts State Act where
  init s := s.fs.WellFormed ∧ s.content = old ∧ s.calls = [] ∧ s.past = []
  step := State.step

/-- The target is never torn, a call that returned `Ok` had its bytes there, and a call
fails only where the system refused it something. -/
structure Safe (old : Option Bytes) (s : State) : Prop where
  whole : s.content = old ∨ ∃ c ∈ s.calls, s.content = some c.bytes
  written : ∀ c ∈ s.calls, c.phase = .finished → some c.bytes ∈ s.seen
  unfailed : ∀ c ∈ s.calls, c.phase ≠ .failed .missing

/-- The temp is created, and removed after a failed rename, only when no other call is
between its own creation of the temp and its rename. -/
def apart (s : State) : Act → Prop
  | .sys _ .create | .sys _ .remove => ∀ c ∈ s.calls, c.phase.busy = false
  | _ => True

instance (s : State) (a : Act) : Decidable (apart s a) := by
  unfold apart
  split <;> infer_instance

/-! ### What a step does -/

namespace Fs

@[simp] theorem content_remove (fs : Fs) : fs.remove.content = fs.content := rfl

variable {fs : Fs}

theorem WellFormed.remove (h : fs.WellFormed) : fs.remove.WellFormed where
  target_lt := h.target_lt
  tmp_lt f hf := by cases hf
  differ f hf := by cases hf

theorem WellFormed.write (h : fs.WellFormed) (file off : ℕ) (chunk : Bytes) :
    (fs.write file off chunk).WellFormed where
  target_lt f hf := by simpa [Fs.write] using h.target_lt f hf
  tmp_lt f hf := by simpa [Fs.write] using h.tmp_lt f hf
  differ := h.differ

/-- A write to the temp does not reach the target. -/
theorem content_write (h : fs.WellFormed) {file : ℕ} (hfile : fs.tmp = some file) (off : ℕ)
    (chunk : Bytes) : (fs.write file off chunk).content = fs.content := by
  have hne := h.differ file hfile
  cases htarget : fs.target with
  | none => simp [content, write, htarget]
  | some f =>
      have hff : file ≠ f := by
        intro heq
        exact hne (by rw [htarget, heq])
      simp [content, write, htarget, List.getElem?_modify, hff]

/-- Creating the temp leaves the target alone, and the temp is empty. -/
theorem create_spec (h : fs.WellFormed) :
    fs.create.2.WellFormed ∧ fs.create.2.content = fs.content
      ∧ fs.create.2.tmp = some fs.create.1 ∧ fs.create.2.files[fs.create.1]? = some [] := by
  cases htmp : fs.tmp with
  | some f =>
      have hlt := h.tmp_lt f htmp
      have hne := h.differ f htmp
      refine ⟨⟨?_, ?_, ?_⟩, ?_, ?_, ?_⟩
      · intro g hg
        simpa [create, htmp] using h.target_lt g (by simpa [create, htmp] using hg)
      · intro g hg
        simpa [create, htmp] using h.tmp_lt g (by simpa [create, htmp] using hg)
      · intro g hg
        simpa [create, htmp] using h.differ g (by simpa [create, htmp] using hg)
      · cases htarget : fs.target with
        | none => simp [content, create, htmp, htarget]
        | some g =>
            have hfg : f ≠ g := by
              intro heq
              exact hne (by rw [htarget, heq])
            simp [content, create, htmp, htarget, List.getElem?_set, hfg]
      · simp [create, htmp]
      · simp [create, htmp, hlt]
  | none =>
      refine ⟨⟨?_, ?_, ?_⟩, ?_, ?_, ?_⟩
      · intro g hg
        have hlt := h.target_lt g (by simpa [create, htmp] using hg)
        simp only [create, htmp, List.length_append, List.length_singleton]
        omega
      · intro g hg
        have heq : fs.files.length = g := by simpa [create, htmp] using hg
        simp [create, htmp, heq]
      · intro g hg htarget
        have heq : fs.files.length = g := by simpa [create, htmp] using hg
        have hlt := h.target_lt g (by simpa [create, htmp] using htarget)
        omega
      · cases htarget : fs.target with
        | none => simp [content, create, htmp, htarget]
        | some g =>
            have hlt := h.target_lt g htarget
            simp [content, create, htmp, htarget, List.getElem?_append_left hlt]
      · simp [create, htmp]
      · simp [create, htmp]

/-- The renamed temp is the target. -/
theorem rename_spec (h : fs.WellFormed) {f : ℕ} (htmp : fs.tmp = some f) :
    ∃ fs', fs.rename = some fs' ∧ fs'.WellFormed ∧ fs'.content = fs.files[f]?
      ∧ fs'.tmp = none := by
  refine ⟨{ fs with target := some f, tmp := none }, by simp [rename, htmp], ⟨?_, ?_, ?_⟩, rfl, rfl⟩
  · intro g hg
    cases hg
    exact h.tmp_lt f htmp
  · intro g hg
    cases hg
  · intro g hg
    cases hg

end Fs

/-- Bytes written behind the part that is there. -/
theorem Fs.writeAt_take (bytes : Bytes) {off amount : ℕ} (h : off + amount ≤ bytes.length) :
    Fs.writeAt (bytes.take off) off ((bytes.drop off).take amount) = bytes.take (off + amount) := by
  have hlen : (bytes.take off).length = off := by
    rw [List.length_take]
    omega
  have hrest : (bytes.take off).drop (off + ((bytes.drop off).take amount).length) = [] :=
    List.drop_of_length_le (by omega)
  rw [Fs.writeAt, hlen, Nat.sub_self, List.replicate_zero, List.append_nil, List.take_take,
    Nat.min_self, hrest, List.append_nil, List.take_add]

/-- What a system call does to the file system, and where the call stands then. -/
inductive Moved (c : Call) (fs : Fs) : Sys → Fs → Phase → Prop
  | prepare (h : c.phase = .preparing) : Moved c fs .prepare fs .creating
  | create (h : c.phase = .creating) : Moved c fs .create fs.create.2 (.writing fs.create.1 0)
  | write {file off amount : ℕ} (h : c.phase = .writing file off)
      (hle : off + amount ≤ c.bytes.length) :
      Moved c fs (.write amount) (fs.write file off ((c.bytes.drop off).take amount))
        (.writing file (off + amount))
  | close {file off : ℕ} (h : c.phase = .writing file off) (hoff : off = c.bytes.length) :
      Moved c fs .close fs .committing
  | rename {fs' : Fs} (h : c.phase = .committing) (hfs : fs.rename = some fs') :
      Moved c fs .rename fs' .finished
  | missing (h : c.phase = .committing) (hfs : fs.rename = none) :
      Moved c fs .rename fs (.removing .missing)
  | remove {cause : Failure} (h : c.phase = .removing cause) :
      Moved c fs .remove fs.remove (.failed cause)
  | refuse {phase : Phase} (h : c.phase.onRefused = some phase) : Moved c fs .refuse fs phase

theorem Call.exec_cases {c : Call} {fs fs' : Fs} {op : Sys} {phase : Phase}
    (h : c.exec fs op = some (fs', phase)) : Moved c fs op fs' phase := by
  cases op <;> simp only [Call.exec] at h
  case prepare =>
    split at h <;> cases h
    exact .prepare ‹_›
  case create =>
    split at h <;> cases h
    exact .create ‹_›
  case write amount =>
    split at h
    · split at h <;> cases h
      rename_i hphase hle
      exact .write hphase hle.2
    · cases h
  case close =>
    split at h
    · split at h <;> cases h
      exact .close ‹_› ‹_›
    · cases h
  case rename =>
    split at h
    · split at h <;> cases h
      · exact .rename ‹_› ‹_›
      · exact .missing ‹_› ‹_›
    · cases h
  case remove =>
    split at h <;> cases h
    exact .remove ‹_›
  case refuse =>
    obtain ⟨phase', hphase, heq⟩ := Option.map_eq_some_iff.mp h
    cases heq
    exact .refuse hphase

/-- A step is a new call, or one system call of one call. -/
theorem State.exec_cases {s t : State} {a : Act} (h : s.exec a = some t) :
    (∃ bytes, a = .call bytes ∧ t = { s with calls := s.calls ++ [⟨bytes, .preparing⟩] })
    ∨ ∃ i op c fs phase, a = .sys i op ∧ s.calls[i]? = some c ∧ Moved c s.fs op fs phase
        ∧ t = s.goto i c fs phase := by
  cases a with
  | call bytes =>
      left
      exact ⟨bytes, rfl, (Option.some.inj h).symm⟩
  | sys i op =>
      right
      obtain ⟨c, hc, h⟩ := Option.bind_eq_some_iff.mp h
      obtain ⟨⟨fs, phase⟩, hexec, h⟩ := Option.bind_eq_some_iff.mp h
      exact ⟨i, op, c, fs, phase, rfl, hc, Call.exec_cases hexec, (Option.some.inj h).symm⟩

/-! ### Calls that do not overlap -/

/-- What a call in progress finds in the temp; the temp of a call is never gone. -/
def Call.Holds (c : Call) (fs : Fs) : Prop :=
  match c.phase with
  | .writing file off =>
      off ≤ c.bytes.length ∧ fs.tmp = some file ∧ fs.files[file]? = some (c.bytes.take off)
  | .committing => ∃ file, fs.tmp = some file ∧ fs.files[file]? = some c.bytes
  | .removing cause | .failed cause => cause ≠ .missing
  | _ => True

/-- The temp matters only to a call in progress. -/
theorem Call.Holds.frame {c : Call} {fs : Fs} (h : c.Holds fs) (hbusy : c.phase.busy = false)
    (fs' : Fs) : c.Holds fs' := by
  unfold Call.Holds at h ⊢
  cases hphase : c.phase with
  | writing file off => rw [hphase] at hbusy; cases hbusy
  | committing => rw [hphase] at hbusy; cases hbusy
  | removing cause => simpa [hphase] using h
  | failed cause => simpa [hphase] using h
  | _ => trivial

/-- One call at most is in progress, the temp holds what it wrote, and the target was never
torn. -/
structure Inv (old : Option Bytes) (s : State) : Prop where
  files : s.fs.WellFormed
  single : ∀ (i j : ℕ) (c d : Call), s.calls[i]? = some c → s.calls[j]? = some d →
    c.phase.busy → d.phase.busy → i = j
  holds : ∀ c ∈ s.calls, c.Holds s.fs
  whole : s.content = old ∨ ∃ c ∈ s.calls, s.content = some c.bytes
  written : ∀ c ∈ s.calls, c.phase = .finished → some c.bytes ∈ s.seen

section Steps

variable {old : Option Bytes} {s : State}

theorem Inv.safe (h : Inv old s) : Safe old s where
  whole := h.whole
  written := h.written
  unfailed c hc hphase := by
    have hholds := h.holds c hc
    rw [Call.Holds, hphase] at hholds
    exact hholds rfl

theorem inv_init (h : (system old).init s) : Inv old s := by
  obtain ⟨hfiles, hcontent, hcalls, -⟩ := h
  refine ⟨hfiles, ?_, ?_, Or.inl hcontent, ?_⟩
  · intro i j c d hc
    rw [hcalls] at hc
    simp at hc
  · intro c hc
    rw [hcalls] at hc
    cases hc
  · intro c hc
    rw [hcalls] at hc
    cases hc

/-- What was seen before a step is still seen, and so is what the target holds now. -/
theorem seen_past {t : State} (h : t.past = s.past ++ [s.content]) :
    t.seen = s.seen ++ [t.content] := by
  rw [State.seen, h, State.seen]

/-- The step of one call keeps the invariant, when it fits the other calls. -/
theorem Inv.goto (h : Inv old s) {i : ℕ} {c : Call} {fs : Fs} {phase : Phase}
    (hc : s.calls[i]? = some c) (hfs : fs.WellFormed)
    (hothers : ∀ j d, j ≠ i → s.calls[j]? = some d → d.Holds fs)
    (hsingle : phase.busy → ∀ j d, j ≠ i → s.calls[j]? = some d → d.phase.busy = false)
    (hholds : Call.Holds { c with phase } fs)
    (hcontent : fs.content = s.content ∨ fs.content = some c.bytes)
    (hfinished : phase = .finished → fs.content = some c.bytes) :
    Inv old (s.after i c fs phase) := by
  have hi := List.lt_of_getElem?_eq_some hc
  have hmem : ∀ d ∈ s.calls, ∃ e ∈ s.calls.set i { c with phase }, e.bytes = d.bytes := by
    intro d hd
    obtain ⟨j, hj⟩ := List.mem_iff_getElem?.mp hd
    by_cases hij : i = j
    · subst hij
      refine ⟨{ c with phase }, List.mem_iff_getElem?.mpr ⟨i, by simp [hi]⟩, ?_⟩
      rw [hc] at hj
      cases hj
      rfl
    · exact ⟨d, List.mem_iff_getElem?.mpr ⟨j, by rwa [List.getElem?_set_ne hij]⟩, rfl⟩
  have hcase : ∀ e ∈ s.calls.set i { c with phase },
      e = { c with phase } ∨ ∃ j, j ≠ i ∧ s.calls[j]? = some e := by
    intro e he
    obtain ⟨j, hj⟩ := List.mem_iff_getElem?.mp he
    rcases List.getElem?_set_cases hi hj with ⟨-, rfl⟩ | ⟨hij, hj⟩
    · exact Or.inl rfl
    · exact Or.inr ⟨j, hij, hj⟩
  refine ⟨hfs, ?_, ?_, ?_, ?_⟩
  · intro j k d e hd he hdb heb
    rcases List.getElem?_set_cases hi hd with ⟨rfl, rfl⟩ | ⟨hji, hd'⟩
    · rcases List.getElem?_set_cases hi he with ⟨rfl, rfl⟩ | ⟨hki, he'⟩
      · rfl
      · exact absurd heb (by simp [hsingle hdb k e hki he'])
    · rcases List.getElem?_set_cases hi he with ⟨rfl, rfl⟩ | ⟨-, he'⟩
      · exact absurd hdb (by simp [hsingle heb j d hji hd'])
      · exact h.single j k d e hd' he' hdb heb
  · intro e he
    rcases hcase e he with rfl | ⟨j, hij, hj⟩
    · exact hholds
    · exact hothers j e hij hj
  · change fs.content = old ∨ ∃ e ∈ s.calls.set i { c with phase }, fs.content = some e.bytes
    rcases hcontent with hsame | hbytes
    · rw [hsame]
      rcases h.whole with hold | ⟨d, hd, hbytes⟩
      · exact Or.inl hold
      · obtain ⟨e, he, heq⟩ := hmem d hd
        exact Or.inr ⟨e, he, by rw [heq, hbytes]⟩
    · obtain ⟨e, he, heq⟩ := hmem c (List.mem_of_getElem? hc)
      exact Or.inr ⟨e, he, by rw [heq, hbytes]⟩
  · intro e he hphase
    rw [seen_past rfl, List.mem_append, List.mem_singleton]
    rcases hcase e he with rfl | ⟨j, -, hj⟩
    · exact Or.inr (hfinished hphase).symm
    · exact Or.inl (h.written e (List.mem_of_getElem? hj) hphase)

/-- A new call has not touched anything. -/
theorem Inv.call (h : Inv old s) (bytes : Bytes) :
    Inv old { s with calls := s.calls ++ [⟨bytes, .preparing⟩], past := s.past ++ [s.content] } where
  files := h.files
  single i j c d hc hd hcb hdb := by
    rcases List.getElem?_concat_cases hc with ⟨-, rfl⟩ | hc
    · cases hcb
    · rcases List.getElem?_concat_cases hd with ⟨-, rfl⟩ | hd
      · cases hdb
      · exact h.single i j c d hc hd hcb hdb
  holds c hc := by
    rcases List.mem_append.mp hc with hc | hc
    · exact h.holds c hc
    · rw [List.mem_singleton.mp hc]
      trivial
  whole := by
    rcases h.whole with hold | ⟨c, hc, hbytes⟩
    · exact Or.inl hold
    · exact Or.inr ⟨c, List.mem_append_left _ hc, hbytes⟩
  written c hc hphase := by
    rw [seen_past rfl, List.mem_append]
    rcases List.mem_append.mp hc with hc | hc
    · exact Or.inl (h.written c hc hphase)
    · rw [List.mem_singleton.mp hc] at hphase
      cases hphase

/-- A call that is in progress is the only one. -/
theorem Inv.alone (h : Inv old s) {i j : ℕ} {c d : Call} (hc : s.calls[i]? = some c)
    (hbusy : c.phase.busy) (hij : j ≠ i) (hd : s.calls[j]? = some d) : d.phase.busy = false := by
  cases hdb : d.phase.busy with
  | false => rfl
  | true => exact absurd (h.single i j c d hc hd hbusy hdb).symm hij

/-- A refused call is not in progress, and its temp was not gone. -/
theorem onRefused_spec {c : Call} {phase : Phase} {fs : Fs} (h : c.phase.onRefused = some phase)
    (hc : c.Holds fs) :
    phase.busy = false ∧ phase ≠ .finished ∧ Call.Holds { c with phase } fs := by
  unfold Phase.onRefused at h
  split at h <;> cases h
  · simp [Phase.busy, Call.Holds]
  · simp [Phase.busy, Call.Holds]
  · simp [Phase.busy, Call.Holds]
  · simp [Phase.busy, Call.Holds]
  · rename_i cause hphase
    rw [Call.Holds, hphase] at hc
    exact ⟨rfl, nofun, hc⟩

theorem inv_move (h : Inv old s) {i : ℕ} {c : Call} {op : Sys} {fs : Fs} {phase : Phase}
    (hc : s.calls[i]? = some c) (hok : apart s (.sys i op)) (hmoved : Moved c s.fs op fs phase) :
    Inv old (s.after i c fs phase) := by
  have hholds := h.holds c (List.mem_of_getElem? hc)
  have hsame : ∀ j d, j ≠ i → s.calls[j]? = some d → d.Holds s.fs :=
    fun j d _ hd => h.holds d (List.mem_of_getElem? hd)
  cases hmoved with
  | prepare hphase => exact h.goto hc h.files hsame nofun trivial (Or.inl rfl) nofun
  | create hphase =>
      obtain ⟨hfiles, hcontent, htmp, hempty⟩ := Fs.create_spec h.files
      refine h.goto hc hfiles ?_ ?_ ?_ (Or.inl hcontent) nofun
      · intro j d _ hd
        exact (hsame j d ‹_› hd).frame (hok d (List.mem_of_getElem? hd)) _
      · intro _ j d _ hd
        exact hok d (List.mem_of_getElem? hd)
      · exact ⟨Nat.zero_le _, htmp, by simpa using hempty⟩
  | write hphase hle =>
      have hbusy : c.phase.busy := by rw [hphase]; rfl
      rw [Call.Holds, hphase] at hholds
      obtain ⟨-, htmp, hfile⟩ := hholds
      refine h.goto hc (h.files.write _ _ _) ?_ ?_ ?_
        (Or.inl (Fs.content_write h.files htmp _ _)) nofun
      · intro j d hij hd
        exact (hsame j d hij hd).frame (h.alone hc hbusy hij hd) _
      · intro _ j d hij hd
        exact h.alone hc hbusy hij hd
      · refine ⟨hle, htmp, ?_⟩
        simp [Fs.write, hfile, Fs.writeAt_take _ hle]
  | close hphase hoff =>
      have hbusy : c.phase.busy := by rw [hphase]; rfl
      rw [Call.Holds, hphase] at hholds
      obtain ⟨-, htmp, hfile⟩ := hholds
      rw [hoff, List.take_length] at hfile
      refine h.goto hc h.files hsame ?_ ⟨_, htmp, hfile⟩ (Or.inl rfl) nofun
      intro _ j d hij hd
      exact h.alone hc hbusy hij hd
  | rename hphase hfs =>
      have hbusy : c.phase.busy := by rw [hphase]; rfl
      rw [Call.Holds, hphase] at hholds
      obtain ⟨file, htmp, hfile⟩ := hholds
      obtain ⟨fs', hrename, hfiles, hcontent, -⟩ := Fs.rename_spec h.files htmp
      rw [hfs] at hrename
      cases hrename
      rw [hfile] at hcontent
      refine h.goto hc hfiles ?_ nofun trivial (Or.inr hcontent) fun _ => hcontent
      intro j d hij hd
      exact (hsame j d hij hd).frame (h.alone hc hbusy hij hd) _
  | missing hphase hfs =>
      rw [Call.Holds, hphase] at hholds
      obtain ⟨file, htmp, -⟩ := hholds
      rw [Fs.rename, htmp] at hfs
      cases hfs
  | remove hphase =>
      rw [Call.Holds, hphase] at hholds
      refine h.goto hc h.files.remove ?_ nofun hholds (Or.inl rfl) nofun
      intro j d hij hd
      exact (hsame j d hij hd).frame (hok d (List.mem_of_getElem? hd)) _
  | refuse hphase =>
      obtain ⟨hbusy, hne, hafter⟩ := onRefused_spec hphase hholds
      refine h.goto hc h.files hsame ?_ hafter (Or.inl rfl) fun heq => absurd heq hne
      intro hb
      rw [hbusy] at hb
      cases hb

theorem inv_step {t : State} {a : Act} (h : Inv old s) (hok : apart s a)
    (hstep : (system old).step s a = some t) : Inv old t := by
  obtain ⟨u, hexec, rfl⟩ := Option.map_eq_some_iff.mp hstep
  rcases State.exec_cases hexec with ⟨bytes, -, rfl⟩ | ⟨i, op, c, fs, phase, rfl, hc, hm, rfl⟩
  · exact h.call bytes
  · exact inv_move h hc hok hm

theorem inv_of_reach (h : (system old).Reach apart s) : Inv old s :=
  h.invariant (fun _ => inv_init) fun _ _ _ => inv_step

end Steps

/-! ### Calls that overlap -/

/-- Some steps lead from one state to the other. -/
abbrev Leads : State → State → Prop :=
  Relation.ReflTransGen fun s t => ∃ a, s.step a = some t

/-- A call between its creation of the temp and its rename. -/
def Call.InProgress (c : Call) : Prop :=
  c.phase = .committing ∨ ∃ file off, c.phase = .writing file off ∧ off ≤ c.bytes.length

section Overlaps

variable {old : Option Bytes} {s : State} {i j : ℕ} {c d : Call}

theorem Inv.inProgress (h : Inv old s) (hc : s.calls[i]? = some c) (hbusy : c.phase.busy) :
    c.InProgress := by
  have hholds := h.holds c (List.mem_of_getElem? hc)
  cases hphase : c.phase with
  | writing file off =>
      rw [Call.Holds, hphase] at hholds
      exact Or.inr ⟨file, off, hphase, hholds.1⟩
  | committing => exact Or.inl hphase
  | _ => simp [Phase.busy, hphase] at hbusy

theorem leads_sys (op : Sys) (fs : Fs) (phase : Phase) (hc : s.calls[i]? = some c)
    (h : c.exec s.fs op = some (fs, phase)) :
    Leads s (s.after i c fs phase) := by
  refine Relation.ReflTransGen.single ⟨.sys i op, ?_⟩
  simp [State.step, State.exec, State.after, hc, h]

theorem leads_close {file : ℕ} (hc : s.calls[i]? = some c)
    (hphase : c.phase = .writing file c.bytes.length) :
    ∃ t, Leads s t ∧ t.fs.tmp = s.fs.tmp
      ∧ t.calls = s.calls.set i { c with phase := .committing } :=
  ⟨_, leads_sys .close s.fs .committing hc (by simp [Call.exec, hphase]), rfl, rfl⟩

/-- A call can write all its bytes and close the temp. -/
theorem leads_committing (hc : s.calls[i]? = some c) (h : c.InProgress) :
    ∃ t, Leads s t ∧ t.fs.tmp = s.fs.tmp
      ∧ t.calls = s.calls.set i { c with phase := .committing } := by
  obtain ⟨hi, hci⟩ := List.getElem?_eq_some_iff.mp hc
  rcases h with hphase | ⟨file, off, hphase, hle⟩
  · have hsame : { c with phase := .committing } = c := by rw [← hphase]
    exact ⟨s, .refl, rfl, by rw [hsame, ← hci, List.set_getElem_self]⟩
  · rcases Nat.eq_or_lt_of_le hle with rfl | hlt
    · exact leads_close hc hphase
    · let chunk := (c.bytes.drop off).take (c.bytes.length - off)
      have hexec : c.exec s.fs (.write (c.bytes.length - off))
          = some (s.fs.write file off chunk, .writing file c.bytes.length) := by
        have hsum : off + (c.bytes.length - off) = c.bytes.length := by omega
        have hroom : 0 < c.bytes.length - off ∧ off + (c.bytes.length - off) ≤ c.bytes.length := by
          omega
        simp only [Call.exec, hphase]
        rw [if_pos hroom, hsum]
      have hwrite := leads_sys _ _ _ hc hexec
      obtain ⟨t, hleads, htmp, hcalls⟩ := leads_close (i := i)
        (s := s.after i c _ (.writing file c.bytes.length))
        (c := { c with phase := .writing file c.bytes.length }) (by simp [hi]) rfl
      refine ⟨t, hwrite.trans hleads, htmp, ?_⟩
      rw [hcalls, State.calls_after, List.set_set]

/-- A call that finds no temp fails. -/
theorem leads_unsafe (hc : s.calls[i]? = some c) (h : c.InProgress) (htmp : s.fs.tmp = none) :
    ∃ t, Leads s t ∧ ¬ Safe old t := by
  have hi := List.lt_of_getElem?_eq_some hc
  obtain ⟨t, hleads, htmp', hcalls⟩ := leads_committing hc h
  have hrename := leads_sys .rename t.fs (.removing .missing) (s := t) (i := i)
    (c := { c with phase := .committing }) (by simp [hcalls, hi])
    (by simp [Call.exec, Fs.rename, htmp', htmp])
  have hremove := leads_sys .remove t.fs.remove (.failed .missing) (i := i)
    (s := t.after i { c with phase := .committing } t.fs (.removing .missing))
    (c := { c with phase := .removing .missing }) (by simp [hcalls, hi])
    (by simp [Call.exec])
  refine ⟨_, (hleads.trans hrename).trans hremove, fun hsafe => ?_⟩
  refine hsafe.unfailed { c with phase := .failed .missing } (List.mem_of_getElem? (i := i) ?_) rfl
  simp [hcalls, hi]

/-- A call takes the temp along when it renames it. -/
theorem leads_finished (hc : s.calls[i]? = some c) (h : c.InProgress) {file : ℕ}
    (htmp : s.fs.tmp = some file) :
    ∃ t, Leads s t ∧ t.fs.tmp = none ∧ t.calls = s.calls.set i { c with phase := .finished } := by
  have hi := List.lt_of_getElem?_eq_some hc
  obtain ⟨t, hleads, htmp', hcalls⟩ := leads_committing hc h
  have hrename := leads_sys .rename { t.fs with target := some file, tmp := none } .finished
    (s := t) (i := i) (c := { c with phase := .committing }) (by simp [hcalls, hi])
    (by simp [Call.exec, Fs.rename, htmp', htmp])
  refine ⟨_, hleads.trans hrename, rfl, ?_⟩
  simp [hcalls]

/-- A step outside the condition can go wrong, whatever the calls went through before it. -/
theorem leads_of_overlap {t : State} {a : Act} (h : Inv old s) (hstep : s.step a = some t)
    (hoverlap : ¬ apart s a) : ∃ u, Leads t u ∧ ¬ Safe old u := by
  obtain ⟨u, hexec, rfl⟩ := Option.map_eq_some_iff.mp hstep
  rcases State.exec_cases hexec with ⟨bytes, rfl, -⟩ | ⟨i, op, c, fs, phase, rfl, hc, hm, rfl⟩
  · exact absurd trivial hoverlap
  have hi := List.lt_of_getElem?_eq_some hc
  -- the call in progress, next to the one that moves
  have hother : (∃ d ∈ s.calls, d.phase.busy = true) → c.phase.busy = false →
      ∃ j d, i ≠ j ∧ s.calls[j]? = some d ∧ d.InProgress := by
    intro ⟨d, hd, hbusy⟩ hidle
    obtain ⟨j, hj⟩ := List.mem_iff_getElem?.mp hd
    refine ⟨j, d, ?_, hj, h.inProgress hj hbusy⟩
    intro heq
    rw [← heq, hc] at hj
    cases hj
    rw [hidle] at hbusy
    cases hbusy
  cases hm with
  | create hphase =>
      -- the other call renames the temp away from this one
      obtain ⟨j, d, hij, hj, hd⟩ := hother (by simpa [apart] using hoverlap)
        (by simp [Phase.busy, hphase])
      have htmp := (Fs.create_spec h.files).2.2.1
      obtain ⟨t, hleads, hnone, hcalls⟩ := leads_finished (i := j) (c := d)
        (s := s.after i c s.fs.create.2 (.writing s.fs.create.1 0))
        (by simp [List.getElem?_set_ne hij, hj]) hd htmp
      obtain ⟨u, hleads', hunsafe⟩ := leads_unsafe (s := t) (i := i)
        (c := { c with phase := .writing s.fs.create.1 0 })
        (by rw [hcalls, List.getElem?_set_ne hij.symm, State.calls_after]; simp [hi]) (Or.inr ⟨_, 0, rfl, Nat.zero_le _⟩)
        hnone
      exact ⟨u, hleads.trans hleads', hunsafe⟩
  | remove hphase =>
      -- the temp of the other call is gone
      obtain ⟨j, d, hij, hj, hd⟩ := hother (by simpa [apart] using hoverlap)
        (by simp [Phase.busy, hphase])
      exact leads_unsafe (s := s.after i c s.fs.remove (.failed _)) (i := j)
        (by simp [List.getElem?_set_ne hij, hj]) hd rfl
  | _ => exact absurd trivial hoverlap

end Overlaps

/-- **The target is never torn** in the runs whose calls keep apart; and every step that does
not keep them apart can be followed by one that tears it, or by a call that fails over another
one. -/
theorem target_never_torn (old : Option Bytes) :
    (∀ s, (system old).Reach apart s → Safe old s)
    ∧ ∀ s a t, (system old).Reach apart s → (system old).step s a = some t → ¬ apart s a →
        ∃ u, Leads t u ∧ ¬ Safe old u :=
  ⟨fun _ h => (inv_of_reach h).safe,
    fun _ _ _ h hstep hoverlap => leads_of_overlap (inv_of_reach h) hstep hoverlap⟩

/-! ### Runs -/

/-- A checkpoint, and the temp of a writer that crashed. -/
def checkpoint : State where
  fs := { target := some 0, tmp := some 1, files := [[7], [8, 8, 8]] }
  calls := []
  past := []

theorem init_checkpoint : (system (some [7])).init checkpoint := by
  refine ⟨⟨?_, ?_, ?_⟩, rfl, rfl, rfl⟩
  · intro f hf
    cases hf
    decide
  · intro f hf
    cases hf
    decide
  · intro f hf
    cases hf
    decide

/-- A whole call, and a second one that has its temp open. -/
def firstCall : List Act :=
  [.call [1, 2], .call [3], .sys 0 .prepare, .sys 0 .create, .sys 0 (.write 1), .sys 0 (.write 1),
    .sys 0 .close, .sys 0 .rename, .sys 1 .prepare, .sys 1 .create, .call [4], .sys 2 .prepare]

theorem target_never_torn_sample :
    ∃ s t, Safe (some [7]) s ∧ s.content = some [1, 2] ∧ s.step (.sys 2 .create) = some t
      ∧ ∃ u, Leads t u ∧ ¬ Safe (some [7]) u := by
  have hrun : ((system (some [7])).runOk (fun s a => decide (apart s a)) checkpoint firstCall).map
      (fun s => (s.content, (s.step (.sys 2 .create)).isSome, decide (apart s (.sys 2 .create))))
      = some (some [1, 2], true, false) := by
    decide
  obtain ⟨s, hs, hfacts⟩ := Option.map_eq_some_iff.mp hrun
  obtain ⟨hcontent, hstep, hoverlap⟩ : s.content = some [1, 2]
      ∧ (s.step (.sys 2 .create)).isSome ∧ ¬ apart s (.sys 2 .create) := by
    simpa using hfacts
  obtain ⟨t, ht⟩ := Option.isSome_iff_exists.mp hstep
  have hreach : (system (some [7])).Reach apart s :=
    Lts.Reach.runOk (fun _ _ h => of_decide_eq_true h) (.init init_checkpoint) hs
  exact ⟨s, t, (target_never_torn (some [7])).1 s hreach, hcontent, ht,
    (target_never_torn (some [7])).2 s _ t hreach ht hoverlap⟩

/-- The second call truncates the temp that the first one has open and renames it, and the
first one writes its rest into the target. -/
def overlap : List Act :=
  [.call [1, 2], .call [3], .sys 0 .prepare, .sys 0 .create, .sys 1 .prepare,
    .sys 0 (.write 1), .sys 1 .create, .sys 1 (.write 1), .sys 1 .close, .sys 1 .rename,
    .sys 0 (.write 1)]

theorem target_torn :
    ¬ ∀ s, (system (some [7])).Reach Lts.anyStep s → Safe (some [7]) s := by
  intro hsafe
  have hrun : ((system (some [7])).run checkpoint overlap).map
      (fun s => (s.content, s.calls.map Call.bytes)) = some (some [3, 2], [[1, 2], [3]]) := by
    decide
  obtain ⟨s, hs, hfacts⟩ := Option.map_eq_some_iff.mp hrun
  obtain ⟨hcontent, hbytes⟩ : s.content = some [3, 2] ∧ s.calls.map Call.bytes = [[1, 2], [3]] := by
    simpa using hfacts
  have hreach : (system (some [7])).Reach Lts.anyStep s :=
    Lts.Reach.run (.init init_checkpoint) (fun _ _ _ => trivial) hs
  rcases (hsafe s hreach).whole with hold | ⟨c, hc, hnew⟩
  · rw [hcontent] at hold
    cases hold
  · have hmem : c.bytes ∈ [[1, 2], [3]] := hbytes ▸ List.mem_map_of_mem hc
    rw [hcontent] at hnew
    rw [← Option.some.inj hnew] at hmem
    exact absurd hmem (by decide)

end Filigrio.Atomic
