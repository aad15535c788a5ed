import Filigrio.Daemon.Queue
import Filigrio.Ingest.Boundary

/-!
# Filigrio.Ingest.Watcher

The file watcher: it turns debounced batches of file-system events into what the daemon
consumes. `classifyEvents` drops the reads, and passes a path on by its kind when it is not a
directory, is indexable, is below the root and is in scope; a `.gitignore` asks for a
reconcile instead. One boundary is kept from batch to batch, and built anew by a batch that
names a `.gitignore`. What a batch lists is read off its events in
`classifyEvents_spec`.
-/

namespace Filigrio.Ingest

open Filigrio.Daemon

/-! ### Events -/

inductive AccessMode
  | any
  | execute
  | read
  | write
  | other
  deriving DecidableEq, Repr

inductive AccessKind
  | any
  | read
  | open (mode : AccessMode)
  | close (mode : AccessMode)
  | other
  deriving DecidableEq, Repr

inductive EventKind
  | any
  | access (kind : AccessKind)
  | create
  | modify
  | remove
  | other
  deriving DecidableEq, Repr

/-- An event, with the paths it names. The flag says that events were lost and the tree has
to be read again; nothing in the watcher looks at it. -/
structure Event where
  kind : EventKind
  paths : List Path
  rescan : Bool := false
  deriving DecidableEq, Repr

/-- A batch of events, or the errors that stand for lost ones. -/
abbrev DebounceEventResult := Except (List String) (List Event)

/-- The tree at the time a batch is classified: its directories and its `.gitignore` files. -/
structure Snapshot where
  isDir : Path → Bool
  load : Load

/-! ### Classification -/

/-- Only the definite reads: an access that cannot be classified still counts. -/
def isRead : EventKind → Bool
  | .access .read => true
  | .access (.open _) => true
  | .access (.close .read) => true
  | .access (.close .execute) => true
  | _ => false

def EventKind.isRemove : EventKind → Bool
  | .remove => true
  | _ => false

/-- A path as it is written. -/
def pathText : Path → String
  | "/" :: rest => "/" ++ Text.join rest "/"
  | path => Text.join path "/"

/-- `strip_prefix`: the root-relative path. -/
def stripRoot (root path : Path) : Option String :=
  if root.isPrefixOf path then some (Rel.text (path.drop root.length)) else none

/-- Only a creation adds and only a removal removes: any other kind is a modification. -/
def record (changeset : ChangeSet) (kind : EventKind) (rel : String) : ChangeSet :=
  match kind with
  | .create => { changeset with added := changeset.added ++ [rel] }
  | .remove => { changeset with removed := changeset.removed ++ [rel] }
  | _ => { changeset with modified := changeset.modified ++ [rel] }

/-- What a batch has been classified into so far, with the boundary as it is now. -/
structure Classified where
  changeset : ChangeSet
  ignoreChanged : Bool
  boundary : SourceBoundary

def isGitignore (path : Path) : Bool := path.fileName = some ".gitignore"

/-- One path of an event: the `.gitignore` test comes before the filters, and a removed path
is not looked up on disk. -/
def classifyPath (root : Path) (snap : Snapshot) (kind : EventKind) (acc : Classified)
    (path : Path) : Classified :=
  if isGitignore path then { acc with ignoreChanged := true }
  else if !kind.isRemove && snap.isDir path then acc
  else if !isIndexable (pathText path) then acc
  else
    match stripRoot root path with
    | none => acc
    | some rel =>
      let (inside, boundary) := acc.boundary.matches snap.load rel
      if inside then { acc with changeset := record acc.changeset kind rel, boundary := boundary }
      else { acc with boundary := boundary }

def classifyEvent (root : Path) (snap : Snapshot) (acc : Classified) (event : Event) : Classified :=
  if isRead event.kind then acc
  else event.paths.foldl (classifyPath root snap event.kind) acc

/-- Classify one batch into a changeset, and whether an ignore file changed. -/
def classifyEvents (root : Path) (snap : Snapshot) (boundary : SourceBoundary)
    (events : List Event) : Classified :=
  events.foldl (classifyEvent root snap) ⟨⟨[], [], []⟩, false, boundary⟩

/-! ### The watcher -/

/-- What the watcher does with a batch: errors are logged, and the batch is over. After an
ignore file changed it classifies again under a new boundary, and asks for a reconcile first. -/
def onBatch (root : Path) (boundary : SourceBoundary) (snap : Snapshot) :
    DebounceEventResult → List Produced × SourceBoundary
  | .error _ => ([], boundary)
  | .ok events =>
    let first := classifyEvents root snap boundary events
    let last := if first.ignoreChanged then classifyEvents root snap .new events else first
    ((if first.ignoreChanged then [.reconcile false] else []) ++
      (if last.changeset.isEmpty then [] else [.signal last.changeset]), last.boundary)

/-- Batch after batch. -/
def watch (root : Path) : SourceBoundary → List (Snapshot × DebounceEventResult) → List Produced
  | _, [] => []
  | boundary, (snap, result) :: rest =>
    let (produced, boundary) := onBatch root boundary snap result
    produced ++ watch root boundary rest

/-! ### What a boundary answers -/

/-- The `.gitignore` files as the boundary sees them: what it keeps, and else what is there. -/
def SourceBoundary.over (boundary : SourceBoundary) (load : Load) : Load :=
  fun dir => (boundary.gitignores dir).getD (load dir)

@[simp] theorem over_new (load : Load) : SourceBoundary.new.over load = load := rfl

section Matches

variable {load seen : Load} {boundary : SourceBoundary}

theorem coherent_of_over (h : boundary.over load = seen) : Coherent seen boundary := by
  intro dir hit hhit
  rw [← h, SourceBoundary.over, hhit]
  rfl

/-- To load is to see what was seen before. -/
theorem gitignoreFor_over (h : boundary.over load = seen) (dir : Rel) :
    boundary.gitignoreFor load dir = boundary.gitignoreFor seen dir ∧
      (boundary.gitignoreFor load dir).2.over load = seen := by
  unfold SourceBoundary.gitignoreFor
  cases hhit : boundary.gitignores dir with
  | some hit => exact ⟨rfl, h⟩
  | none =>
      have hload : load dir = seen dir := by
        rw [← h, SourceBoundary.over, hhit]
        rfl
      dsimp only
      refine ⟨by rw [hload], ?_⟩
      rw [← h]
      funext other
      unfold SourceBoundary.over
      dsimp only
      by_cases heq : other = dir
      · subst heq
        rw [Function.update_self, hhit]
        rfl
      · rw [Function.update_of_ne heq]

theorem matchesFrom_over (stack : List Gitignore) (cur rest : Rel) (h : boundary.over load = seen) :
    boundary.matchesFrom load stack cur rest = boundary.matchesFrom seen stack cur rest ∧
      (boundary.matchesFrom load stack cur rest).2.over load = seen := by
  induction rest generalizing boundary stack cur with
  | nil => exact ⟨rfl, h⟩
  | cons name rest ih =>
      unfold SourceBoundary.matchesFrom
      split
      · exact ⟨rfl, h⟩
      · dsimp only
        split
        · exact ⟨rfl, h⟩
        · split
          · obtain ⟨hsame, hover⟩ := gitignoreFor_over h (cur ++ [name])
            rw [← hsame]
            exact ih _ _ hover
          · exact ⟨rfl, h⟩

/-- A path is in scope by the `.gitignore` files that the boundary sees, and it goes on
seeing these. -/
theorem matches_over (h : boundary.over load = seen) (rel : String) :
    ((boundary.matches load rel).1 = true ↔ Shown seen (parts rel)) ∧
      (boundary.matches load rel).2.over load = seen := by
  have hsame : boundary.matches load rel = boundary.matches seen rel ∧
      (boundary.matches load rel).2.over load = seen := by
    unfold SourceBoundary.matches
    split
    · exact ⟨rfl, h⟩
    · obtain ⟨hsame, hover⟩ := gitignoreFor_over h []
      dsimp only
      rw [← hsame]
      exact matchesFrom_over _ _ _ hover
  refine ⟨?_, hsame.2⟩
  rw [hsame.1]
  exact (matches_spec (coherent_of_over h) rel).1

end Matches

/-! ### What a batch lists -/

/-- The removed paths of a changeset, or the ones to index. -/
def listed (removal : Bool) (changeset : ChangeSet) : List String :=
  if removal then changeset.removed else changeset.toIndex

/-- A path in an event of this kind stands for the file `rel`, and passes the tests that come
before the scope. -/
def Stands (root : Path) (snap : Snapshot) (kind : EventKind) (path : Path) (rel : String) : Prop :=
  isGitignore path = false ∧ (kind.isRemove = true ∨ snap.isDir path = false) ∧
    isIndexable (pathText path) = true ∧ stripRoot root path = some rel

/-- Some event of the batch that is not a read names the file, as removed or as there, and the
boundary has it in scope. -/
def Tells (root : Path) (snap : Snapshot) (boundary : SourceBoundary) (events : List Event)
    (removal : Bool) (rel : String) : Prop :=
  (boundary.matches snap.load rel).1 = true ∧ ∃ event ∈ events, isRead event.kind = false ∧
    event.kind.isRemove = removal ∧ ∃ path ∈ event.paths, Stands root snap event.kind path rel

/-- Some event of the batch that is not a read names a `.gitignore`. -/
def Rescopes (events : List Event) : Prop :=
  ∃ event ∈ events, isRead event.kind = false ∧ ∃ path ∈ event.paths, isGitignore path = true

instance (events : List Event) : Decidable (Rescopes events) :=
  inferInstanceAs (Decidable (∃ event ∈ events, isRead event.kind = false ∧
    ∃ path ∈ event.paths, isGitignore path = true))

instance (root : Path) (snap : Snapshot) (kind : EventKind) (path : Path) (rel : String) :
    Decidable (Stands root snap kind path rel) :=
  inferInstanceAs (Decidable (_ ∧ _ ∧ _ ∧ _))

instance (root : Path) (snap : Snapshot) (boundary : SourceBoundary) (events : List Event)
    (removal : Bool) (rel : String) : Decidable (Tells root snap boundary events removal rel) :=
  inferInstanceAs (Decidable (_ ∧ ∃ event ∈ events, _ ∧ _ ∧ ∃ path ∈ event.paths, _))

theorem mem_record {changeset : ChangeSet} {kind : EventKind} {rel p : String} {removal : Bool} :
    p ∈ listed removal (record changeset kind rel) ↔
      p ∈ listed removal changeset ∨ (kind.isRemove = removal ∧ rel = p) := by
  cases kind <;> cases removal <;>
    simp [record, listed, ChangeSet.toIndex, EventKind.isRemove, eq_comm, or_comm, or_left_comm]

section Classify

variable {root : Path} {snap : Snapshot} {seen : Load} {kind : EventKind} {acc : Classified}
  {removal : Bool} {p : String}

/-- A path that stands for no file leaves everything as it is. -/
theorem classifyPath_of_not_stands {path : Path} (hignore : isGitignore path = false)
    (h : ∀ rel, ¬ Stands root snap kind path rel) :
    classifyPath root snap kind acc path = acc := by
  unfold classifyPath
  rw [hignore, if_neg Bool.false_ne_true]
  split
  · rfl
  · rename_i hdir
    have hlive : kind.isRemove = true ∨ snap.isDir path = false := by
      cases hkind : kind.isRemove with
      | true => exact Or.inl rfl
      | false =>
          right
          simpa [hkind] using hdir
    split
    · rfl
    · rename_i hindexable
      cases hrel : stripRoot root path with
      | none => rfl
      | some rel => exact absurd ⟨hignore, hlive, by simpa using hindexable, hrel⟩ (h rel)

theorem classifyPath_of_stands {path : Path} {rel : String} (h : Stands root snap kind path rel) :
    classifyPath root snap kind acc path =
      { acc with
        changeset := if (acc.boundary.matches snap.load rel).1 then record acc.changeset kind rel
          else acc.changeset
        boundary := (acc.boundary.matches snap.load rel).2 } := by
  obtain ⟨hignore, hlive, hindexable, hrel⟩ := h
  have hdir : (!kind.isRemove && snap.isDir path) = false := by
    rcases hlive with hkind | hdir
    · rw [hkind]
      rfl
    · rw [hdir, Bool.and_false]
  unfold classifyPath
  rw [hignore, if_neg Bool.false_ne_true, hdir, if_neg Bool.false_ne_true, hindexable, hrel]
  dsimp only
  rw [Bool.not_true, if_neg Bool.false_ne_true]
  split <;> rfl

theorem stands_inj {path : Path} {rel rel' : String} (h : Stands root snap kind path rel)
    (h' : Stands root snap kind path rel') : rel = rel' :=
  Option.some.inj (h.2.2.2.symm.trans h'.2.2.2)

/-- What is kept while a batch is classified: the boundary sees the same `.gitignore` files. -/
theorem classifyPath_spec (root : Path) (kind : EventKind) (path : Path) (removal : Bool)
    (p : String) (h : acc.boundary.over snap.load = seen) :
    (classifyPath root snap kind acc path).boundary.over snap.load = seen ∧
    ((classifyPath root snap kind acc path).ignoreChanged = true ↔
      acc.ignoreChanged = true ∨ isGitignore path = true) ∧
    (p ∈ listed removal (classifyPath root snap kind acc path).changeset ↔
      p ∈ listed removal acc.changeset ∨ (kind.isRemove = removal ∧
        Stands root snap kind path p ∧ Shown seen (parts p))) := by
  cases hignore : isGitignore path with
  | true =>
      have hnot : ¬ Stands root snap kind path p := fun hstands => by
        rw [hstands.1] at hignore
        cases hignore
      rw [classifyPath, if_pos hignore]
      exact ⟨h, by simp, by simp [hnot]⟩
  | false =>
      by_cases hany : ∃ rel, Stands root snap kind path rel
      · obtain ⟨rel, hrel⟩ := hany
        obtain ⟨hshown, hover⟩ := matches_over h rel
        have hstands : Stands root snap kind path p ↔ rel = p :=
          ⟨stands_inj hrel, fun heq => heq ▸ hrel⟩
        rw [classifyPath_of_stands hrel, hstands]
        dsimp only
        refine ⟨hover, by rw [or_iff_left Bool.false_ne_true], ?_⟩
        split
        · rename_i hinside
          rw [mem_record]
          refine or_congr_right (and_congr_right fun _ => ?_)
          constructor
          · intro heq
            subst heq
            exact ⟨rfl, hshown.mp hinside⟩
          · exact And.left
        · rename_i hinside
          constructor
          · exact Or.inl
          · intro hmem
            rcases hmem with hmem | ⟨_, heq, hin⟩
            · exact hmem
            · subst heq
              exact absurd (hshown.mpr hin) hinside
      · have hnone : ∀ rel, ¬ Stands root snap kind path rel := fun rel hrel => hany ⟨rel, hrel⟩
        rw [classifyPath_of_not_stands hignore hnone]
        exact ⟨h, by simp, by simp [hnone p]⟩

theorem classifyPaths_spec (root : Path) (kind : EventKind) (paths : List Path) (removal : Bool)
    (p : String) (h : acc.boundary.over snap.load = seen) :
    (paths.foldl (classifyPath root snap kind) acc).boundary.over snap.load = seen ∧
    ((paths.foldl (classifyPath root snap kind) acc).ignoreChanged = true ↔
      acc.ignoreChanged = true ∨ ∃ path ∈ paths, isGitignore path = true) ∧
    (p ∈ listed removal (paths.foldl (classifyPath root snap kind) acc).changeset ↔
      p ∈ listed removal acc.changeset ∨ (kind.isRemove = removal ∧
        (∃ path ∈ paths, Stands root snap kind path p) ∧ Shown seen (parts p))) := by
  induction paths generalizing acc with
  | nil => simp [h]
  | cons path paths ih =>
      obtain ⟨hover, hignore, hmem⟩ := classifyPath_spec root kind path removal p h
      obtain ⟨hover', hignore', hmem'⟩ := ih hover
      rw [List.foldl_cons]
      refine ⟨hover', ?_, ?_⟩
      · rw [hignore', hignore, List.exists_mem_cons_iff, or_assoc]
      · rw [hmem', hmem, List.exists_mem_cons_iff, or_assoc]
        refine or_congr_right ?_
        rw [← and_or_left, ← or_and_right]

theorem classifyEvent_spec (root : Path) (event : Event) (removal : Bool) (p : String)
    (h : acc.boundary.over snap.load = seen) :
    (classifyEvent root snap acc event).boundary.over snap.load = seen ∧
    ((classifyEvent root snap acc event).ignoreChanged = true ↔ acc.ignoreChanged = true ∨
      (isRead event.kind = false ∧ ∃ path ∈ event.paths, isGitignore path = true)) ∧
    (p ∈ listed removal (classifyEvent root snap acc event).changeset ↔
      p ∈ listed removal acc.changeset ∨ ((isRead event.kind = false ∧
        event.kind.isRemove = removal ∧ ∃ path ∈ event.paths, Stands root snap event.kind path p) ∧
          Shown seen (parts p))) := by
  unfold classifyEvent
  by_cases hread : isRead event.kind = true
  · rw [if_pos hread]
    simp [h, hread]
  · obtain ⟨hover, hignore, hmem⟩ :=
      classifyPaths_spec root event.kind event.paths removal p h
    rw [if_neg hread]
    refine ⟨hover, ?_, ?_⟩
    · rw [hignore]
      simp [hread]
    · rw [hmem]
      simp [hread, and_assoc]

theorem foldl_classifyEvent (root : Path) (events : List Event) (removal : Bool) (p : String)
    (h : acc.boundary.over snap.load = seen) :
    (events.foldl (classifyEvent root snap) acc).boundary.over snap.load = seen ∧
    ((events.foldl (classifyEvent root snap) acc).ignoreChanged = true ↔
      acc.ignoreChanged = true ∨ Rescopes events) ∧
    (p ∈ listed removal (events.foldl (classifyEvent root snap) acc).changeset ↔
      p ∈ listed removal acc.changeset ∨ ((∃ event ∈ events, isRead event.kind = false ∧
        event.kind.isRemove = removal ∧ ∃ path ∈ event.paths, Stands root snap event.kind path p) ∧
          Shown seen (parts p))) := by
  induction events generalizing acc with
  | nil => simp [h, Rescopes]
  | cons event events ih =>
      obtain ⟨hover, hignore, hmem⟩ := classifyEvent_spec root event removal p h
      obtain ⟨hover', hignore', hmem'⟩ := ih hover
      rw [List.foldl_cons]
      refine ⟨hover', ?_, ?_⟩
      · rw [hignore', hignore, Rescopes, Rescopes, List.exists_mem_cons_iff, or_assoc]
      · rw [hmem', hmem, List.exists_mem_cons_iff, or_assoc, ← or_and_right]

end Classify

section Batch

variable {root : Path} {snap : Snapshot} {boundary : SourceBoundary} {events : List Event}

theorem classifyEvents_spec (removal : Bool) (p : String) :
    ((classifyEvents root snap boundary events).ignoreChanged = true ↔ Rescopes events) ∧
    (p ∈ listed removal (classifyEvents root snap boundary events).changeset ↔
      Tells root snap boundary events removal p) := by
  have hstart : (⟨⟨[], [], []⟩, false, boundary⟩ : Classified).boundary.over snap.load =
      boundary.over snap.load := rfl
  obtain ⟨-, hignore, hmem⟩ := foldl_classifyEvent root events removal p hstart
  have hnone : p ∉ listed removal ⟨[], [], []⟩ := by cases removal <;> simp [listed, ChangeSet.toIndex]
  rw [classifyEvents, hignore, hmem, Tells, (matches_over rfl p).1]
  simp only [hnone, false_or, Bool.false_eq_true]
  exact ⟨trivial, and_comm⟩

/-- **What a batch lists**: what its events tell, read under the boundary it starts with. -/
theorem mem_removed_classifyEvents {p : String} :
    p ∈ (classifyEvents root snap boundary events).changeset.removed ↔
      Tells root snap boundary events true p := (classifyEvents_spec true p).2

theorem mem_toIndex_classifyEvents {p : String} :
    p ∈ (classifyEvents root snap boundary events).changeset.toIndex ↔
      Tells root snap boundary events false p := (classifyEvents_spec false p).2

theorem ignoreChanged_classifyEvents :
    (classifyEvents root snap boundary events).ignoreChanged = true ↔ Rescopes events :=
  (classifyEvents_spec true "").1

end Batch

/-! ### Batch after batch -/

/-- A batch of events, with the tree and the boundary that it is classified under in the end. -/
structure Scan where
  boundary : SourceBoundary
  snap : Snapshot
  events : List Event

/-- The batches that are not errors, each with its boundary: a new one where the batch names an
ignore file, and else the one the batches before have left. -/
def scans (root : Path) : SourceBoundary → List (Snapshot × DebounceEventResult) → List Scan
  | _, [] => []
  | boundary, (_, .error _) :: rest => scans root boundary rest
  | boundary, (snap, .ok events) :: rest =>
    ⟨if Rescopes events then .new else boundary, snap, events⟩ ::
      scans root (onBatch root boundary snap (.ok events)).2 rest

/-- What the watcher produces from a batch. -/
def Scan.produced (root : Path) (scan : Scan) : List Produced :=
  let changeset := (classifyEvents root scan.snap scan.boundary scan.events).changeset
  (if Rescopes scan.events then [.reconcile false] else []) ++
    (if changeset.isEmpty then [] else [.signal changeset])

def Scan.tells (root : Path) (scan : Scan) (removal : Bool) (rel : String) : Prop :=
  Tells root scan.snap scan.boundary scan.events removal rel

instance (root : Path) (scan : Scan) (removal : Bool) (rel : String) :
    Decidable (scan.tells root removal rel) :=
  inferInstanceAs (Decidable (Tells root scan.snap scan.boundary scan.events removal rel))

theorem onBatch_produced (root : Path) (boundary : SourceBoundary) (snap : Snapshot)
    (events : List Event) : (onBatch root boundary snap (.ok events)).1 =
      Scan.produced root ⟨if Rescopes events then .new else boundary, snap, events⟩ := by
  have hignore : (classifyEvents root snap boundary events).ignoreChanged = true ↔
      Rescopes events := ignoreChanged_classifyEvents
  unfold onBatch Scan.produced
  dsimp only
  by_cases hrescopes : Rescopes events
  · rw [hignore.mpr hrescopes]
    simp only [if_pos hrescopes, ite_true]
  · have hfalse : (classifyEvents root snap boundary events).ignoreChanged = false :=
      Bool.eq_false_iff.mpr fun h => hrescopes (hignore.mp h)
    rw [hfalse]
    simp only [if_neg hrescopes, Bool.false_eq_true, ite_false]

/-- The watcher produces what its scans tell, in order. -/
theorem watch_eq (root : Path) (boundary : SourceBoundary)
    (batches : List (Snapshot × DebounceEventResult)) :
    watch root boundary batches = (scans root boundary batches).flatMap (Scan.produced root) := by
  induction batches generalizing boundary with
  | nil => rfl
  | cons batch rest ih =>
      obtain ⟨snap, result⟩ := batch
      cases result with
      | error errors =>
          rw [watch, scans, ← ih]
          rfl
      | ok events =>
          rw [watch, scans, List.flatMap_cons, ← ih, ← onBatch_produced]

end Filigrio.Ingest
