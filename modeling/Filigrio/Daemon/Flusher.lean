import Filigrio.Daemon.Flush
import Filigrio.Daemon.Resident

/-!
# Filigrio.Daemon.Flusher

The flusher call by call, with the texts of its errors, when checkpoint writes fail. A
project whose latest state is not on disk stays resident and dirty, or an error names it,
as long as no write-back of a paged-out state fails in a `record_apply` (and none fails
anonymously in a `state_of`): `failed_write_keeps`.
-/

namespace Filigrio.Daemon

/-- `Path::display`. -/
def Path.display : Path → String
  | "/" :: rest => "/" ++ "/".intercalate rest
  | cs => "/".intercalate cs

/-- The cadence knobs. -/
structure FlushConfig where
  quiescence : ℕ
  maxDirtyAge : ℕ

/-- When a project went dirty, and when it was last touched. -/
structure Dirty where
  firstDirty : ℕ
  lastApply : ℕ

/-- The resident states, the projects newer than their checkpoints, where the checkpoints
are, and the checkpoints. -/
structure Flusher where
  cache : ProjectStateCache GraphState
  cfg : FlushConfig
  dirty : BTreeMap String Dirty
  outDirs : BTreeMap String Path
  disk : Path → Option GraphState

/-- How a checkpoint write turns out. -/
inductive WriteResult
  | ok
  /-- The directory cannot be made. -/
  | noDir (e : String)
  /-- The file cannot be written: the one before it survives. -/
  | noFile (e : String)
  deriving DecidableEq

/-- How a checkpoint read turns out. -/
inductive LoadResult
  | ok
  | unreadable (e : String)
  | corrupt (e : String)

/-! ### The texts of the errors -/

/-- An error of the file system, as it is. -/
def ioError (e : String) : String := "I/O error: " ++ e

/-- An error of the store, at a checkpoint. -/
def storeError (dir : Path) (e : String) : String :=
  "core error: storage: " ++ (Path.display dir ++ "/state.json") ++ ": " ++ e

def parseError (e : String) : String := "core error: parse: " ++ e

def unknownDir (id : String) : String :=
  "storage error: no output directory known for dirty project '" ++ id ++ "' — cannot flush"

def notResident (id : String) : String :=
  "storage error: project '" ++ id ++
    "' was marked dirty but is not resident; its unpersisted state is gone"

def unknownEvictedDir (id : String) : String :=
  "storage error: cache paged out dirty state for '" ++ id ++
    "' but its output directory is unknown; refusing to drop unpersisted work silently"

def vanished (id : String) : String := "other: state for " ++ id ++ " vanished after load"

namespace Flusher

/-- Learn where a project's checkpoint lives. -/
def remember (w : Flusher) (p : Project) : Flusher :=
  { w with outDirs := w.outDirs.insert p.id p.outputDir }

def isDirty (w : Flusher) (id : String) : Bool := (w.dirty[id]?).isSome

def writeState (w : Flusher) (dir : Path) (state : GraphState) :
    WriteResult → Except String Unit × Flusher
  | .ok => (.ok (), { w with disk := Function.update w.disk dir (some state) })
  | .noDir e => (.error (ioError e), w)
  | .noFile e => (.error (storeError dir e), w)

/-- Write back what the cache paged out. The flag goes before the write. -/
def flushEvicted (writes : String → WriteResult) :
    List (Evicted GraphState) → Flusher → Except String Unit × Flusher
  | [], w => (.ok (), w)
  | e :: es, w =>
    let w := { w with dirty := w.dirty.erase e.id }
    match e.state with
    -- clean: already on disk
    | none => flushEvicted writes es w
    | some state =>
      match w.outDirs[e.id]? with
      | none => (.error (unknownEvictedDir e.id), w)
      | some dir =>
        match w.writeState dir state (writes e.id) with
        | (.ok (), w) => flushEvicted writes es w
        | (.error err, w) => (.error err, w)

/-- `FsStore::load_state`: a missing checkpoint reads as an empty state. -/
def loadState (w : Flusher) (dir : Path) : LoadResult → Except String GraphState
  | .ok => .ok ((w.disk dir).getD .empty)
  | .unreadable e => .error (storeError dir e)
  | .corrupt e => .error (parseError e)

def stateOf (w : Flusher) (p : Project) (load : LoadResult) (writes : String → WriteResult) :
    Except String GraphState × Flusher :=
  let w := w.remember p
  match w.cache.getArc p.id with
  | (some state, cache) => (.ok state, { w with cache := cache })
  | (none, _) =>
    match w.loadState p.outputDir load with
    | .error err => (.error err, w)
    | .ok state =>
      let (cache, evicted) := w.cache.loadInto p.id state
      let (arc, cache) := cache.getArc p.id
      match flushEvicted writes evicted { w with cache := cache } with
      | (.error err, w) => (.error err, w)
      | (.ok (), w) =>
        match arc with
        | some state => (.ok state, w)
        | none => (.error (vanished p.id), w)

/-- Start, or extend, the dirty window. -/
def mark (w : Flusher) (id : String) (now : ℕ) : Flusher :=
  { w with dirty := w.dirty.alter id fun d => some ⟨(d.map Dirty.firstDirty).getD now, now⟩ }

def recordApply (w : Flusher) (p : Project) (fresh : GraphState) (persistence : Persistence)
    (now : ℕ) (writes : String → WriteResult) : Except String Unit × Flusher :=
  let w := w.remember p
  match persistence with
  | .flush =>
    match w.writeState p.outputDir fresh (writes p.id) with
    | (.error err, w) => (.error err, w)
    | (.ok (), w) =>
      let (cache, evicted) := w.cache.loadInto p.id fresh
      flushEvicted writes evicted { w with cache := cache, dirty := w.dirty.erase p.id }
  | .defer =>
    let (cache, evicted) := w.cache.put p.id fresh
    flushEvicted writes evicted ({ w with cache := cache }.mark p.id now)

def flushLocked (w : Flusher) (id : String) (writes : String → WriteResult) :
    Except String Bool × Flusher :=
  if !w.isDirty id then (.ok false, w)
  else
    match w.outDirs[id]? with
    | none => (.error (unknownDir id), w)
    | some dir =>
      match w.cache.peekArc id with
      | none => (.error (notResident id), { w with dirty := w.dirty.erase id })
      | some state =>
        match w.writeState dir state (writes id) with
        | (.error err, w) => (.error err, w)
        | (.ok (), w) =>
          (.ok true, { w with cache := w.cache.markClean id, dirty := w.dirty.erase id })

def flushProject (w : Flusher) (id : String) (writes : String → WriteResult) :
    Except String Bool × Flusher :=
  if !w.isDirty id then (.ok false, w) else w.flushLocked id writes

/-- The projects that are quiescent for longer than the window, or dirty for longer than
the cap. -/
def due (w : Flusher) (now : ℕ) : List String :=
  (w.dirty.toList.filter fun d => decide (w.cfg.quiescence ≤ now - d.2.lastApply ∨
    w.cfg.maxDirtyAge ≤ now - d.2.firstDirty)).map Prod.fst

/-- Flush the listed projects, and collect the failures. -/
def flushEach (writes : String → WriteResult) : List String → Flusher →
    List (String × String) × Flusher
  | [], w => ([], w)
  | id :: ids, w =>
    match w.flushProject id writes with
    | (.ok _, w) => flushEach writes ids w
    | (.error err, w) =>
      let (failures, w) := flushEach writes ids w
      ((id, err) :: failures, w)

/-! ### Runs -/

/-- A call, with how its reads and writes turn out. `flush_due` and `flush_all` take the
dirty projects in the order the map yields them. -/
inductive Call
  | recordApply (p : Project) (fresh : GraphState) (persistence : Persistence) (now : ℕ)
      (writes : String → WriteResult)
  | flushProject (id : String) (writes : String → WriteResult)
  | flushDue (now : ℕ) (ids : List String) (writes : String → WriteResult)
  | flushAll (ids : List String) (writes : String → WriteResult)
  | stateOf (p : Project) (load : LoadResult) (writes : String → WriteResult)

/-- The errors a result reports. -/
def errors {α : Type} : Except String α → List String
  | .ok _ => []
  | .error err => [err]

/-- A failed flush is reported with its project. -/
def failure (f : String × String) : String := f.1 ++ ": " ++ f.2

/-- One call: the errors it reports, and the flusher after it. -/
def step (w : Flusher) : Call → List String × Flusher
  | .recordApply p fresh persistence now writes =>
    let (r, w) := w.recordApply p fresh persistence now writes
    (errors r, w)
  | .flushProject id writes =>
    let (r, w) := w.flushProject id writes
    (errors r, w)
  | .flushDue _ ids writes | .flushAll ids writes =>
    let (failures, w) := flushEach writes ids w
    (failures.map failure, w)
  | .stateOf p load writes =>
    let (r, w) := w.stateOf p load writes
    (errors r, w)

/-- The calls the daemon makes: on registered projects, and on the dirty ones. -/
def Allowed (registry : ProjectRegistry) (w : Flusher) : Call → Prop
  | .recordApply p _ _ _ _ | .stateOf p _ _ => registry[p.id]? = some p
  | .flushProject _ _ => True
  | .flushDue now ids _ => ids.Perm (w.due now)
  | .flushAll ids _ => ids.Perm w.dirty.keys

/-- The state a call records for a project, if it does. -/
def Call.recorded (id : String) : Call → Option GraphState
  | .recordApply p fresh persistence _ writes =>
    if p.id = id ∧ (persistence = .flush → writes p.id = .ok) then some fresh else none
  | _ => none

/-- The state recorded last for a project, in a history (newest first) that begins with the
flusher `w₀`, and the errors reported since. -/
def latest (w₀ : Flusher) : List (Call × List String) → String → Option (GraphState × List String)
  | [], id => if w₀.isDirty id then (w₀.cache.graphs[id]?).map fun s => (s, []) else none
  | e :: older, id =>
    match e.1.recorded id with
    | some s => some (s, e.2)
    | none => (latest w₀ older id).map fun x => (x.1, e.2 ++ x.2)

/-- Does the error name the project, by its id or by its output directory? -/
def names (err : String) (p : Project) : Bool :=
  Text.contains err p.id || Text.contains err (Path.display p.outputDir)

/-- Every project whose latest state is not on disk is resident with it and dirty, or an
error reported since names it. -/
def Kept (registry : ProjectRegistry) (last : String → Option (GraphState × List String))
    (w : Flusher) : Prop :=
  ∀ (id : String) (p : Project) s since, registry[id]? = some p → last id = some (s, since) →
    w.disk p.outputDir = some s ∨ (w.cache.graphs[id]? = some s ∧ w.isDirty id = true) ∨
      ∃ err ∈ since, names err p = true

/-- A call that records and fails leaves its project as it was. -/
def Atomic (w : Flusher) : Call → Prop
  | .recordApply p fresh persistence now writes =>
    ∀ err, (w.recordApply p fresh persistence now writes).1 = .error err →
      (w.recordApply p fresh persistence now writes).2.cache.graphs[p.id]?
          = w.cache.graphs[p.id]? ∧
        (w.recordApply p fresh persistence now writes).2.isDirty p.id = w.isDirty p.id
  | _ => True

/-- The project that makes room for `id`: the one used least recently. -/
def victim (cache : ProjectStateCache GraphState) (id : String) : Option String :=
  if id ∈ cache.graphs ∨ cache.graphs.size < cache.capacity then none else cache.order.head?

/-- The write-back of the project that makes room, if it is dirty, does not fail; in
`state_of` it may fail at the file. -/
def Safe (w : Flusher) : Call → Prop
  | .recordApply p _ persistence _ writes => (persistence = .flush → writes p.id = .ok) →
    ∀ v, victim w.cache p.id = some v → w.isDirty v = true → writes v = .ok
  | .stateOf p .ok writes =>
    ∀ v, victim w.cache p.id = some v → w.isDirty v = true → ∀ e, writes v ≠ .noDir e
  | _ => True

/-- A flusher over a set of projects: the resident states fit, exactly the dirty ones are
to be written back, and their checkpoints are known. -/
structure Consistent (registry : ProjectRegistry) (w : Flusher) : Prop where
  wf : w.cache.Wf
  dirty : ∀ id, w.isDirty id = true ↔ id ∈ w.cache.dirty
  known : ∀ id, w.isDirty id = true → id ∈ w.outDirs
  dirs : ∀ (id : String) (dir : Path), w.outDirs[id]? = some dir →
    ∃ p, registry[id]? = some p ∧ dir = p.outputDir

/-- The projects of a registry, each with its own output directory. -/
def Registered (registry : ProjectRegistry) : Prop :=
  ∀ (id : String) (p : Project), registry[id]? = some p → Flush.Derived p ∧ p.id = id

/-- The histories and flushers of the runs that begin with `w₀`. -/
inductive Run (registry : ProjectRegistry) (ok : Flusher → Call → Prop) (w₀ : Flusher) :
    List (Call × List String) → Flusher → Prop
  | start : Run registry ok w₀ [] w₀
  | step {h : List (Call × List String)} {w : Flusher} {c : Call} : Run registry ok w₀ h w →
      Allowed registry w c → ok w c → Run registry ok w₀ ((c, (w.step c).1) :: h) (w.step c).2

/-! ### Names in errors -/

theorem contains_append (pre sub post : String) :
    Text.contains (pre ++ sub ++ post) sub = true := by
  rw [Text.contains, List.any_eq_true]
  refine ⟨sub.toList ++ post.toList, ?_, ?_⟩
  · rw [List.mem_tails, String.toList_append, String.toList_append, List.append_assoc]
    exact List.suffix_append _ _
  · rw [List.isPrefixOf_iff_prefix]
    exact List.prefix_append _ _

theorem storeError_eq (dir : Path) (e : String) : storeError dir e
    = "core error: storage: " ++ Path.display dir ++ ("/state.json" ++ (": " ++ e)) := by
  unfold storeError
  rw [String.append_assoc, String.append_assoc, String.append_assoc, String.append_assoc]

/-- An error of the store has the path of the checkpoint in it. -/
theorem contains_storeError (dir : Path) (e : String) :
    Text.contains (storeError dir e) (Path.display dir) = true := by
  rw [storeError_eq]
  exact contains_append _ _ _

theorem names_storeError (p : Project) (e : String) : names (storeError p.outputDir e) p = true := by
  rw [names, contains_storeError, Bool.or_true]

/-! ### What one insertion pages out -/

section Victim

variable {cache cache' : ProjectStateCache GraphState} {evicted : List (Evicted GraphState)}
  {id : String} {state : GraphState} {d : Bool}

/-- Insertion pages out the victim, or nothing. -/
theorem victim_cases (h : cache.Wf) (hinsert : cache.insert id state d = (cache', evicted)) :
    (evicted = [] ∧ cache'.graphs = cache.graphs.insert id state) ∨
    ∃ v sv, victim cache id = some v ∧ v ≠ id ∧ cache.graphs[v]? = some sv ∧
      cache'.graphs = (cache.graphs.insert id state).erase v ∧
      evicted = [⟨v, if v ∈ cache.dirty then some sv else none⟩] := by
  rcases ProjectStateCache.insert_wf_cases h hinsert with ⟨rfl, -, rfl⟩ |
    ⟨v, rest, sv, horder, hne, hsv, hcache, -, hevicted⟩
  · exact Or.inl ⟨rfl, rfl⟩
  · refine Or.inr ⟨v, sv, ?_, hne, hsv, by rw [hcache], hevicted⟩
    have hfull : ¬ (id ∈ cache.graphs ∨ cache.graphs.size < cache.capacity) := by
      -- with room nothing would have been paged out
      intro hroom
      have hsize : (cache.graphs.insert id state).size ≤ cache.capacity := by
        rw [Std.ExtTreeMap.size_insert]
        have := h.size
        rcases hroom with hmem | hlt
        · rw [if_pos (Std.ExtTreeMap.contains_iff_mem.mpr hmem)]
          exact h.size
        · split <;> omega
      unfold ProjectStateCache.insert at hinsert
      rw [ProjectStateCache.evict_of_room _ _ hsize] at hinsert
      have hnil : [] = evicted := congrArg Prod.snd hinsert
      rw [← hnil] at hevicted
      cases hevicted
    rw [victim, if_neg hfull]
    have hid : id ∉ cache.order := fun hmem => hfull (Or.inl (h.mem_order.mp hmem))
    have htouch : (cache.touch id).order = cache.order ++ [id] := by
      show cache.order.erase id ++ [id] = _
      rw [List.erase_of_not_mem hid]
    rw [htouch] at horder
    cases hcases : cache.order with
    | nil =>
        rw [hcases] at horder
        exact absurd (List.cons.inj horder).1.symm hne
    | cons first others =>
        rw [hcases] at horder
        rw [List.head?_cons, (List.cons.inj horder).1]

end Victim

variable {registry : ProjectRegistry} {w w' : Flusher} {id : String} {p q : Project}
  {writes : String → WriteResult}

theorem isDirty_iff : w.isDirty id = true ↔ id ∈ w.dirty :=
  Std.ExtTreeMap.isSome_getElem?_iff_mem

@[simp] theorem isDirty_erase (i : String) :
    ({ w with dirty := w.dirty.erase id } : Flusher).isDirty i
      = if id = i then false else w.isDirty i := by
  unfold isDirty
  dsimp only
  rw [BTreeMap.get_erase]
  split <;> rfl

@[simp] theorem isDirty_mark (now : ℕ) (i : String) :
    (w.mark id now).isDirty i = if id = i then true else w.isDirty i := by
  unfold isDirty mark
  dsimp only
  rw [Std.ExtTreeMap.getElem?_alter]
  simp only [compare_eq_iff_eq]
  split <;> rfl

theorem outputDir_ne (hreg : Registered registry) {i j : String} (hp : registry[i]? = some p)
    (hq : registry[j]? = some q) (hne : i ≠ j) : p.outputDir ≠ q.outputDir := by
  obtain ⟨⟨hpid, hpdir⟩, hpi⟩ := hreg i p hp
  obtain ⟨⟨hqid, hqdir⟩, hqj⟩ := hreg j q hq
  intro heq
  rw [hpdir, hqdir, Project.new_outputDir_inj] at heq
  rw [← hpi, ← hqj, hpid, hqid, heq] at hne
  exact hne rfl

/-- The flusher knows where the checkpoint of each of its dirty projects is. -/
theorem Consistent.dir_of_dirty (h : Consistent registry w) (hid : w.isDirty id = true) :
    ∃ p, registry[id]? = some p ∧ w.outDirs[id]? = some p.outputDir := by
  obtain ⟨dir, hdir⟩ := Option.isSome_iff_exists.mp
    (Std.ExtTreeMap.isSome_getElem?_iff_mem.mpr (h.known id hid))
  obtain ⟨p, hp, rfl⟩ := h.dirs id dir hdir
  exact ⟨p, hp, hdir⟩

/-- The effect of inserting the state of `id` and writing back what that pages out. `before`
is the flusher before, `disk` the checkpoints before the write-back. -/
structure Paged (registry : ProjectRegistry) (before : Flusher) (disk : Path → Option GraphState)
    (id : String) (state : GraphState) (d : Bool) (writes : String → WriteResult)
    (r : Except String Unit) (w : Flusher) : Prop where
  consistent : Consistent registry w
  inserted : w.cache.graphs[id]? = some state ∧ w.isDirty id = d
  saved : ∀ p, registry[id]? = some p → w.disk p.outputDir = disk p.outputDir
  /-- Only a dirty victim's write-back fails. -/
  result : (r = .ok ()) ∨ ∃ v, victim before.cache id = some v ∧ before.isDirty v = true ∧
    writes v ≠ .ok
  /-- Another project is as before, or it was the victim. -/
  others : ∀ i q, i ≠ id → registry[i]? = some q →
    (w.cache.graphs[i]? = before.cache.graphs[i]? ∧ w.isDirty i = before.isDirty i ∧
      w.disk q.outputDir = disk q.outputDir) ∨
    (victim before.cache id = some i ∧ w.isDirty i = false ∧
      (before.isDirty i = false → w.disk q.outputDir = disk q.outputDir) ∧
      (before.isDirty i = true → ∀ s, before.cache.graphs[i]? = some s →
        match writes i with
        | .ok => w.disk q.outputDir = some s
        | .noFile e => r = .error (storeError q.outputDir e)
        | .noDir _ => True))

/-- The cache of the flusher holds what `cache` holds, in some order. -/
structure Holds (w : Flusher) (cache : ProjectStateCache GraphState) : Prop where
  wf : w.cache.Wf
  graphs : w.cache.graphs = cache.graphs
  dirty : w.cache.dirty = cache.dirty

section Paging

variable {before : Flusher} {cache : ProjectStateCache GraphState}
  {evicted : List (Evicted GraphState)} {state : GraphState} {d : Bool}

/-- A project that is not paged out has its flag in the cache. -/
theorem flag_of_insert (hbefore : Consistent registry before)
    (hinsert : before.cache.insert id state d = (cache, evicted))
    (hdirty : ∀ i, w.isDirty i = if id = i then d else before.isDirty i) {i : String}
    (hi : ∀ e ∈ evicted, e.id ≠ i) : w.isDirty i = true ↔ i ∈ cache.dirty := by
  rcases ProjectStateCache.insert_cases hinsert i with ⟨-, hd⟩ | ⟨_, -, -, -, hmem⟩
  · rw [hdirty, hd]
    split
    · rfl
    · exact hbefore.dirty i
  · exact absurd rfl (hi _ hmem)

/-- Where every known checkpoint is, after the inserted project was remembered. -/
theorem known_of_insert (hbefore : Consistent registry before)
    (hdirty : ∀ i, w.isDirty i = if id = i then d else before.isDirty i)
    (hdirs : w.outDirs = before.outDirs) (hp : before.outDirs[id]? = some p.outputDir) {i : String}
    (hi : w.isDirty i = true) : i ∈ w.outDirs := by
  rw [hdirs]
  rw [hdirty] at hi
  split at hi
  · rename_i heq
    rw [← heq]
    exact Std.ExtTreeMap.isSome_getElem?_iff_mem.mp (Option.isSome_of_eq_some hp)
  · exact hbefore.known i hi

theorem paged_none (writes : String → WriteResult) (hbefore : Consistent registry before)
    (hinsert : before.cache.insert id state d = (cache, [])) (hcache : w.Holds cache)
    (hgraphs : cache.graphs = before.cache.graphs.insert id state)
    (hdirty : ∀ i, w.isDirty i = if id = i then d else before.isDirty i)
    (hdirs : w.outDirs = before.outDirs) (hp : before.outDirs[id]? = some p.outputDir) :
    Paged registry before w.disk id state d writes (.ok ()) w := by
  refine ⟨⟨hcache.wf, ?_, ?_, ?_⟩, ⟨?_, ?_⟩, fun _ _ => rfl, Or.inl rfl, ?_⟩
  · intro i
    rw [hcache.dirty]
    exact flag_of_insert hbefore hinsert hdirty (by simp)
  · intro i hi
    exact known_of_insert hbefore hdirty hdirs hp hi
  · rw [hdirs]
    exact hbefore.dirs
  · rw [hcache.graphs, hgraphs]
    exact Std.ExtTreeMap.getElem?_insert_self
  · rw [hdirty, if_pos rfl]
  · intro i q hi _
    refine Or.inl ⟨?_, ?_, rfl⟩
    · rw [hcache.graphs, hgraphs, BTreeMap.get_insert, if_neg (Ne.symm hi)]
    · rw [hdirty, if_neg (Ne.symm hi)]

/-- The flusher after the victim `v` was written back, or not. -/
theorem paged_some {v : String} {sv : GraphState} {disk : Path → Option GraphState}
    {r : Except String Unit} (writes : String → WriteResult) (hbefore : Consistent registry before)
    (hinsert : before.cache.insert id state d = (cache, evicted)) (hcache : w.Holds cache)
    (hvictim : victim before.cache id = some v) (hne : v ≠ id)
    (hsv : before.cache.graphs[v]? = some sv)
    (hgraphs : cache.graphs = (before.cache.graphs.insert id state).erase v)
    (hevicted : evicted = [⟨v, if v ∈ before.cache.dirty then some sv else none⟩])
    (hdirty : ∀ i, w.isDirty i = if id = i then d else before.isDirty i)
    (hdirs : w.outDirs = before.outDirs) (hp : before.outDirs[id]? = some p.outputDir)
    (hresult : r = .ok () ∨ before.isDirty v = true ∧ writes v ≠ .ok)
    (hdisk : ∀ i q, i ≠ v → registry[i]? = some q → disk q.outputDir = w.disk q.outputDir)
    (hclean : before.isDirty v = false → ∀ q, registry[v]? = some q →
      disk q.outputDir = w.disk q.outputDir)
    (hwrite : before.isDirty v = true → ∀ q, registry[v]? = some q →
      match writes v with
      | .ok => disk q.outputDir = some sv
      | .noFile e => r = .error (storeError q.outputDir e)
      | .noDir _ => True) :
    Paged registry before w.disk id state d writes r
      { w with dirty := w.dirty.erase v, disk := disk } := by
  have hdirty' : ∀ i, ({ w with dirty := w.dirty.erase v, disk := disk } : Flusher).isDirty i
      = if v = i then false else w.isDirty i := isDirty_erase
  refine ⟨⟨hcache.wf, ?_, ?_, ?_⟩, ⟨?_, ?_⟩, ?_, ?_, ?_⟩
  · intro i
    show _ ↔ i ∈ w.cache.dirty
    rw [hdirty', hcache.dirty]
    by_cases hi : v = i
    · -- the victim is not dirty any more
      rw [if_pos hi]
      rcases ProjectStateCache.insert_cases hinsert i with ⟨hg, -⟩ | ⟨_, -, -, hclean, -⟩
      · rw [hgraphs, BTreeMap.get_erase, if_pos hi, if_neg (hi ▸ Ne.symm hne), ← hi, hsv] at hg
        cases hg
      · simp [hclean]
    · rw [if_neg hi]
      refine flag_of_insert hbefore hinsert hdirty ?_
      intro e he
      rw [hevicted, List.mem_singleton] at he
      rw [he]
      exact hi
  · intro i hi
    rw [hdirty'] at hi
    split at hi
    · cases hi
    · exact known_of_insert hbefore hdirty hdirs hp hi
  · show ∀ (i : String) (dir : Path), w.outDirs[i]? = some dir → _
    rw [hdirs]
    exact hbefore.dirs
  · show w.cache.graphs[id]? = some state
    rw [hcache.graphs, hgraphs, BTreeMap.get_erase, if_neg hne]
    exact Std.ExtTreeMap.getElem?_insert_self
  · rw [hdirty', if_neg hne, hdirty, if_pos rfl]
  · intro q hq
    exact hdisk id q (Ne.symm hne) hq
  · rcases hresult with hr | ⟨hdirty, hfail⟩
    · exact Or.inl hr
    · exact Or.inr ⟨v, hvictim, hdirty, hfail⟩
  · intro i q hi hq
    by_cases hv : v = i
    · subst hv
      refine Or.inr ⟨hvictim, by rw [hdirty', if_pos rfl], fun h => hclean h q hq, ?_⟩
      intro h s hs
      rw [hsv] at hs
      cases Option.some.inj hs
      exact hwrite h q hq
    · refine Or.inl ⟨?_, ?_, hdisk i q (Ne.symm hv) hq⟩
      · show w.cache.graphs[i]? = _
        rw [hcache.graphs, hgraphs, BTreeMap.get_erase, if_neg hv, BTreeMap.get_insert,
          if_neg (Ne.symm hi)]
      · rw [hdirty', if_neg hv, hdirty, if_neg (Ne.symm hi)]

/-- What an insertion and the write-back after it do. -/
theorem paged (before w : Flusher) (writes : String → WriteResult) (hreg : Registered registry)
    (hbefore : Consistent registry before)
    (hinsert : before.cache.insert id state d = (cache, evicted)) (hcache : w.Holds cache)
    (hdirty : ∀ i, w.isDirty i = if id = i then d else before.isDirty i)
    (hdirs : w.outDirs = before.outDirs) (hp : before.outDirs[id]? = some p.outputDir) :
    Paged registry before w.disk id state d writes (flushEvicted writes evicted w).1
      (flushEvicted writes evicted w).2 := by
  rcases victim_cases hbefore.wf hinsert with ⟨rfl, hgraphs⟩ |
    ⟨v, sv, hvictim, hne, hsv, hgraphs, hevicted⟩
  · exact paged_none writes hbefore hinsert hcache hgraphs hdirty hdirs hp
  · by_cases hclean : before.isDirty v = true
    · have hmark : v ∈ before.cache.dirty := (hbefore.dirty v).mp hclean
      have hone : evicted = [⟨v, some sv⟩] := by rw [hevicted, if_pos hmark]
      obtain ⟨q, hq, hdir⟩ := hbefore.dir_of_dirty hclean
      have hother : ∀ i q', i ≠ v → registry[i]? = some q' →
          Function.update w.disk q.outputDir (some sv) q'.outputDir = w.disk q'.outputDir := by
        intro i q' hi hq'
        rw [Function.update_of_ne (outputDir_ne hreg hq' hq hi)]
      have hout : w.outDirs[v]? = some q.outputDir := by rw [hdirs, hdir]
      cases hw : writes v with
      | ok =>
          have hrun : flushEvicted writes evicted w = (.ok (), { w with
              dirty := w.dirty.erase v, disk := Function.update w.disk q.outputDir (some sv) }) := by
            rw [hone]
            simp only [flushEvicted, hout, hw, writeState]
          rw [hrun]
          refine paged_some writes hbefore hinsert hcache hvictim hne hsv hgraphs hevicted hdirty hdirs hp
            (Or.inl rfl) hother (fun h => absurd hclean (by rw [h]; exact Bool.false_ne_true)) ?_
          intro _ q' hq'
          rw [hq] at hq'
          cases hq'
          rw [hw]
          exact Function.update_self ..
      | noDir e =>
          have hrun : flushEvicted writes evicted w
              = (.error (ioError e), { w with dirty := w.dirty.erase v }) := by
            rw [hone]
            simp only [flushEvicted, hout, hw, writeState]
          rw [hrun]
          refine paged_some writes hbefore hinsert hcache hvictim hne hsv hgraphs hevicted hdirty hdirs hp
            (Or.inr ⟨hclean, by rw [hw]; simp⟩) (fun _ _ _ _ => rfl) (fun _ _ _ => rfl) ?_
          intro _ _ _
          rw [hw]
          trivial
      | noFile e =>
          have hrun : flushEvicted writes evicted w
              = (.error (storeError q.outputDir e), { w with dirty := w.dirty.erase v }) := by
            rw [hone]
            simp only [flushEvicted, hout, hw, writeState]
          rw [hrun]
          refine paged_some writes hbefore hinsert hcache hvictim hne hsv hgraphs hevicted hdirty hdirs hp
            (Or.inr ⟨hclean, by rw [hw]; simp⟩) (fun _ _ _ _ => rfl) (fun _ _ _ => rfl) ?_
          intro _ q' hq'
          rw [hq] at hq'
          cases hq'
          rw [hw]
    · have hmark : v ∉ before.cache.dirty := fun h => hclean ((hbefore.dirty v).mpr h)
      have hone : evicted = [⟨v, none⟩] := by rw [hevicted, if_neg hmark]
      have hrun : flushEvicted writes evicted w = (.ok (), { w with dirty := w.dirty.erase v }) := by
        rw [hone]
        simp only [flushEvicted]
      rw [hrun]
      exact paged_some writes hbefore hinsert hcache hvictim hne hsv hgraphs hevicted hdirty hdirs hp
        (Or.inl rfl) (fun _ _ _ _ => rfl) (fun _ _ _ => rfl) (fun h => absurd h hclean)

end Paging

/-! ### What a call keeps -/

/-- The state recorded last for a project: it is resident while the project is dirty, and
else on disk, unless an error names the project. -/
def KeptAt (last : String → Option (GraphState × List String)) (w : Flusher) (id : String)
    (p : Project) : Prop :=
  ∀ s since, last id = some (s, since) →
    (w.isDirty id = true → w.cache.graphs[id]? = some s) ∧
    (w.isDirty id = false → w.disk p.outputDir = some s ∨ ∃ err ∈ since, names err p = true)

/-- A consistent flusher that has kept the work. -/
structure Faithful (registry : ProjectRegistry) (last : String → Option (GraphState × List String))
    (w : Flusher) : Prop extends Consistent registry w where
  keptAt : ∀ (id : String) (p : Project), registry[id]? = some p → KeptAt last w id p

theorem Faithful.kept {last : String → Option (GraphState × List String)}
    (h : Faithful registry last w) : Kept registry last w := by
  intro id p s since hp hlast
  obtain ⟨hdirty, hclean⟩ := h.keptAt id p hp s since hlast
  cases hflag : w.isDirty id with
  | true => exact Or.inr (Or.inl ⟨hdirty hflag, rfl⟩)
  | false =>
      rcases hclean hflag with hdisk | hnamed
      · exact Or.inl hdisk
      · exact Or.inr (Or.inr hnamed)

/-- The states recorded last, after a call that reports `errs`. -/
def extend (c : Call) (errs : List String) (last : String → Option (GraphState × List String))
    (id : String) : Option (GraphState × List String) :=
  match c.recorded id with
  | some s => some (s, errs)
  | none => (last id).map fun x => (x.1, errs ++ x.2)

section Steps

variable {last : String → Option (GraphState × List String)} {c : Call} {errs : List String}
  {state fresh : GraphState} {d : Bool}

theorem keptAt_recorded (hrecorded : c.recorded id = some state)
    (hdirty : w.isDirty id = true → w.cache.graphs[id]? = some state)
    (hclean : w.isDirty id = false → w.disk p.outputDir = some state) :
    KeptAt (extend c errs last) w id p := by
  intro s since hlast
  rw [extend, hrecorded] at hlast
  cases hlast
  exact ⟨hdirty, fun h => Or.inl (hclean h)⟩

/-- A project the call does not record: its last state is the one before, with more errors. -/
theorem keptAt_extend (hrecorded : c.recorded id = none)
    (h : ∀ s since, last id = some (s, since) →
      (w.isDirty id = true → w.cache.graphs[id]? = some s) ∧
      (w.isDirty id = false → w.disk p.outputDir = some s ∨ ∃ err ∈ errs ++ since, names err p = true)) :
    KeptAt (extend c errs last) w id p := by
  intro s since hlast
  rw [extend, hrecorded] at hlast
  obtain ⟨⟨s', since'⟩, hlast', hpair⟩ := Option.map_eq_some_iff.mp hlast
  cases hpair
  exact h _ since' hlast'

theorem keptAt_same (hrecorded : c.recorded id = none) (h : KeptAt last w id p)
    (hgraphs : w'.cache.graphs[id]? = w.cache.graphs[id]?) (hdirty : w'.isDirty id = w.isDirty id)
    (hdisk : w'.disk p.outputDir = w.disk p.outputDir) : KeptAt (extend c errs last) w' id p := by
  apply keptAt_extend hrecorded
  intro s since hlast
  rw [hgraphs, hdirty, hdisk]
  obtain ⟨hkeep, hclean⟩ := h s since hlast
  refine ⟨hkeep, fun hflag => ?_⟩
  rcases hclean hflag with hsaved | ⟨err, hmem, hname⟩
  · exact Or.inl hsaved
  · exact Or.inr ⟨err, List.mem_append_right _ hmem, hname⟩

/-- Another project, when the write-back of the victim succeeds or is reported by path. -/
theorem keptAt_paged {before : Flusher} {disk : Path → Option GraphState} {r : Except String Unit}
    {i : String} (hrecorded : c.recorded i = none) (hi : i ≠ id) (hq : registry[i]? = some q)
    (h : KeptAt last before i q) (hpaged : Paged registry before disk id state d writes r w)
    (hdisk : disk q.outputDir = before.disk q.outputDir)
    (hsafe : victim before.cache id = some i → before.isDirty i = true → ∀ e, writes i ≠ .noDir e)
    (herrs : ∀ err, r = .error err → err ∈ errs) : KeptAt (extend c errs last) w i q := by
  rcases hpaged.others i q hi hq with ⟨hgraphs, hdirty, hsame⟩ | ⟨hvictim, hgone, hclean, hwrite⟩
  · exact keptAt_same hrecorded h hgraphs hdirty (hsame.trans hdisk)
  · -- the victim: its state was resident, and is on disk now or reported
    apply keptAt_extend hrecorded
    intro s since hlast
    obtain ⟨hkeep, hold⟩ := h s since hlast
    rw [hgone]
    refine ⟨fun h => (by cases h), fun _ => ?_⟩
    cases hflag : before.isDirty i with
    | false =>
        rcases hold hflag with hsaved | ⟨err, hmem, hname⟩
        · exact Or.inl (((hclean hflag).trans hdisk).trans hsaved)
        · exact Or.inr ⟨err, List.mem_append_right _ hmem, hname⟩
    | true =>
        have hwrite' := hwrite hflag s (hkeep hflag)
        cases hw : writes i with
        | ok =>
            rw [hw] at hwrite'
            exact Or.inl hwrite'
        | noFile e =>
            rw [hw] at hwrite'
            exact Or.inr ⟨_, List.mem_append_left _ (herrs _ hwrite'), names_storeError q e⟩
        | noDir e => exact absurd hw (hsafe hvictim hflag e)

theorem Consistent.remember (h : Consistent registry w) (hp : registry[p.id]? = some p) :
    Consistent registry (w.remember p) where
  wf := h.wf
  dirty := h.dirty
  known := by
    intro id hid
    show id ∈ w.outDirs.insert p.id p.outputDir
    rw [Std.ExtTreeMap.mem_insert]
    exact Or.inr (h.known id hid)
  dirs := by
    intro id dir hdir
    change (w.outDirs.insert p.id p.outputDir)[id]? = some dir at hdir
    rw [BTreeMap.get_insert] at hdir
    split at hdir
    · rename_i heq
      exact ⟨p, heq ▸ hp, (Option.some.inj hdir).symm⟩
    · exact h.dirs id dir hdir

theorem remember_dir (w : Flusher) (p : Project) :
    (w.remember p).outDirs[p.id]? = some p.outputDir := Std.ExtTreeMap.getElem?_insert_self

theorem Consistent.resident (h : Consistent registry w) (hid : w.isDirty id = true) :
    ∃ s, w.cache.graphs[id]? = some s :=
  Option.isSome_iff_exists.mp (Std.ExtTreeMap.isSome_getElem?_iff_mem.mpr
    (h.wf.dirty id ((h.dirty id).mp hid)))

/-- A write that succeeds puts the state on disk; one that fails changes nothing. -/
theorem writeState_cases (w : Flusher) (dir : Path) (state : GraphState) (r : WriteResult) :
    (r = .ok ∧ w.writeState dir state r
      = (.ok (), { w with disk := Function.update w.disk dir (some state) })) ∨
    (r ≠ .ok ∧ ∃ err, w.writeState dir state r = (.error err, w)) := by
  cases r with
  | ok => exact Or.inl ⟨rfl, rfl⟩
  | noDir e => exact Or.inr ⟨by simp, _, rfl⟩
  | noFile e => exact Or.inr ⟨by simp, _, rfl⟩

/-- A state is inserted; `before` is the flusher before that. -/
theorem faithful_paged (before : Flusher) {r : Except String Unit} (hp : registry[p.id]? = some p)
    (hkept : ∀ (i : String) (q : Project), i ≠ p.id → registry[i]? = some q → KeptAt last before i q)
    (hpaged : Paged registry before before.disk p.id state d writes r w)
    (hrecorded : ∀ i, i ≠ p.id → c.recorded i = none)
    (hself : w.cache.graphs[p.id]? = some state → w.isDirty p.id = d →
      w.disk p.outputDir = before.disk p.outputDir → KeptAt (extend c errs last) w p.id p)
    (hsafe : ∀ i, victim before.cache p.id = some i → before.isDirty i = true →
      ∀ e, writes i ≠ .noDir e)
    (herrs : ∀ err, r = .error err → err ∈ errs) : Faithful registry (extend c errs last) w := by
  refine ⟨hpaged.consistent, ?_⟩
  intro i q hq
  by_cases hi : i = p.id
  · subst hi
    rw [hp] at hq
    cases hq
    exact hself hpaged.inserted.1 hpaged.inserted.2 (hpaged.saved p hp)
  · exact keptAt_paged (hrecorded i hi) hi hq (hkept i q hi hq) hpaged rfl (hsafe i) herrs

/-- A record whose own write fails has only remembered the project. -/
theorem recordApply_fails (w : Flusher) (p : Project) (fresh : GraphState) (now : ℕ)
    (h : writes p.id ≠ .ok) :
    ∃ err, w.recordApply p fresh .flush now writes = (.error err, w.remember p) := by
  rcases writeState_cases (w.remember p) p.outputDir fresh (writes p.id) with
    ⟨hok, -⟩ | ⟨-, err, hwrite⟩
  · exact absurd hok h
  · refine ⟨err, ?_⟩
    simp only [recordApply, hwrite]

/-- Any other record inserts the state, dirty when it is deferred, else after it is on disk. -/
theorem recordApply_paged (persistence : Persistence) (fresh : GraphState) (now : ℕ)
    (hreg : Registered registry) (h : Consistent registry w) (hp : registry[p.id]? = some p)
    (hok : persistence = .flush → writes p.id = .ok) :
    ∃ before : Flusher, before.cache = w.cache ∧ before.dirty = w.dirty ∧
      (∀ dir, dir ≠ p.outputDir → before.disk dir = w.disk dir) ∧
      (persistence = .flush → before.disk p.outputDir = some fresh) ∧
      Paged registry before before.disk p.id fresh (decide (persistence = .defer)) writes
        (w.recordApply p fresh persistence now writes).1
        (w.recordApply p fresh persistence now writes).2 := by
  have hremember := h.remember hp
  cases persistence with
  | flush =>
      cases hinsert : (w.remember p).cache.loadInto p.id fresh with
      | mk cache evicted =>
          have hrun : w.recordApply p fresh .flush now writes = flushEvicted writes evicted
              { w.remember p with
                cache := cache
                dirty := w.dirty.erase p.id
                disk := Function.update w.disk p.outputDir (some fresh) } := by
            simp only [recordApply, hok rfl, writeState, hinsert]
            rfl
          have hwf : cache.Wf := hremember.wf.insert (d := false) hinsert
          rw [hrun]
          refine ⟨{ w.remember p with disk := Function.update w.disk p.outputDir (some fresh) }, rfl, rfl,
            fun dir hdir => Function.update_of_ne hdir _ _, fun _ => Function.update_self .., ?_⟩
          exact paged { w.remember p with disk := Function.update w.disk p.outputDir (some fresh) }
            { w.remember p with
              cache := cache
              dirty := w.dirty.erase p.id
              disk := Function.update w.disk p.outputDir (some fresh) }
            writes hreg ⟨hremember.wf, hremember.dirty, hremember.known, hremember.dirs⟩ hinsert
            ⟨hwf, rfl, rfl⟩ isDirty_erase rfl (remember_dir w p)
  | defer =>
      cases hinsert : (w.remember p).cache.put p.id fresh with
      | mk cache evicted =>
          have hrun : w.recordApply p fresh .defer now writes = flushEvicted writes evicted
              ({ w.remember p with cache := cache }.mark p.id now) := by
            simp only [recordApply, hinsert]
          have hwf : cache.Wf := hremember.wf.insert (d := true) hinsert
          rw [hrun]
          refine ⟨w.remember p, rfl, rfl, fun _ _ => rfl, fun h => (by cases h), ?_⟩
          exact paged (w.remember p) ({ w.remember p with cache := cache }.mark p.id now) writes hreg
            hremember hinsert ⟨hwf, rfl, rfl⟩
            (isDirty_mark now) rfl (remember_dir w p)

theorem faithful_recordApply (persistence : Persistence) (now : ℕ) (hreg : Registered registry)
    (h : Faithful registry last w) (hp : registry[p.id]? = some p)
    (hsafe : Safe w (.recordApply p fresh persistence now writes)) :
    Faithful registry (extend (.recordApply p fresh persistence now writes)
      (errors (w.recordApply p fresh persistence now writes).1) last)
      (w.recordApply p fresh persistence now writes).2 := by
  by_cases hok : persistence = .flush → writes p.id = .ok
  · have hrecorded : ∀ i, (Call.recordApply p fresh persistence now writes).recorded i
        = if p.id = i then some fresh else none := by
      intro i
      simp only [Call.recorded]
      by_cases hi : p.id = i
      · rw [if_pos hi, if_pos ⟨hi, hok⟩]
      · rw [if_neg hi, if_neg fun h => hi h.1]
    obtain ⟨before, hcache, hdirty, hdisk, hwritten, hpaged⟩ :=
      recordApply_paged persistence fresh now hreg h.toConsistent hp hok
    have hflags : ∀ i, before.isDirty i = w.isDirty i := by
      intro i
      rw [isDirty, isDirty, hdirty]
    refine faithful_paged before hp ?_ hpaged ?_ ?_ ?_ ?_
    · intro i q hi hq s since hlast
      rw [hflags, hcache, hdisk _ (outputDir_ne hreg hq hp hi)]
      exact h.keptAt i q hq s since hlast
    · intro i hi
      rw [hrecorded, if_neg (Ne.symm hi)]
    · intro hresident hflag hsaved
      refine keptAt_recorded ((hrecorded p.id).trans (if_pos rfl)) (fun _ => hresident) ?_
      intro hclean
      rw [hflag] at hclean
      rw [hsaved]
      apply hwritten
      cases persistence with
      | flush => rfl
      | defer => cases hclean
    · intro i hvictim hflag e hw
      rw [hcache] at hvictim
      rw [hsafe hok i hvictim (hflags i ▸ hflag)] at hw
      cases hw
    · intro err herr
      rw [herr]
      exact List.mem_singleton_self err
  · have hflush : persistence = .flush := by
      by_contra hne
      exact hok fun heq => absurd heq hne
    subst hflush
    have hfail : writes p.id ≠ .ok := fun heq => hok fun _ => heq
    obtain ⟨err, hrun⟩ := recordApply_fails w p fresh now hfail
    rw [hrun]
    refine ⟨h.toConsistent.remember hp, fun i q hq => keptAt_same ?_ (h.keptAt i q hq) rfl rfl rfl⟩
    simp [Call.recorded, hfail]

theorem getArc_holds {cache : ProjectStateCache GraphState} (h : cache.Wf) (id : String) :
    (cache.getArc id).2.Wf ∧ (cache.getArc id).2.graphs = cache.graphs ∧
      (cache.getArc id).2.dirty = cache.dirty := by
  refine ⟨?_, ProjectStateCache.getArc_graphs, ProjectStateCache.getArc_dirty⟩
  unfold ProjectStateCache.getArc
  split
  · rename_i s hs
    exact h.touch (Std.ExtTreeMap.isSome_getElem?_iff_mem.mp (Option.isSome_of_eq_some hs))
  · exact h

/-- What a call does that records nothing and changes no resident state, flag or checkpoint. -/
theorem faithful_same (hrecorded : ∀ i, c.recorded i = none) (h : Faithful registry last w)
    (hconsistent : Consistent registry w') (hgraphs : w'.cache.graphs = w.cache.graphs)
    (hdirty : w'.dirty = w.dirty) (hdisk : w'.disk = w.disk) :
    Faithful registry (extend c errs last) w' := by
  refine ⟨hconsistent, fun i q hq => keptAt_same (hrecorded i) (h.keptAt i q hq) ?_ ?_ ?_⟩
  · rw [hgraphs]
  · rw [isDirty, isDirty, hdirty]
  · rw [hdisk]

/-- A checkpoint that is read and inserted: the flusher after the write-back, whose failure
is the failure of the call. -/
theorem stateOf_load {load : LoadResult} {cache loaded : ProjectStateCache GraphState}
    {evicted : List (Evicted GraphState)} (hmiss : (w.remember p).cache.getArc p.id = (none, cache))
    (hload : (w.remember p).loadState p.outputDir load = .ok state)
    (hinsert : (w.remember p).cache.loadInto p.id state = (loaded, evicted)) :
    (∀ err, (flushEvicted writes evicted
        { w.remember p with cache := (loaded.getArc p.id).2 }).1 = .error err →
      (w.stateOf p load writes).1 = .error err) ∧
    (w.stateOf p load writes).2 = (flushEvicted writes evicted
      { w.remember p with cache := (loaded.getArc p.id).2 }).2 := by
  unfold stateOf
  dsimp only
  rw [hmiss]
  dsimp only
  rw [hload]
  dsimp only
  rw [hinsert]
  dsimp only
  generalize flushEvicted writes evicted { w.remember p with cache := (loaded.getArc p.id).2 } = run
  obtain ⟨r, w'⟩ := run
  cases r with
  | error err =>
      refine ⟨?_, rfl⟩
      intro err' herr
      cases herr
      rfl
  | ok u =>
      refine ⟨?_, ?_⟩
      · intro err herr
        cases herr
      · cases (loaded.getArc p.id).1 <;> rfl

theorem faithful_stateOf (hreg : Registered registry) (h : Faithful registry last w)
    (load : LoadResult) (hp : registry[p.id]? = some p) (hsafe : Safe w (.stateOf p load writes)) :
    Faithful registry (extend (.stateOf p load writes) (errors (w.stateOf p load writes).1) last)
      (w.stateOf p load writes).2 := by
  have hremember := h.toConsistent.remember hp
  have hrecorded : ∀ i, (Call.stateOf p load writes).recorded i = none := fun _ => rfl
  have hholds := getArc_holds hremember.wf p.id
  cases hhit : (w.remember p).cache.getArc p.id with
  | mk found cache =>
      rw [hhit] at hholds
      cases found with
      | some state =>
          have hrun : w.stateOf p load writes = (.ok state, { w.remember p with cache := cache }) := by
            simp only [stateOf, hhit]
          rw [hrun]
          refine faithful_same hrecorded h ⟨hholds.1, ?_, hremember.known, hremember.dirs⟩ hholds.2.1 rfl rfl
          show ∀ i, _ ↔ i ∈ cache.dirty
          rw [hholds.2.2]
          exact hremember.dirty
      | none =>
          have hmiss : (w.remember p).cache.graphs[p.id]? = none := by
            rw [← ProjectStateCache.getArc_fst, hhit]
          cases hload : (w.remember p).loadState p.outputDir load with
          | error err =>
              have hrun : w.stateOf p load writes = (.error err, w.remember p) := by
                simp only [stateOf, hhit, hload]
              rw [hrun]
              exact faithful_same hrecorded h hremember rfl rfl rfl
          | ok state =>
              -- what is not resident is not dirty
              have hclean : w.isDirty p.id = false := by
                rw [Bool.eq_false_iff]
                intro hflag
                obtain ⟨s, hs⟩ := hremember.resident hflag
                rw [hmiss] at hs
                cases hs
              cases hinsert : (w.remember p).cache.loadInto p.id state with
              | mk loaded evicted =>
                  have hloaded := getArc_holds (hremember.wf.insert hinsert) p.id
                  obtain ⟨hfst, hsnd⟩ := stateOf_load hhit hload hinsert
                  rw [hsnd]
                  have hdirty : ∀ i, w.isDirty i = if p.id = i then false else w.isDirty i := by
                    intro i
                    split
                    · rename_i hi
                      rw [← hi, hclean]
                    · rfl
                  have hpaged := paged (w.remember p)
                    { w.remember p with cache := (loaded.getArc p.id).2 } writes hreg hremember hinsert ⟨hloaded.1, hloaded.2.1, hloaded.2.2⟩ hdirty rfl
                    (remember_dir w p)
                  refine faithful_paged (w.remember p) hp (fun i q _ hq => h.keptAt i q hq) hpaged (fun _ _ => rfl)
                    ?_ ?_ ?_
                  · intro _ hflag hdisk
                    apply keptAt_extend rfl
                    intro s since hlast
                    rw [hflag, hdisk]
                    refine ⟨fun h => (by cases h), fun _ => ?_⟩
                    rcases (h.keptAt p.id p hp s since hlast).2 hclean with hsaved | ⟨err, hmem, hname⟩
                    · exact Or.inl hsaved
                    · exact Or.inr ⟨err, List.mem_append_right _ hmem, hname⟩
                  · intro i hvictim hflag e hw
                    cases load with
                    | ok => exact hsafe i hvictim hflag e hw
                    | unreadable _ => cases hload
                    | corrupt _ => cases hload
                  · intro err herr
                    rw [hfst err herr]
                    exact List.mem_singleton_self err

/-! ### Flushing -/

theorem flushLocked_faithful (id : String) (writes : String → WriteResult)
    (hreg : Registered registry) (h : Faithful registry last w) :
    Faithful registry last (w.flushLocked id writes).2 := by
  unfold flushLocked
  cases hflag : w.isDirty id with
  | false => exact h
  | true =>
      obtain ⟨p, hp, hdir⟩ := h.dir_of_dirty hflag
      obtain ⟨state, hstate⟩ := h.resident hflag
      rw [if_neg (by simp), hdir]
      dsimp only
      rw [ProjectStateCache.peekArc, hstate]
      dsimp only
      rcases writeState_cases w p.outputDir state (writes id) with ⟨-, hwrite⟩ | ⟨-, err, hwrite⟩
      · rw [hwrite]
        dsimp only
        have hdirty : ∀ i, ({ w with
            cache := w.cache.markClean id
            dirty := w.dirty.erase id
            disk := Function.update w.disk p.outputDir (some state) } : Flusher).isDirty i
              = if id = i then false else w.isDirty i := isDirty_erase
        refine ⟨⟨⟨h.wf.order, h.wf.size, h.wf.room, ?_⟩, ?_, ?_, h.dirs⟩, ?_⟩
        · intro i hi
          exact h.wf.dirty i (Finset.mem_of_mem_erase hi)
        · intro i
          rw [hdirty]
          show _ ↔ i ∈ w.cache.dirty.erase id
          rw [Finset.mem_erase, ← h.dirty i]
          by_cases hi : id = i
          · simp [hi]
          · simp [hi, Ne.symm hi]
        · intro i hi
          rw [hdirty] at hi
          split at hi
          · cases hi
          · exact h.known i hi
        · intro i q hq s since hlast
          rw [hdirty]
          obtain ⟨hkeep, hclean⟩ := h.keptAt i q hq s since hlast
          by_cases hi : id = i
          · -- the state that was written is the last one
            subst hi
            rw [if_pos rfl]
            refine ⟨fun h => (by cases h), fun _ => Or.inl ?_⟩
            rw [hp] at hq
            cases hq
            rw [hstate] at hkeep
            cases hkeep hflag
            exact Function.update_self ..
          · rw [if_neg hi]
            refine ⟨hkeep, fun hnot => ?_⟩
            show Function.update w.disk p.outputDir (some state) q.outputDir = some s ∨ _
            rw [Function.update_of_ne (outputDir_ne hreg hq hp (Ne.symm hi))]
            exact hclean hnot
      · rw [hwrite]
        exact h

theorem flushProject_faithful (id : String) (writes : String → WriteResult)
    (hreg : Registered registry) (h : Faithful registry last w) :
    Faithful registry last (w.flushProject id writes).2 := by
  unfold flushProject
  split
  · exact h
  · exact flushLocked_faithful id writes hreg h

theorem flushEach_faithful (ids : List String) (writes : String → WriteResult)
    (hreg : Registered registry) (h : Faithful registry last w) :
    Faithful registry last (flushEach writes ids w).2 := by
  induction ids generalizing w with
  | nil => exact h
  | cons id ids ih =>
      have hone := flushProject_faithful id writes hreg h
      unfold flushEach
      cases hrun : w.flushProject id writes with
      | mk r w' =>
          rw [hrun] at hone
          cases r with
          | ok b => exact ih hone
          | error err => exact ih hone

theorem Faithful.extend_none (hrecorded : ∀ i, c.recorded i = none) (h : Faithful registry last w) :
    Faithful registry (extend c errs last) w :=
  faithful_same hrecorded h h.toConsistent rfl rfl rfl

/-! ### Runs -/

theorem faithful_step (hreg : Registered registry) (h : Faithful registry last w)
    (hallowed : Allowed registry w c) (hsafe : Safe w c) :
    Faithful registry (extend c (w.step c).1 last) (w.step c).2 := by
  cases c with
  | recordApply p fresh persistence now writes =>
      exact faithful_recordApply persistence now hreg h hallowed hsafe
  | flushProject id writes =>
      exact (flushProject_faithful id writes hreg h).extend_none fun _ => rfl
  | flushDue now ids writes =>
      exact (flushEach_faithful ids writes hreg h).extend_none fun _ => rfl
  | flushAll ids writes =>
      exact (flushEach_faithful ids writes hreg h).extend_none fun _ => rfl
  | stateOf p load writes => exact faithful_stateOf hreg h load hallowed hsafe

/-- A consistent flusher has its dirty projects' last states resident. -/
theorem faithful_start (h : Consistent registry w) : Faithful registry (latest w []) w := by
  refine ⟨h, fun id p _ s since hlast => ?_⟩
  unfold latest at hlast
  split at hlast
  · rename_i hflag
    obtain ⟨s', hs', hpair⟩ := Option.map_eq_some_iff.mp hlast
    cases hpair
    exact ⟨fun _ => hs', fun hclean => by rw [hflag] at hclean; cases hclean⟩
  · cases hlast

theorem Run.faithful {w₀ : Flusher} {hist : List (Call × List String)} (hreg : Registered registry)
    (h₀ : Consistent registry w₀) (h : Run registry Safe w₀ hist w) :
    Faithful registry (latest w₀ hist) w := by
  induction h with
  | start => exact faithful_start h₀
  | step _ hallowed hsafe ih => exact faithful_step hreg ih hallowed hsafe

/-- A record that fails has failed before it changed the project. -/
theorem atomic_of_safe (hreg : Registered registry) (h : Consistent registry w)
    (hallowed : Allowed registry w c) (hsafe : Safe w c) : Atomic w c := by
  cases c with
  | recordApply p fresh persistence now writes =>
      intro err herr
      by_cases hok : persistence = .flush → writes p.id = .ok
      · obtain ⟨before, hcache, hdirty, -, -, hpaged⟩ :=
          recordApply_paged persistence fresh now hreg h hallowed hok
        rcases hpaged.result with hr | ⟨v, hv, hflag, hfail⟩
        · rw [hr] at herr
          cases herr
        · rw [hcache] at hv
          rw [isDirty, hdirty] at hflag
          exact absurd (hsafe hok v hv hflag) hfail
      · have hflush : persistence = .flush := by
          by_contra hne
          exact hok fun heq => absurd heq hne
        subst hflush
        obtain ⟨err', hrun⟩ := recordApply_fails w p fresh now fun heq => hok fun _ => heq
        rw [hrun]
        exact ⟨rfl, rfl⟩
  | _ => trivial

end Steps

/-- **A failed write keeps the work**, in every run in which no write-back of a paged-out
state fails in a `record_apply`, and none fails at its directory in a `state_of`. -/
theorem failed_write_keeps {w₀ w : Flusher} {hist : List (Call × List String)}
    (hreg : Registered registry) (h₀ : Consistent registry w₀) (h : Run registry Safe w₀ hist w) :
    Kept registry (latest w₀ hist) w ∧
      ∀ c, Allowed registry w c → Safe w c → Atomic w c := by
  have hfaithful := h.faithful hreg h₀
  exact ⟨hfaithful.kept, fun c => atomic_of_safe hreg hfaithful.toConsistent⟩

/-- A flusher that starts over the checkpoints of a file system. -/
def new (capacity : ℕ) (cfg : FlushConfig) (disk : Path → Option GraphState) : Flusher :=
  ⟨.new capacity, cfg, ∅, ∅, disk⟩

theorem new_consistent (registry : ProjectRegistry) (capacity : ℕ) (cfg : FlushConfig)
    (disk : Path → Option GraphState) : Consistent registry (new capacity cfg disk) where
  wf := ProjectStateCache.new_wf capacity
  dirty := by simp [new, isDirty, ProjectStateCache.new]
  known := by simp [new, isDirty]
  dirs := by simp [new]

/-! ### Two projects, room for one -/

def alpha : Project := .new ["/", "alpha"]

def beta : Project := .new ["/", "beta"]

def twoProjects : ProjectRegistry :=
  ((∅ : ProjectRegistry).insert "alpha" alpha).insert "beta" beta

theorem twoProjects_registered : Registered twoProjects := by
  intro id p hp
  unfold twoProjects at hp
  rw [BTreeMap.get_insert, BTreeMap.get_insert] at hp
  split at hp
  · rename_i hid
    cases hp
    exact ⟨⟨rfl, rfl⟩, hid⟩
  · split at hp
    · rename_i hid
      cases hp
      exact ⟨⟨rfl, rfl⟩, hid⟩
    · simp at hp

theorem alpha_registered : twoProjects[alpha.id]? = some alpha := by decide +kernel

theorem beta_registered : twoProjects[beta.id]? = some beta := by decide +kernel

def oneRoom : Flusher := new 1 ⟨30, 300⟩ fun _ => none

/-- A deferred apply, with every write-back failing as given. -/
def deferred (p : Project) (r : WriteResult) : Call := .recordApply p .empty .defer 0 fun _ => r

/-- `failed_write_keeps` after an apply to each project, when writes succeed. -/
theorem failed_write_keeps_sample : ∃ hist w, hist.length = 2 ∧ Run twoProjects Safe oneRoom hist w ∧
    Kept twoProjects (latest oneRoom hist) w := by
  have hfirst : Run twoProjects Safe oneRoom [(deferred alpha .ok, _)] _ :=
    .step .start alpha_registered fun _ _ _ _ => rfl
  have hboth : Run twoProjects Safe oneRoom [(deferred beta .ok, _), _] _ :=
    .step hfirst beta_registered fun _ _ _ _ => rfl
  exact ⟨_, _, rfl, hboth,
    (failed_write_keeps twoProjects_registered (new_consistent _ _ _ _) hboth).1⟩

/-- How the write-back of `alpha` fails. -/
def diskFull : WriteResult := .noDir "No space left on device (os error 28)"

/-- The flusher after an apply to `alpha`, and after one to `beta` whose write-back fails. -/
def holding : Flusher := (oneRoom.step (deferred alpha .ok)).2

def losing : List String × Flusher := holding.step (deferred beta diskFull)

/-- The write-back of `alpha` fails in an apply to `beta`: its state is nowhere, and no error
names it; and the apply has failed with its own state recorded. -/
theorem failed_write_loses : ∃ hist w hist' w' c,
    Run twoProjects (fun _ _ => True) oneRoom hist w ∧ ¬ Kept twoProjects (latest oneRoom hist) w ∧
    Run twoProjects (fun _ _ => True) oneRoom hist' w' ∧ Allowed twoProjects w' c ∧ ¬ Atomic w' c := by
  have hfirst : Run twoProjects (fun _ _ => True) oneRoom [(deferred alpha .ok, _)] holding :=
    .step .start alpha_registered trivial
  have hboth : Run twoProjects (fun _ _ => True) oneRoom
      [(deferred beta diskFull, losing.1), (deferred alpha .ok, [])] losing.2 :=
    .step hfirst beta_registered trivial
  refine ⟨_, _, _, _, deferred beta diskFull, hboth, ?_, hfirst, beta_registered, ?_⟩
  · intro hkept
    rcases hkept "alpha" alpha .empty losing.1 alpha_registered rfl with hdisk | ⟨hresident, -⟩ | hnamed
    · have hnone : losing.2.disk alpha.outputDir = none := by decide +kernel
      rw [hnone] at hdisk
      cases hdisk
    · have hnone : losing.2.cache.graphs["alpha"]? = none := by decide +kernel
      rw [hnone] at hresident
      cases hresident
    · have hanonymous : losing.1.all (fun err => !names err alpha) = true := by decide +kernel
      obtain ⟨err, hmem, hname⟩ := hnamed
      have := List.all_eq_true.mp hanonymous err hmem
      rw [hname] at this
      cases this
  · intro hatomic
    have hchanged : (holding.cache.graphs["beta"]?).isSome = false ∧
        (losing.2.cache.graphs["beta"]?).isSome = true := by decide +kernel
    have herr : (holding.recordApply beta .empty .defer 0 fun _ => diskFull).1
        = .error "I/O error: No space left on device (os error 28)" := by decide +kernel
    obtain ⟨hsame, -⟩ := hatomic _ herr
    have hsome := congrArg Option.isSome hsame
    exact absurd (hchanged.2.symm.trans (hsome.trans hchanged.1)) (by simp)

end Flusher

end Filigrio.Daemon
