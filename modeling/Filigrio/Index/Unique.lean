import Filigrio.Index.Driver

/-!
# Filigrio.Index.Unique

The ids of a file. A base, followed by nothing or by a mark (`~` of an ordinal, `#` of a
hash), can be read back when names have no marks (`baseOf_append_inj`). So provisional ids
differ (`Walked`), and so do the final ones: a shared base is followed by a hash, a lone one
by nothing (`Remapped`). Where the hashes within each base differ no ordinal is left.
-/

namespace Filigrio.Index

variable {path : String}

/-! ### Reading an id back -/

/-- A character that may follow a base. -/
def IsMark (c : Char) : Prop := c = '~' ∨ c = '#'

instance : DecidablePred IsMark := fun _ => inferInstanceAs (Decidable (_ ∨ _))

/-- A name without marks. -/
def Plain (name : String) : Prop := ∀ c ∈ name.toList, ¬ IsMark c

instance : DecidablePred Plain := fun name =>
  List.decidableBAll (fun c => ¬ IsMark c) name.toList

/-- Nothing, or a text that starts with a mark. -/
def Marked (s : String) : Prop := ∀ c ∈ s.toList.head?, IsMark c

theorem append_marked_inj {name name' s s' : String} (hname : Plain name) (hname' : Plain name')
    (hs : Marked s) (hs' : Marked s') (h : name ++ s = name' ++ s') : name = name' ∧ s = s' := by
  have hsplit : ∀ name s : String, Plain name → Marked s →
      (name ++ s).toList.takeWhile (fun c => ¬ IsMark c) = name.toList := by
    intro name s hname hs
    have hnone : s.toList.takeWhile (fun c => decide (¬ IsMark c)) = [] := by
      cases hlist : s.toList with
      | nil => rfl
      | cons c rest =>
          have hc := hs c (by rw [hlist]; rfl)
          simp [hc]
    rw [String.toList_append, List.takeWhile_append_of_pos, hnone, List.append_nil]
    intro c hc
    simpa using hname c hc
  have hlists := hsplit name s hname hs
  rw [h, hsplit name' s' hname' hs'] at hlists
  have heq : name = name' := String.toList_inj.mp hlists.symm
  subst heq
  refine ⟨rfl, ?_⟩
  have hrest := congrArg String.toList h
  rw [String.toList_append, String.toList_append] at hrest
  exact String.toList_inj.mp (List.append_cancel_left hrest)

theorem append_colon_inj {x x' y y' : List Char} (hx : ':' ∉ x) (hx' : ':' ∉ x')
    (h : x ++ ':' :: y = x' ++ ':' :: y') : x = x' ∧ y = y' := by
  induction x generalizing x' with
  | nil =>
      cases x' with
      | nil => exact ⟨rfl, (List.cons.inj h).2⟩
      | cons c x' =>
          rw [(List.cons.inj h).1] at hx'
          exact absurd List.mem_cons_self hx'
  | cons c x ih =>
      cases x' with
      | nil =>
          rw [(List.cons.inj h).1] at hx
          exact absurd List.mem_cons_self hx
      | cons c' x' =>
          obtain ⟨rfl, htail⟩ := List.cons.inj h
          obtain ⟨rfl, rfl⟩ := ih (fun hmem => hx (List.mem_cons_of_mem c hmem))
            (fun hmem => hx' (List.mem_cons_of_mem c hmem)) htail
          exact ⟨rfl, rfl⟩

theorem toList_baseOf_append (p : IdPrefix) (path name s : String) :
    (baseOf p path name ++ s).toList
      = p.text.toList ++ ':' :: (path.toList ++ ':' :: (name ++ s).toList) := by
  have hcolon : (":" : String).toList = [':'] := rfl
  simp only [baseOf, String.toList_append, hcolon, List.append_assoc, List.cons_append,
    List.nil_append]

/-- Bases followed by nothing or by a mark are equal only part by part. -/
theorem baseOf_append_inj {p p' : IdPrefix} {name name' s s' : String} (hname : Plain name)
    (hname' : Plain name') (hs : Marked s) (hs' : Marked s')
    (h : baseOf p path name ++ s = baseOf p' path name' ++ s') :
    baseOf p path name = baseOf p' path name' ∧ s = s' := by
  have hlist := congrArg String.toList h
  rw [toList_baseOf_append, toList_baseOf_append] at hlist
  obtain ⟨hp, hrest⟩ := append_colon_inj p.noColon p'.noColon hlist
  obtain ⟨-, htail⟩ := List.cons.inj (List.append_cancel_left hrest)
  obtain ⟨rfl, rfl⟩ := append_marked_inj hname hname' hs hs' (String.toList_inj.mp htail)
  rw [baseOf, baseOf, String.toList_inj.mp hp]
  exact ⟨rfl, rfl⟩

/-- No definition has the id of the file. -/
theorem baseOf_append_ne_file (p : IdPrefix) (name s : String) :
    baseOf p path name ++ s ≠ "file:" ++ path := by
  intro h
  have hlist := congrArg String.toList h
  have hfile : ("file:" ++ path).toList = "file".toList ++ ':' :: path.toList := by
    rw [String.toList_append]
    rfl
  rw [hfile, toList_baseOf_append] at hlist
  exact p.notFile (String.toList_inj.mp (append_colon_inj p.noColon (by decide) hlist).1)

/-- The ordinal of a provisional id. -/
def tilde (k : ℕ) : String := if k = 0 then "" else "~" ++ toString k

theorem marked_tilde (k : ℕ) : Marked (tilde k) := by
  unfold tilde Marked
  split
  · simp
  · intro c hc
    rw [String.toList_append] at hc
    cases hc
    exact Or.inl rfl

theorem marked_hash (s : String) : Marked ("#" ++ s) := by
  intro c hc
  rw [String.toList_append] at hc
  cases hc
  exact Or.inr rfl

theorem tilde_inj {j k : ℕ} (h : tilde j = tilde k) : j = k := by
  have hne : ∀ k : ℕ, "~" ++ toString k ≠ "" := by
    intro k hk
    have hlist := congrArg String.toList hk
    rw [String.toList_append] at hlist
    cases hlist
  unfold tilde at h
  split at h
  · rename_i hj
    split at h
    · omega
    · exact absurd h.symm (hne k)
  · split at h
    · exact absurd h (hne j)
    · have hlist := congrArg String.toList h
      rw [String.toList_append, String.toList_append] at hlist
      exact Nat.repr_injective (String.toList_inj.mp (List.append_cancel_left hlist))

/-! ### The walk -/

/-- What the ids of a definition depend on. -/
structure Def where
  idPrefix : IdPrefix
  name : String
  text : String

namespace Def

def base (path : String) (d : Def) : String := baseOf d.idPrefix path d.name

def idMeta (path : String) (d : Def) : IdMeta := ⟨d.base path, d.text⟩

end Def

/-- The definition a walk adds, if it adds one. -/
def defOf : Emit → Option Def
  | .definition idPrefix _ name node _ owner => some ⟨idPrefix, qualify name owner, node.text⟩
  | .variant _ enumName name node => some ⟨variantPrefix, qualify name (some enumName), node.text⟩
  | .edge _ => none

/-- The definitions of a walk, in order. -/
def defsOf (emits : List Emit) : List Def := emits.filterMap defOf

/-- How many definitions have the base. -/
def count (path : String) (defs : List Def) (base : String) : ℕ :=
  defs.countP fun d => d.base path = base

/-- Definitions with their provisional ids. -/
abbrev Mints := List (Def × String)

/-- What the driver knows after a walk: the file and the definitions as nodes, under
provisional ids that count the definitions with the same base; the metadata under each id. -/
structure Walked (path : String) (d : Driver) (mints : Mints) : Prop where
  path_eq : d.path = path
  fileId : d.fileId = ⟨"file:" ++ path⟩
  ids : d.nodes.map (fun n => n.id.val) = ("file:" ++ path) :: mints.map Prod.snd
  idMeta : d.idMeta = BTreeMap.insertAll ∅ (mints.map fun m => (m.2, m.1.idMeta path))
  seen : ∀ base, (d.seen[base]?).getD 0 = count path (mints.map Prod.fst) base
  ordinals : ∀ m ∈ mints, ∃ k < count path (mints.map Prod.fst) (m.1.base path),
    m.2 = m.1.base path ++ tilde k
  distinct : (mints.map Prod.snd).Nodup

theorem walked_new (path language : String) : Walked path (Driver.new path language) [] := by
  constructor
  case seen =>
    intro base
    simp [Driver.new, count]
  case ordinals => simp
  case distinct => exact List.nodup_nil
  all_goals rfl

theorem count_append (defs defs' : List Def) (base : String) :
    count path (defs ++ defs') base = count path defs base + count path defs' base :=
  List.countP_append

/-- A definition is added under its base and the number of its namesakes before it. -/
theorem Walked.addNode {d : Driver} {mints : Mints} (h : Walked path d mints)
    (hplain : ∀ m ∈ mints, Plain m.1.name) {idPrefix : IdPrefix} {qualified : String}
    (hname : Plain qualified) (kind label : String) (owner : Option String) (node : Decl)
    (source : NodeId) (relation : String) : ∃ id,
    Walked path (d.addNode idPrefix kind label qualified owner node source relation).1
      (mints ++ [(⟨idPrefix, qualified, node.text⟩, id)]) := by
  let new : Def := ⟨idPrefix, qualified, node.text⟩
  let n := count path (mints.map Prod.fst) (new.base path)
  have hn : (d.seen[baseOf idPrefix d.path qualified]?).getD 0 = n := by
    rw [h.path_eq]
    exact h.seen _
  have hid : (d.mintId idPrefix qualified).2 = new.base path ++ tilde n := by
    rw [Driver.mintId, hn, h.path_eq, tilde]
    dsimp only
    split
    · rw [String.append_empty]
      rfl
    · rw [String.append_assoc]
      rfl
  have hcount : ∀ base, count path ((mints ++ [(new, new.base path ++ tilde n)]).map Prod.fst) base
      = count path (mints.map Prod.fst) base + if new.base path = base then 1 else 0 := by
    intro base
    rw [List.map_append, count_append, List.map_singleton, count, count, List.countP_singleton]
    simp
  have hfresh : new.base path ++ tilde n ∉ mints.map Prod.snd := by
    intro hmem
    obtain ⟨m, hm, heq⟩ := List.mem_map.mp hmem
    obtain ⟨k, hk, hshape⟩ := h.ordinals m hm
    rw [hshape] at heq
    obtain ⟨hbase, htilde⟩ := baseOf_append_inj (hplain m hm) hname (marked_tilde k)
      (marked_tilde n) heq
    have hkn : k = n := tilde_inj htilde
    have hsame : m.1.base path = new.base path := hbase
    rw [hsame, hkn] at hk
    exact lt_irrefl _ hk
  refine ⟨new.base path ++ tilde n, h.path_eq, h.fileId, ?_, ?_, ?_, ?_, ?_⟩
  · have hnodes : (d.mintId idPrefix qualified).1.nodes = d.nodes := rfl
    simp only [Driver.addNode, hnodes, List.map_append, h.ids, hid, List.map_singleton,
      List.cons_append]
  · have hstep : (d.addNode idPrefix kind label qualified owner node source relation).1.idMeta
        = d.idMeta.insert (new.base path ++ tilde n) (new.idMeta path) := by
      simp only [Driver.addNode, hid]
      rw [Def.idMeta, Def.base, ← h.path_eq]
      rfl
    rw [hstep, h.idMeta, List.map_append, BTreeMap.insertAll_append]
    rfl
  · intro base
    have hstep : (d.addNode idPrefix kind label qualified owner node source relation).1.seen
        = d.seen.insert (new.base path) (n + 1) := by
      simp only [Driver.addNode, Driver.mintId, hn]
      rw [h.path_eq]
      rfl
    rw [hstep, BTreeMap.get_insert, hcount]
    split
    · rename_i heq
      rw [Option.getD_some, ← heq]
    · rw [h.seen, add_zero]
  · intro m hm
    rw [hcount]
    rcases List.mem_append.mp hm with hm | hm
    · obtain ⟨k, hk, hshape⟩ := h.ordinals m hm
      exact ⟨k, by omega, hshape⟩
    · rw [List.mem_singleton.mp hm, if_pos rfl]
      exact ⟨n, Nat.lt_succ_self n, rfl⟩
  · rw [List.map_append]
    refine List.nodup_append.mpr ⟨h.distinct, List.nodup_singleton _, ?_⟩
    rintro a ha b hb rfl
    rw [List.map_singleton, List.mem_singleton] at hb
    rw [hb] at ha
    exact hfresh ha

/-- After a walk over plain names. -/
theorem walked_walk (path language : String) (emits : List Emit)
    (hplain : ∀ d ∈ defsOf emits, Plain d.name) : ∃ mints : Mints,
    mints.map Prod.fst = defsOf emits ∧ Walked path (walk path language emits) mints := by
  induction emits using List.reverseRecOn with
  | nil => exact ⟨[], rfl, walked_new path language⟩
  | append_singleton emits e ih =>
      have hdefs : defsOf (emits ++ [e]) = defsOf emits ++ (defOf e).toList := by
        rw [defsOf, List.filterMap_append, List.filterMap_cons, List.filterMap_nil]
        cases defOf e <;> rfl
      have hwalk : walk path language (emits ++ [e]) = (walk path language emits).emit e := by
        rw [walk, List.foldl_append]
        rfl
      rw [hdefs] at hplain ⊢
      obtain ⟨mints, hmints, hwalked⟩ := ih fun d hd => hplain d (List.mem_append_left _ hd)
      have hplain' : ∀ m ∈ mints, Plain m.1.name := fun m hm =>
        hplain m.1 (List.mem_append_left _ (hmints ▸ List.mem_map_of_mem hm))
      rw [hwalk]
      cases e with
      | definition idPrefix kind name node container owner =>
          obtain ⟨id, hadded⟩ := hwalked.addNode hplain'
            (hplain ⟨idPrefix, qualify name owner, node.text⟩ (by simp [defOf])) kind name owner
            node container "contains"
          exact ⟨_, by rw [List.map_append, hmints]; rfl, hadded⟩
      | variant enumId enumName name node =>
          obtain ⟨id, hadded⟩ := hwalked.addNode hplain'
            (hplain ⟨variantPrefix, qualify name (some enumName), node.text⟩ (by simp [defOf]))
            "enum_variant" name (some enumName) node enumId "has_variant"
          exact ⟨_, by rw [List.map_append, hmints]; rfl, hadded⟩
      | edge e =>
          refine ⟨mints, by rw [hmints]; simp [defOf], ?_⟩
          exact ⟨hwalked.path_eq, hwalked.fileId, hwalked.ids, hwalked.idMeta, hwalked.seen,
            hwalked.ordinals, hwalked.distinct⟩

/-! ### The candidates -/

/-- The candidates in turn: the hashed id, then its ordinals. -/
def candidate (hashed : String) (k : ℕ) : String := hashed ++ tilde k

theorem candidate_injective (hashed : String) : Function.Injective (candidate hashed) := by
  intro j k h
  have hlist := congrArg String.toList h
  rw [candidate, candidate, String.toList_append, String.toList_append] at hlist
  exact tilde_inj (String.toList_inj.mp (List.append_cancel_left hlist))

/-- The search ends at one of the candidates; it is in use only if all that were tried are. -/
theorem freeCandidate_spec (used : Finset String) (hashed : String) (fuel k : ℕ) : ∃ j,
    freeCandidate used hashed fuel (k + 1) (candidate hashed k) = candidate hashed j
    ∧ (candidate hashed k ∉ used → j = k)
    ∧ (candidate hashed j ∈ used → ∀ i ≤ fuel, candidate hashed (k + i) ∈ used) := by
  induction fuel generalizing k with
  | zero =>
      refine ⟨k, rfl, fun _ => rfl, fun hused i hi => ?_⟩
      rwa [Nat.le_zero.mp hi]
  | succ fuel ih =>
      rw [freeCandidate]
      split
      · rename_i hused
        obtain ⟨j, hj, -, htried⟩ := ih (k + 1)
        refine ⟨j, ?_, fun hfree => absurd hused hfree, fun hin i hi => ?_⟩
        · have hnext : candidate hashed (k + 1) = hashed ++ "~" ++ toString (k + 1) := by
            rw [candidate, tilde, if_neg (Nat.succ_ne_zero k), String.append_assoc]
          rw [← hj, hnext]
        · cases i with
          | zero => exact hused
          | succ i =>
              have hnext := htried hin i (by omega)
              rwa [show k + 1 + i = k + (i + 1) by omega] at hnext
      · rename_i hfree
        exact ⟨k, rfl, fun _ => rfl, fun hin => absurd hin hfree⟩

/-- As many tries as ids in use find a free candidate. -/
theorem freeCandidate_free (used : Finset String) (hashed : String) : ∃ j,
    freeCandidate used hashed used.card 1 hashed = candidate hashed j
    ∧ candidate hashed j ∉ used ∧ (hashed ∉ used → j = 0) := by
  have hfirst : candidate hashed 0 = hashed := by
    rw [candidate, tilde, if_pos rfl, String.append_empty]
  obtain ⟨j, hj, hzero, htried⟩ := freeCandidate_spec used hashed used.card 0
  rw [hfirst] at hj hzero
  refine ⟨j, hj, fun hin => ?_, hzero⟩
  have hall : (Finset.range (used.card + 1)).image (candidate hashed) ⊆ used := by
    intro c hc
    obtain ⟨i, hi, rfl⟩ := Finset.mem_image.mp hc
    rw [Finset.mem_range] at hi
    simpa using htried hin i (by omega)
  have hcard := Finset.card_le_card hall
  rw [Finset.card_image_of_injective _ (candidate_injective hashed), Finset.card_range] at hcard
  omega

/-! ### The remapping -/

section Remap

variable {metas : BTreeMap String IdMeta}

/-- The base is shared by several definitions. -/
def Shared (metas : BTreeMap String IdMeta) (base : String) : Prop :=
  1 < ((countBases metas)[base]?).getD 0

/-- The hashed id of a definition. -/
def hashedId (m : IdMeta) : String := m.base ++ "#" ++ shortHash m.decl

/-- The bases of a file. -/
def BasesOf (path : String) (metas : BTreeMap String IdMeta) : Prop :=
  ∀ (id : String) (m : IdMeta), metas[id]? = some m → ∃ (p : IdPrefix) (name : String), Plain name
    ∧ m.base = baseOf p path name

/-- Within each base the declaration texts have different hashes. -/
def HashesDiffer (metas : BTreeMap String IdMeta) : Prop :=
  ∀ (id id' : String) (m m' : IdMeta), metas[id]? = some m → metas[id']? = some m' → m.base = m'.base →
    shortHash m.decl = shortHash m'.decl → id = id'

/-- The remapping after some nodes: exactly the shared definitions among them have a new id,
their hashed one and perhaps an ordinal; no new id is used twice; without ties there are no
ordinals. -/
structure Remapped (metas : BTreeMap String IdMeta) (done : List String) (st : Remap) : Prop where
  dom : ∀ (id c : String), st.remap[id]? = some c → id ∈ done ∧ c ∈ st.used
    ∧ ∃ m k, metas[id]? = some m ∧ Shared metas m.base ∧ c = candidate (hashedId m) k
  all : ∀ id ∈ done, ∀ m, metas[id]? = some m → Shared metas m.base → ∃ c, st.remap[id]? = some c
  inj : ∀ (id id' c : String), st.remap[id]? = some c → st.remap[id']? = some c → id = id'
  used : ∀ c ∈ st.used, ∃ id : String, st.remap[id]? = some c
  stable : HashesDiffer metas → ∀ (id c : String) (m : IdMeta), st.remap[id]? = some c → metas[id]? = some m →
    c = hashedId m

theorem remapped_start : Remapped metas [] ⟨∅, ∅⟩ := by
  constructor <;> simp

/-- Hashed ids are equal only for equal bases and hashes. -/
theorem hashedId_inj (hbases : BasesOf path metas) {id id' : String} {m m' : IdMeta}
    (hm : metas[id]? = some m) (hm' : metas[id']? = some m') (h : hashedId m = hashedId m') :
    m.base = m'.base ∧ shortHash m.decl = shortHash m'.decl := by
  obtain ⟨p, name, hname, hbase⟩ := hbases id m hm
  obtain ⟨p', name', hname', hbase'⟩ := hbases id' m' hm'
  rw [hashedId, hashedId, hbase, hbase', String.append_assoc, String.append_assoc] at h
  obtain ⟨hb, hhash⟩ := baseOf_append_inj hname hname' (marked_hash _) (marked_hash _) h
  have hlist := congrArg String.toList hhash
  rw [String.toList_append, String.toList_append] at hlist
  exact ⟨by rw [hbase, hbase', hb], String.toList_inj.mp (List.append_cancel_left hlist)⟩

theorem Remapped.node {done : List String} {st : Remap} (hbases : BasesOf path metas)
    (h : Remapped metas done st) {n : Node} (hnew : n.id.val ∉ done) :
    Remapped metas (done ++ [n.id.val]) (remapNode metas st n) := by
  have hweaken : (∀ m, metas[n.id.val]? = some m → ¬ Shared metas m.base) →
      Remapped metas (done ++ [n.id.val]) st := by
    intro hnot
    refine ⟨fun id c hc => ?_, fun id hid m hm hshared => ?_, h.inj, h.used, h.stable⟩
    · obtain ⟨hin, hrest⟩ := h.dom id c hc
      exact ⟨List.mem_append_left _ hin, hrest⟩
    · rcases List.mem_append.mp hid with hid | hid
      · exact h.all id hid m hm hshared
      · rw [List.mem_singleton.mp hid] at hm
        exact absurd hshared (hnot m hm)
  unfold remapNode
  split
  · rename_i hnone
    refine hweaken fun m hm => ?_
    rw [hnone] at hm
    cases hm
  · rename_i m hm
    split
    · rename_i hfew
      refine hweaken fun m' hm' hshared => ?_
      rw [hm] at hm'
      cases hm'
      rw [Shared] at hshared
      omega
    · rename_i hmany
      have hshared : Shared metas m.base := by
        rw [Shared]
        omega
      obtain ⟨k, hfree, hunused, hfirst⟩ := freeCandidate_free st.used (hashedId m)
      dsimp only
      rw [show m.base ++ "#" ++ shortHash m.decl = hashedId m from rfl, hfree]
      refine ⟨fun id c hc => ?_, fun id hid m' hm' hshared' => ?_, fun id id' c hc hc' => ?_,
        fun c hc => ?_, fun hdiffer id c m' hc hm' => ?_⟩
      · rw [BTreeMap.get_insert] at hc
        split at hc
        · rename_i heq
          subst heq
          cases hc
          exact ⟨by simp, Finset.mem_insert_self _ _, m, k, hm, hshared, rfl⟩
        · obtain ⟨hin, hused, hrest⟩ := h.dom id c hc
          exact ⟨List.mem_append_left _ hin, Finset.mem_insert_of_mem hused, hrest⟩
      · rw [BTreeMap.get_insert]
        split
        · exact ⟨_, rfl⟩
        · rename_i hne
          rcases List.mem_append.mp hid with hid | hid
          · exact h.all id hid m' hm' hshared'
          · exact absurd (List.mem_singleton.mp hid).symm hne
      · rw [BTreeMap.get_insert] at hc hc'
        split at hc
        · rename_i heq
          split at hc'
          · rename_i heq'
            rw [← heq, heq']
          · cases hc
            exact absurd (h.dom id' _ hc').2.1 hunused
        · split at hc'
          · cases hc'
            exact absurd (h.dom id _ hc).2.1 hunused
          · exact h.inj id id' c hc hc'
      · rcases Finset.mem_insert.mp hc with rfl | hc
        · refine ⟨n.id.val, ?_⟩
          rw [BTreeMap.get_insert, if_pos rfl]
        · obtain ⟨id, hid⟩ := h.used c hc
          refine ⟨id, ?_⟩
          rw [BTreeMap.get_insert, if_neg, hid]
          rintro rfl
          exact hnew (h.dom _ c hid).1
      · rw [BTreeMap.get_insert] at hc
        split at hc
        · rename_i heq
          subst heq
          rw [hm] at hm'
          cases hm'
          cases hc
          -- The hashed id is free: what is in use is hashed from other definitions.
          have hk : k = 0 := by
            refine hfirst fun hused => ?_
            obtain ⟨id, hid⟩ := h.used _ hused
            obtain ⟨hin, -, m', -, hm', -, -⟩ := h.dom id _ hid
            obtain ⟨hbase, hhash⟩ := hashedId_inj hbases hm hm' (h.stable hdiffer id _ m' hid hm')
            have hid' := hdiffer _ _ m m' hm hm' hbase hhash
            rw [← hid'] at hin
            exact hnew hin
          rw [hk, candidate, tilde, if_pos rfl, String.append_empty]
        · exact h.stable hdiffer id c m' hc hm'

theorem remapped_foldl (hbases : BasesOf path metas) {done : List String} {st : Remap}
    (h : Remapped metas done st) (nodes : List Node)
    (hnodup : (done ++ nodes.map fun n => n.id.val).Nodup) :
    Remapped metas (done ++ nodes.map fun n => n.id.val) (nodes.foldl (remapNode metas) st) := by
  induction nodes generalizing done st with
  | nil => simpa using h
  | cons n nodes ih =>
      rw [List.map_cons] at hnodup ⊢
      have hsnoc : done ++ n.id.val :: nodes.map (fun n => n.id.val)
          = done ++ [n.id.val] ++ nodes.map fun n => n.id.val := by simp
      have hnew : n.id.val ∉ done := fun hin =>
        (List.nodup_append.mp hnodup).2.2 _ hin _ List.mem_cons_self rfl
      rw [hsnoc] at hnodup ⊢
      exact ih (h.node hbases hnew) hnodup

end Remap

end Filigrio.Index
