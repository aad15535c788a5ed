import Filigrio.Index.Unique

/-!
# Filigrio.Index.Finish

The ids of an extraction. After the final pass the node ids of the file differ, one renaming
has been applied to the nodes and to both ends of the edges, a definition that is alone under
its base has the base as its id, and without hash ties an id depends on nothing but the base,
the declaration text, and whether the base is shared.
-/

namespace Filigrio.Index

variable {path : String} {d : Driver} {mints : Mints}

/-! ### The metadata of a walk -/

theorem get_idMeta (h : Walked path d mints) {id : String} {m : IdMeta} :
    d.idMeta[id]? = some m ↔ ∃ x ∈ mints, x.2 = id ∧ x.1.idMeta path = m := by
  have hkeys : (mints.map fun x => (x.2, x.1.idMeta path)).map Prod.fst = mints.map Prod.snd := by
    rw [List.map_map]
    rfl
  rw [h.idMeta, BTreeMap.get_insertAll_of_nodup (by rw [hkeys]; exact h.distinct), List.mem_map]
  simp only [Prod.mk.injEq]

/-- The counts are those of the definitions. -/
theorem shared_iff (h : Walked path d mints) (base : String) :
    Shared d.idMeta base ↔ 1 < count path (mints.map Prod.fst) base := by
  have hkeys : (mints.map fun x => (x.2, x.1.idMeta path)).map Prod.fst = mints.map Prod.snd := by
    rw [List.map_map]
    rfl
  have hperm : (d.idMeta.values.map IdMeta.base).Perm (mints.map fun x => x.1.base path) := by
    have hlist := BTreeMap.toList_insertAll_perm (by rw [hkeys]; exact h.distinct)
    rw [BTreeMap.values_eq, h.idMeta, List.map_map]
    refine (hlist.map _).trans ?_
    rw [List.map_map]
    rfl
  have hones : (d.idMeta.values.map fun m => (m.base, 1))
      = (d.idMeta.values.map IdMeta.base).map fun base => (base, 1) := by
    rw [List.map_map]
    rfl
  have hcount : ((countBases d.idMeta)[base]?).getD 0
      = count path (mints.map Prod.fst) base := by
    rw [countBases, BTreeMap.getD_addAll, hones, BTreeMap.sumAt_ones, hperm.count_eq, count,
      List.countP_map, List.count, List.countP_map, Std.ExtTreeMap.getElem?_empty,
      Option.getD_none, zero_add]
    refine List.countP_congr fun x _ => ?_
    simp
  rw [Shared, hcount]

theorem basesOf (h : Walked path d mints) (hplain : ∀ x ∈ mints, Plain x.1.name) :
    BasesOf path d.idMeta := by
  intro id m hm
  obtain ⟨x, hx, -, rfl⟩ := (get_idMeta h).mp hm
  exact ⟨x.1.idPrefix, x.1.name, hplain x hx, rfl⟩

/-- The final remapping. -/
def finalRemap (d : Driver) : BTreeMap String String :=
  (d.nodes.foldl (remapNode d.idMeta) ⟨∅, ∅⟩).remap

/-- No definition has the id of the file, not even provisionally. -/
theorem file_notMem (h : Walked path d mints) : "file:" ++ path ∉ mints.map Prod.snd := by
  intro hmem
  obtain ⟨x, hx, heq⟩ := List.mem_map.mp hmem
  obtain ⟨k, -, hshape⟩ := h.ordinals x hx
  rw [hshape] at heq
  exact baseOf_append_ne_file _ _ _ heq

theorem remapped_final (h : Walked path d mints) (hplain : ∀ x ∈ mints, Plain x.1.name) :
    Remapped d.idMeta (d.nodes.map fun n => n.id.val) (d.nodes.foldl (remapNode d.idMeta) ⟨∅, ∅⟩) := by
  have hnodup : (([] : List String) ++ d.nodes.map fun n => n.id.val).Nodup := by
    rw [List.nil_append, h.ids]
    exact List.nodup_cons.mpr ⟨file_notMem h, h.distinct⟩
  exact remapped_foldl (basesOf h hplain) remapped_start d.nodes hnodup

/-- An id that no shared definition has stays. -/
theorem rename_of_none {remap : BTreeMap String String} {id : String} (h : remap[id]? = none) :
    rename remap ⟨id⟩ = ⟨id⟩ := by
  rw [rename, h]

theorem rename_of_some {remap : BTreeMap String String} {id c : String}
    (h : remap[id]? = some c) : rename remap ⟨id⟩ = ⟨c⟩ := by
  rw [rename, h]

/-- What becomes of a provisional id: under a shared base it is hashed, and alone it is the
base already. -/
theorem rename_mint (h : Walked path d mints) (hplain : ∀ x ∈ mints, Plain x.1.name)
    {x : Def × String} (hx : x ∈ mints) :
    (∃ k, (finalRemap d)[x.2]? = some (candidate (hashedId (x.1.idMeta path)) k)
      ∧ 1 < count path (mints.map Prod.fst) (x.1.base path))
    ∨ ((finalRemap d)[x.2]? = none ∧ x.2 = x.1.base path
      ∧ count path (mints.map Prod.fst) (x.1.base path) = 1) := by
  have hremapped := remapped_final h hplain
  have hmeta := (get_idMeta h).mpr ⟨x, hx, rfl, rfl⟩
  have hnode : x.2 ∈ d.nodes.map fun n => n.id.val := by
    rw [h.ids]
    exact List.mem_cons_of_mem _ (List.mem_map_of_mem hx)
  cases hget : (finalRemap d)[x.2]? with
  | some c =>
      obtain ⟨-, -, m, k, hm, hshared, rfl⟩ := hremapped.dom x.2 c hget
      rw [hmeta] at hm
      cases hm
      exact Or.inl ⟨k, rfl, (shared_iff h _).mp hshared⟩
  | none =>
      have halone : ¬ 1 < count path (mints.map Prod.fst) (x.1.base path) := by
        intro hmany
        obtain ⟨c, hc⟩ := hremapped.all x.2 hnode _ hmeta ((shared_iff h _).mpr hmany)
        have hsome : (finalRemap d)[x.2]? = some c := hc
        rw [hget] at hsome
        cases hsome
      obtain ⟨k, hk, hshape⟩ := h.ordinals x hx
      have hzero : k = 0 := by omega
      refine Or.inr ⟨rfl, ?_, by omega⟩
      rw [hshape, hzero, tilde, if_pos rfl, String.append_empty]

/-- The id of the file, and every id that is not of the file, stay. -/
theorem rename_other (h : Walked path d mints) (hplain : ∀ x ∈ mints, Plain x.1.name)
    {id : String} (hid : id ∉ mints.map Prod.snd) : rename (finalRemap d) ⟨id⟩ = ⟨id⟩ := by
  refine rename_of_none ?_
  cases hget : (finalRemap d)[id]? with
  | none => rfl
  | some c =>
      obtain ⟨-, -, m, k, hm, -, -⟩ := (remapped_final h hplain).dom id c hget
      obtain ⟨x, hx, rfl, -⟩ := (get_idMeta h).mp hm
      exact absurd (List.mem_map_of_mem hx) hid

/-- The renaming keeps the ids of the file apart. -/
theorem rename_inj (h : Walked path d mints) (hplain : ∀ x ∈ mints, Plain x.1.name)
    {id id' : String} (hid : id ∈ ("file:" ++ path) :: mints.map Prod.snd)
    (hid' : id' ∈ ("file:" ++ path) :: mints.map Prod.snd)
    (heq : rename (finalRemap d) ⟨id⟩ = rename (finalRemap d) ⟨id'⟩) : id = id' := by
  -- A hashed id is no id that stays.
  have hhashed : ∀ x ∈ mints, ∀ k id', id' ∈ ("file:" ++ path) :: mints.map Prod.snd →
      (finalRemap d)[id']? = none → candidate (hashedId (x.1.idMeta path)) k ≠ id' := by
    intro x hx k id' hid' hnone hcand
    have hsplit : candidate (hashedId (x.1.idMeta path)) k
        = baseOf x.1.idPrefix path x.1.name ++ ("#" ++ (shortHash x.1.text ++ tilde k)) := by
      simp only [candidate, hashedId, Def.idMeta, Def.base, String.append_assoc]
    rw [hsplit] at hcand
    rcases List.mem_cons.mp hid' with rfl | hmem
    · exact baseOf_append_ne_file _ _ _ hcand
    · obtain ⟨y, hy, rfl⟩ := List.mem_map.mp hmem
      rcases rename_mint h hplain hy with ⟨j, hsome, -⟩ | ⟨-, hbase, -⟩
      · rw [hnone] at hsome
        cases hsome
      · have hplainBase : baseOf y.1.idPrefix path y.1.name
            = baseOf y.1.idPrefix path y.1.name ++ tilde 0 := by
          rw [tilde, if_pos rfl, String.append_empty]
        rw [hbase, Def.base, hplainBase] at hcand
        have hmark := (baseOf_append_inj (hplain x hx) (hplain y hy) (marked_hash _)
          (marked_tilde 0) hcand).2
        have hlist := congrArg String.toList hmark
        rw [String.toList_append] at hlist
        cases hlist
  have hsome : ∀ id c : String, (finalRemap d)[id]? = some c →
      ∃ x ∈ mints, ∃ k, c = candidate (hashedId (x.1.idMeta path)) k := by
    intro id c hc
    obtain ⟨-, -, m, k, hm, -, rfl⟩ := (remapped_final h hplain).dom id c hc
    obtain ⟨x, hx, -, rfl⟩ := (get_idMeta h).mp hm
    exact ⟨x, hx, k, rfl⟩
  cases hget : (finalRemap d)[id]? with
  | some c =>
      cases hget' : (finalRemap d)[id']? with
      | some c' =>
          rw [rename_of_some hget, rename_of_some hget', NodeId.mk.injEq] at heq
          rw [heq] at hget
          exact (remapped_final h hplain).inj id id' c' hget hget'
      | none =>
          rw [rename_of_some hget, rename_of_none hget', NodeId.mk.injEq] at heq
          obtain ⟨x, hx, k, rfl⟩ := hsome id c hget
          exact absurd heq (hhashed x hx k id' hid' hget')
  | none =>
      cases hget' : (finalRemap d)[id']? with
      | some c' =>
          rw [rename_of_none hget, rename_of_some hget', NodeId.mk.injEq] at heq
          obtain ⟨x, hx, k, rfl⟩ := hsome id' c' hget'
          exact absurd heq.symm (hhashed x hx k id hid hget)
      | none =>
          rw [rename_of_none hget, rename_of_none hget', NodeId.mk.injEq] at heq
          exact heq

/-! ### The ids of the file -/

/-- The id of a definition, from its base, its text, and whether the base is shared. -/
def stableId (path : String) (d : Def) (shared : Bool) : String :=
  if shared then d.base path ++ "#" ++ shortHash d.text else d.base path

/-- Within each base the declaration texts have different short hashes. -/
def HashesDistinct (path : String) (defs : List Def) : Prop :=
  defs.Pairwise fun a b => a.base path = b.base path → shortHash a.text ≠ shortHash b.text

/-- **The ids of a finished file**: they differ; the nodes and both ends of the edges are
rewritten by one renaming, which leaves the file and every foreign id alone, and nothing else
changes; a lone definition has the base as its id; and without hash ties every id is the
`stableId` of its definition, whatever the order. -/
structure IdsFinal (path : String) (d : Driver) (defs : List Def) (x : Extraction) : Prop where
  distinct : (x.nodes.map Node.id).Nodup
  renamed : ∃ f : NodeId → NodeId,
    x.nodes = d.nodes.map (fun n => { n with id := f n.id })
    ∧ x.edges = d.edges.map (fun e =>
      { e with
        source := f e.source
        target := match e.target with
          | .node t => .node (f t)
          | .symbol s => .symbol s })
    ∧ x.exports = d.exports ∧ f d.fileId = d.fileId
    ∧ ∀ id, id ∉ d.nodes.map Node.id → f id = id
  lone : ∀ (i : ℕ) a, defs[i]? = some a → count path defs (a.base path) = 1 →
    (x.nodes.map Node.id)[i + 1]? = some ⟨a.base path⟩
  stable : HashesDistinct path defs → ∀ (i : ℕ) a, defs[i]? = some a →
    (x.nodes.map Node.id)[i + 1]?
      = some ⟨stableId path a (1 < count path defs (a.base path))⟩

theorem finish_eq (d : Driver) : d.finish =
    { nodes := d.nodes.map (renameNode (finalRemap d))
      edges := d.edges.map (renameEdge (finalRemap d))
      exports := d.exports } := by
  rw [Driver.finish, finalizeCollisions]
  split
  · rename_i hempty
    have hnone : ∀ id, rename (finalRemap d) id = id := by
      intro id
      refine rename_of_none ?_
      rw [finalRemap, Std.ExtTreeMap.isEmpty_iff.mp hempty]
      simp
    have hnodes : d.nodes.map (renameNode (finalRemap d)) = d.nodes := by
      refine (List.map_congr_left fun n _ => ?_).trans (List.map_id d.nodes)
      rw [renameNode, hnone]
      rfl
    have hedges : d.edges.map (renameEdge (finalRemap d)) = d.edges := by
      refine (List.map_congr_left fun e _ => ?_).trans (List.map_id d.edges)
      obtain ⟨source, relation, confidence, target⟩ := e
      rw [renameEdge]
      cases target <;> simp [hnone]
    rw [hnodes, hedges]
  · rfl

/-- Where a definition stands among the nodes, and with which id in the end. -/
theorem get_finish (h : Walked path d mints) {i : ℕ} {x : Def × String} (hx : mints[i]? = some x) :
    (d.finish.nodes.map Node.id)[i + 1]? = some (rename (finalRemap d) ⟨x.2⟩) := by
  have hnode : (d.nodes.map fun n => n.id.val)[i + 1]? = some x.2 := by
    rw [h.ids, List.getElem?_cons_succ, List.getElem?_map, hx]
    rfl
  rw [List.getElem?_map, Option.map_eq_some_iff] at hnode
  obtain ⟨n, hn, hid⟩ := hnode
  rw [finish_eq, List.map_map, List.getElem?_map, hn, ← hid]
  rfl

/-- Different hashes of the definitions are different hashes of the metadata. -/
theorem hashesDiffer (h : Walked path d mints)
    (hdistinct : HashesDistinct path (mints.map Prod.fst)) : HashesDiffer d.idMeta := by
  have hpair := List.pairwise_map.mp hdistinct
  intro id id' m m' hm hm' hbase hhash
  obtain ⟨x, hx, rfl, rfl⟩ := (get_idMeta h).mp hm
  obtain ⟨y, hy, rfl, rfl⟩ := (get_idMeta h).mp hm'
  by_contra hne
  have hsymm : Std.Symm fun x y : Def × String =>
      x.1.base path = y.1.base path → shortHash x.1.text ≠ shortHash y.1.text :=
    ⟨fun _ _ hxy hbase hhash => hxy hbase.symm hhash.symm⟩
  exact hpair.forall hx hy (fun heq => hne (congrArg Prod.snd heq)) hbase hhash

theorem idsFinal_of_walked (h : Walked path d mints) (hplain : ∀ x ∈ mints, Plain x.1.name) :
    IdsFinal path d (mints.map Prod.fst) d.finish := by
  have hget : ∀ (i : ℕ) a, (mints.map Prod.fst)[i]? = some a →
      ∃ x, mints[i]? = some x ∧ x ∈ mints ∧ x.1 = a := by
    intro i a ha
    rw [List.getElem?_map, Option.map_eq_some_iff] at ha
    obtain ⟨x, hx, rfl⟩ := ha
    exact ⟨x, hx, List.mem_of_getElem? hx, rfl⟩
  refine ⟨?_, ⟨rename (finalRemap d), ?_, ?_, ?_, ?_, ?_⟩, ?_, ?_⟩
  · have hids : d.finish.nodes.map Node.id
        = (d.nodes.map fun n => n.id.val).map fun id => rename (finalRemap d) ⟨id⟩ := by
      rw [finish_eq, List.map_map, List.map_map]
      rfl
    rw [hids, h.ids]
    refine List.Nodup.map_on (fun id hid id' hid' heq => rename_inj h hplain hid hid' heq) ?_
    exact List.nodup_cons.mpr ⟨file_notMem h, h.distinct⟩
  · rw [finish_eq]
    rfl
  · rw [finish_eq]
    rfl
  · rw [finish_eq]
  · rw [h.fileId]
    exact rename_other h hplain (file_notMem h)
  · rintro ⟨id⟩ hid
    refine rename_other h hplain fun hmem => hid ?_
    have hnode : id ∈ d.nodes.map fun n => n.id.val := by
      rw [h.ids]
      exact List.mem_cons_of_mem _ hmem
    obtain ⟨n, hn, rfl⟩ := List.mem_map.mp hnode
    exact List.mem_map_of_mem hn
  · intro i a ha hone
    obtain ⟨x, hx, hmem, rfl⟩ := hget i a ha
    rw [get_finish h hx]
    rcases rename_mint h hplain hmem with ⟨k, -, hmany⟩ | ⟨hnone, hbase, -⟩
    · omega
    · rw [rename_of_none hnone, hbase]
  · intro hdistinct i a ha
    obtain ⟨x, hx, hmem, rfl⟩ := hget i a ha
    rw [get_finish h hx, stableId]
    rcases rename_mint h hplain hmem with ⟨k, hsome, hmany⟩ | ⟨hnone, hbase, hone⟩
    · have hmeta := (get_idMeta h).mpr ⟨x, hmem, rfl, rfl⟩
      have hstable := (remapped_final h hplain).stable (hashesDiffer h hdistinct) x.2 _ _ hsome hmeta
      rw [rename_of_some hsome, hstable, decide_eq_true hmany, if_pos rfl]
      rfl
    · rw [rename_of_none hnone, hbase, if_neg]
      simp [hone]

/-- **Node ids are unique, stable and consistently rewritten**, for every walk over names
without marks. -/
theorem finish_ids (path language : String) (emits : List Emit)
    (hplain : ∀ a ∈ defsOf emits, Plain a.name) :
    IdsFinal path (walk path language emits) (defsOf emits)
      (walk path language emits).finish := by
  obtain ⟨mints, hmints, hwalked⟩ := walked_walk path language emits hplain
  rw [← hmints] at hplain ⊢
  exact idsFinal_of_walked hwalked fun x hx => hplain x.1 (List.mem_map_of_mem hx)

/-- Two overloads and another function, in one file. -/
def overloads : List Emit :=
  [.definition ⟨"fn", by decide, by decide⟩ "function" "from" ⟨1, 2, "fn from(a: A)"⟩
      ⟨"file:x.rs"⟩ none,
    .definition ⟨"fn", by decide, by decide⟩ "function" "from" ⟨3, 4, "fn from(b: B)"⟩
      ⟨"file:x.rs"⟩ none,
    .definition ⟨"fn", by decide, by decide⟩ "function" "parse" ⟨5, 6, "fn parse()"⟩
      ⟨"file:x.rs"⟩ none]

theorem finish_ids_overloads :
    IdsFinal "x.rs" (walk "x.rs" "rust" overloads) (defsOf overloads)
      (walk "x.rs" "rust" overloads).finish := by
  have hfrom : Plain "from" := by decide
  have hparse : Plain "parse" := by decide
  refine finish_ids "x.rs" "rust" overloads fun a ha => ?_
  simp only [defsOf, overloads, List.filterMap_cons, defOf, qualify, List.filterMap_nil,
    List.mem_cons, List.not_mem_nil, or_false] at ha
  rcases ha with rfl | rfl | rfl
  · exact hfrom
  · exact hfrom
  · exact hparse

end Filigrio.Index
