import Filigrio.Lib.TreeMap

/-!
# Canonical multimaps

A *canonical multimap* keeps under each key the canonical list of its values, and
no key without a value. `index l` is the one with the pairs of `l`: it depends on
the members of `l` alone, and dropping and adding pairs of an index, whichever
lists are re-sorted on the way, ends in the index of what is left.
-/

namespace BTreeMap

variable {κ : Type*} {ν : Type*} [LinearOrder κ]

/-- The values of `l` listed for the key `k`. -/
def valuesOf (l : List (κ × ν)) (k : κ) : List ν := (l.filter (·.1 = k)).map Prod.snd

theorem mem_valuesOf {l : List (κ × ν)} {k : κ} {v : ν} : v ∈ valuesOf l k ↔ (k, v) ∈ l := by
  simp only [valuesOf, List.mem_map, List.mem_filter, decide_eq_true_eq, Prod.exists,
    and_comm, exists_eq_left]

theorem valuesOf_append (l l' : List (κ × ν)) (k : κ) :
    valuesOf (l ++ l') k = valuesOf l k ++ valuesOf l' k := by
  simp only [valuesOf, List.filter_append, List.map_append]

/-- A multimap whose lists are repeat-free has repeat-free pairs. -/
theorem nodup_pairs {m : BTreeMap κ (List ν)} (h : ∀ k, (list m k).Nodup) : (pairs m).Nodup := by
  have hkeys : (m.toList.map Prod.fst).Nodup := by
    have hp := Std.ExtTreeMap.distinct_keys_toList (t := m)
    exact List.pairwise_map.mpr (hp.imp fun hab heq => hab (compare_eq_iff_eq.mpr heq))
  refine List.nodup_flatMap.mpr ⟨fun p hp => ?_, ?_⟩
  · have hl : list m p.1 = p.2 := by rw [list, mem_toList.mp hp, Option.getD_some]
    exact (hl ▸ h p.1).map fun _ _ hv => (Prod.mk.inj hv).2
  · refine (List.pairwise_map.mp hkeys).imp fun {a b} hab => ?_
    simp only [Function.onFun, List.disjoint_left, List.mem_map, not_exists, not_and]
    rintro _ ⟨v, -, rfl⟩ w - hw
    exact hab (Prod.mk.inj hw).1.symm

variable [LinearOrder ν]

/-- The canonical multimap of a list of pairs: push them all, then sort and
dedup each list. -/
def index (l : List (κ × ν)) : BTreeMap κ (List ν) :=
  Std.ExtTreeMap.map (fun _ vs => Canon.canon vs) (pushAll ∅ l)

theorem get_index (l : List (κ × ν)) (k : κ) :
    (index l)[k]? = if valuesOf l k = [] then none else some (Canon.canon (valuesOf l k)) := by
  rw [index, Std.ExtTreeMap.getElem?_map, get_pushAll]
  by_cases h : l.filter (·.1 = k) = []
  · simp [h, valuesOf]
  · simp [h, valuesOf, list]

theorem list_index (l : List (κ × ν)) (k : κ) : list (index l) k = Canon.canon (valuesOf l k) := by
  rw [list, get_index]
  split
  · rename_i h; simp [h]
  · rfl

@[simp] theorem mem_pairs_index {l : List (κ × ν)} {p : κ × ν} : p ∈ pairs (index l) ↔ p ∈ l := by
  obtain ⟨k, v⟩ := p
  rw [mem_pairs, list_index, Canon.mem_canon, mem_valuesOf]

/-- An index reads the values of one key only. -/
theorem get_index_congr {l l' : List (κ × ν)} {k : κ} (h : ∀ v, (k, v) ∈ l ↔ (k, v) ∈ l') :
    (index l)[k]? = (index l')[k]? := by
  have hv : ∀ v, v ∈ valuesOf l k ↔ v ∈ valuesOf l' k := fun v => by
    rw [mem_valuesOf, mem_valuesOf, h]
  have hnil : valuesOf l k = [] ↔ valuesOf l' k = [] := by
    simp only [List.eq_nil_iff_forall_not_mem, hv]
  simp only [get_index, hnil, Canon.canon_congr hv]

/-- Two lists with the same members have the same index. -/
theorem index_congr {l l' : List (κ × ν)} (h : ∀ p, p ∈ l ↔ p ∈ l') : index l = index l' :=
  ext_get fun _ => get_index_congr fun _ => h _

@[simp] theorem index_pairs_index (l : List (κ × ν)) : index (pairs (index l)) = index l :=
  index_congr fun _ => mem_pairs_index

/-- An index has no empty list. -/
theorem ne_nil_of_get_index {l : List (κ × ν)} {k : κ} {vs : List ν}
    (h : (index l)[k]? = some vs) : vs ≠ [] := by
  rw [get_index] at h
  split at h
  · cases h
  · rename_i hne
    rw [← Option.some.inj h, ne_eq, Canon.canon_eq_nil]
    exact hne

/-- The lists of an index are canonical. -/
theorem canon_list_index (l : List (κ × ν)) (k : κ) :
    Canon.canon (list (index l) k) = list (index l) k := by
  rw [list_index, Canon.canon_canon]

theorem nodup_pairs_index (l : List (κ × ν)) : (pairs (index l)).Nodup :=
  nodup_pairs fun k => by rw [list_index]; exact Canon.canon_nodup _

/-- Entering pairs one at a time, re-canonicalizing the list each time. -/
theorem foldl_insert_index (l added : List (κ × ν)) :
    added.foldl (fun m p => m.alter p.1 fun o => some (Canon.canon (o.getD [] ++ [p.2]))) (index l)
      = index (l ++ added) := by
  induction added generalizing l with
  | nil => rw [List.foldl_nil, List.append_nil]
  | cons p added ih =>
      have hstep : (index l).alter p.1 (fun o => some (Canon.canon (o.getD [] ++ [p.2])))
          = index (l ++ [p]) := by
        refine ext_get fun k => ?_
        rw [Std.ExtTreeMap.getElem?_alter, get_index (l ++ [p]), valuesOf_append]
        by_cases hk : p.1 = k
        · have hp : valuesOf [p] k = [p.2] := by simp [valuesOf, hk]
          have hget : (index l)[k]?.getD [] = Canon.canon (valuesOf l k) := list_index l k
          rw [if_pos (by simp [hk]), hk, hget, hp, if_neg (by simp)]
          congr 1
          exact Canon.canon_congr fun v => by simp
        · have hp : valuesOf [p] k = [] := by simp [valuesOf, hk]
          rw [if_neg (by simp [hk]), hp, List.append_nil, get_index]
      rw [List.foldl_cons, hstep, ih, List.append_assoc, List.singleton_append]

/-- Patching an index: filter every list, forget the empty ones, push the added
pairs, and re-sort only lists that moved. -/
theorem patch_index (l added : List (κ × ν)) (keep : ν → Bool) (touched : κ → Prop)
    [DecidablePred touched] (hadded : ∀ p ∈ added, touched p.1) :
    Std.ExtTreeMap.map (fun k vs => if touched k then Canon.canon vs else vs)
        (pushAll (Std.ExtTreeMap.filter (fun _ vs => !vs.isEmpty)
          (Std.ExtTreeMap.map (fun _ vs => vs.filter keep) (index l))) added)
      = index (l.filter (fun p => keep p.2) ++ added) := by
  refine ext_get fun k => ?_
  have hvals : valuesOf (l.filter fun p => keep p.2) k = (valuesOf l k).filter keep := by
    simp only [valuesOf, List.filter_map, List.filter_filter, Function.comp_def, Bool.and_comm]
  have hkept : (Std.ExtTreeMap.filter (fun _ vs => !vs.isEmpty)
      (Std.ExtTreeMap.map (fun _ vs => vs.filter keep) (index l)))[k]?
      = if (valuesOf l k).filter keep = [] then none
        else some (Canon.canon ((valuesOf l k).filter keep)) := by
    rw [get_filter, Std.ExtTreeMap.getElem?_map, get_index]
    by_cases hnil : valuesOf l k = []
    · simp [hnil]
    · rw [if_neg hnil, Option.map_some, Canon.canon_filter]
      by_cases hf : (valuesOf l k).filter keep = []
      · simp [hf]
      · have hne : Canon.canon ((valuesOf l k).filter keep) ≠ [] := by
          rwa [ne_eq, Canon.canon_eq_nil]
        simp [hf, Option.filter, hne]
  rw [Std.ExtTreeMap.getElem?_map, get_pushAll, get_index, valuesOf_append, hvals, list, hkept]
  by_cases hadd : added.filter (·.1 = k) = []
  · have hv : valuesOf added k = [] := by rw [valuesOf, hadd, List.map_nil]
    rw [if_pos hadd, hv, List.append_nil]
    by_cases hf : (valuesOf l k).filter keep = []
    · simp [hf]
    · simp [hf]
  · obtain ⟨p, hp⟩ := List.exists_mem_of_ne_nil _ hadd
    obtain ⟨hmem, hpk⟩ := List.mem_filter.mp hp
    have htouched : touched k := (of_decide_eq_true hpk) ▸ hadded p hmem
    have happ : (valuesOf l k).filter keep ++ valuesOf added k ≠ [] := by
      rw [ne_eq, List.append_eq_nil_iff, valuesOf, valuesOf, List.map_eq_nil_iff (l := added.filter _)]
      exact fun h => hadd h.2
    rw [if_neg hadd, if_neg happ, Option.map_some, if_pos htouched]
    congr 1
    refine Canon.canon_congr fun v => ?_
    by_cases hf : (valuesOf l k).filter keep = []
    · rw [if_pos hf, hf]; rfl
    · rw [if_neg hf, Option.getD_some, List.mem_append, List.mem_append, Canon.mem_canon]
      rfl

end BTreeMap
