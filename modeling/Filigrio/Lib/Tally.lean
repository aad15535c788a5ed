import Filigrio.Lib.TreeMap

/-!
# Tallies

Ordered maps that loops fill with `entry(key).or_default()`: values are added up under
their keys, so that a lookup answers the sum of what came under the key, and has no
entry when nothing came.
-/

namespace BTreeMap

variable {κ : Type*} {M : Type*} [LinearOrder κ] [AddCommMonoid M]

/-- `*m.entry(k).or_default() += v`. -/
def addAt (m : BTreeMap κ M) (k : κ) (v : M) : BTreeMap κ M := m.insert k ((m[k]?).getD 0 + v)

/-- Add values under their keys, one after the other. -/
def addAll (m : BTreeMap κ M) (l : List (κ × M)) : BTreeMap κ M :=
  l.foldl (fun m kv => m.addAt kv.1 kv.2) m

/-- What a list adds up to under a key. -/
def sumAt (l : List (κ × M)) (k : κ) : M := ((l.filter fun kv => kv.1 = k).map Prod.snd).sum

@[simp] theorem sumAt_nil (k : κ) : sumAt ([] : List (κ × M)) k = 0 := rfl

theorem sumAt_cons (kv : κ × M) (l : List (κ × M)) (k : κ) :
    sumAt (kv :: l) k = (if kv.1 = k then kv.2 else 0) + sumAt l k := by
  unfold sumAt
  by_cases h : kv.1 = k <;> simp [h]

theorem sumAt_of_notMem {l : List (κ × M)} {k : κ} (h : k ∉ l.map Prod.fst) : sumAt l k = 0 := by
  induction l with
  | nil => rfl
  | cons kv l ih =>
      rw [List.map_cons, List.mem_cons, not_or] at h
      rw [sumAt_cons, if_neg fun heq => h.1 heq.symm, ih h.2, add_zero]

theorem get_addAt (m : BTreeMap κ M) (k k' : κ) (v : M) :
    (m.addAt k v)[k']? = if k = k' then some ((m[k']?).getD 0 + v) else m[k']? := by
  rw [addAt, get_insert]
  split
  · rename_i h
    rw [h]
  · rfl

/-- A lookup in a filled map. -/
theorem get_addAll (m : BTreeMap κ M) (l : List (κ × M)) (k : κ) :
    (m.addAll l)[k]? =
      if k ∈ l.map Prod.fst then some ((m[k]?).getD 0 + sumAt l k) else m[k]? := by
  induction l generalizing m with
  | nil => simp [addAll]
  | cons kv l ih =>
      have hstep : m.addAll (kv :: l) = (m.addAt kv.1 kv.2).addAll l := rfl
      rw [hstep, ih, get_addAt, sumAt_cons]
      simp only [List.map_cons, List.mem_cons]
      by_cases hk : kv.1 = k
      · subst hk
        by_cases hmem : kv.1 ∈ l.map Prod.fst
        · simp [hmem, add_assoc]
        · simp [hmem, sumAt_of_notMem hmem]
      · by_cases hmem : k ∈ l.map Prod.fst <;> simp [hk, hmem, Ne.symm hk]

theorem getD_addAll (m : BTreeMap κ M) (l : List (κ × M)) (k : κ) :
    ((m.addAll l)[k]?).getD 0 = (m[k]?).getD 0 + sumAt l k := by
  rw [get_addAll]
  split
  · rfl
  · rename_i h
    rw [sumAt_of_notMem h, add_zero]

/-- Ones under their keys are counted. -/
theorem sumAt_ones (l : List κ) (k : κ) : sumAt (l.map fun a => (a, 1)) k = l.count k := by
  induction l with
  | nil => rfl
  | cons a l ih =>
      rw [List.map_cons, sumAt_cons, ih, List.count_cons, add_comm]
      simp only [beq_iff_eq]

/-! ### Sums over what lists are made of -/

theorem sumAt_append (l l' : List (κ × M)) (k : κ) : sumAt (l ++ l') k = sumAt l k + sumAt l' k := by
  simp [sumAt]

theorem sumAt_flatMap {α : Type*} (l : List α) (f : α → List (κ × M)) (k : κ) :
    sumAt (l.flatMap f) k = (l.map fun a => sumAt (f a) k).sum := by
  induction l with
  | nil => rfl
  | cons a l ih => rw [List.flatMap_cons, sumAt_append, ih, List.map_cons, List.sum_cons]

theorem sumAt_map {α : Type*} (l : List α) (f : α → κ) (v : α → M) (k : κ) :
    sumAt (l.map fun a => (f a, v a)) k = (l.map fun a => if f a = k then v a else 0).sum := by
  induction l with
  | nil => rfl
  | cons a l ih => rw [List.map_cons, sumAt_cons, ih, List.map_cons, List.sum_cons]

/-- Under distinct keys nothing adds up. -/
theorem sumAt_of_nodup {l : List (κ × M)} (h : (l.map Prod.fst).Nodup) {k : κ} {v : M}
    (hmem : (k, v) ∈ l) : sumAt l k = v := by
  induction l with
  | nil => cases hmem
  | cons kv l ih =>
      rw [List.map_cons, List.nodup_cons] at h
      rw [sumAt_cons]
      rcases List.mem_cons.mp hmem with rfl | hmem
      · rw [if_pos rfl, sumAt_of_notMem h.1, add_zero]
      · have hne : kv.1 ≠ k := by
          rintro rfl
          exact h.1 (List.mem_map.mpr ⟨_, hmem, rfl⟩)
        rw [if_neg hne, ih h.2 hmem, zero_add]

/-- The listing of a map adds up to its lookups. -/
theorem sumAt_toList (m : BTreeMap κ M) (k : κ) : sumAt m.toList k = (m[k]?).getD 0 := by
  have hnodup : (m.toList.map Prod.fst).Nodup := by
    rw [Std.ExtTreeMap.map_fst_toList_eq_keys]
    exact Std.ExtTreeMap.nodup_keys
  cases hget : m[k]? with
  | some v => rw [sumAt_of_nodup hnodup (mem_toList.mpr hget), Option.getD_some]
  | none =>
      rw [sumAt_of_notMem, Option.getD_none]
      intro hmem
      obtain ⟨⟨k', v⟩, hin, rfl⟩ := List.mem_map.mp hmem
      rw [mem_toList.mp hin] at hget
      cases hget

/-- Pairs with distinct keys, inserted in turn, are all found. -/
theorem get_insertAll_of_nodup {ν : Type*} {l : List (κ × ν)} (h : (l.map Prod.fst).Nodup)
    {k : κ} {v : ν} : (insertAll (∅ : BTreeMap κ ν) l)[k]? = some v ↔ (k, v) ∈ l := by
  induction l using List.reverseRecOn generalizing v with
  | nil => simp
  | append_singleton l kv ih =>
      rw [List.map_append, List.nodup_append] at h
      have hsnoc : insertAll (∅ : BTreeMap κ ν) (l ++ [kv])
          = (insertAll (∅ : BTreeMap κ ν) l).insert kv.1 kv.2 := by
        rw [insertAll_append]
        rfl
      have hnew : ∀ v', (kv.1, v') ∉ l := by
        intro v' hmem
        exact h.2.2 kv.1 (List.mem_map.mpr ⟨_, hmem, rfl⟩) kv.1 (by simp) rfl
      rw [hsnoc, get_insert, List.mem_append, List.mem_singleton]
      split
      · rename_i hk
        subst hk
        rw [or_iff_right (hnew v), Option.some.injEq, Prod.ext_iff]
        simp [eq_comm]
      · rename_i hk
        rw [ih h.1, or_iff_left]
        rintro rfl
        exact hk rfl

/-- The listing of a map made of pairs with distinct keys: the pairs, in some order. -/
theorem toList_insertAll_perm {ν : Type*} {l : List (κ × ν)} (h : (l.map Prod.fst).Nodup) :
    (insertAll (∅ : BTreeMap κ ν) l).toList.Perm l := by
  have hlisting : ((insertAll (∅ : BTreeMap κ ν) l).toList.map Prod.fst).Nodup := by
    rw [Std.ExtTreeMap.map_fst_toList_eq_keys]
    exact Std.ExtTreeMap.nodup_keys
  refine (List.perm_ext_iff_of_nodup hlisting.of_map h.of_map).mpr ?_
  rintro ⟨k, v⟩
  rw [mem_toList, get_insertAll_of_nodup h]

end BTreeMap
