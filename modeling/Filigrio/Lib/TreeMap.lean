import Mathlib
import Filigrio.Lib.Canon

/-!
# Ordered maps built by loops

`BTreeMap` is the extensional ordered map: two of them are equal as soon as they
answer every lookup alike. This module has the lookups of the maps that loops
build: by inserting pairs in turn (the last one wins), by inserting only absent
keys (the first one wins), and by pushing values onto the list kept under a key.
-/

/-- The ordered map of Rust's standard library, iterated in key order. -/
abbrev BTreeMap (κ : Type*) (ν : Type*) [LinearOrder κ] := Std.ExtTreeMap κ ν compare

namespace BTreeMap

variable {κ : Type*} {ν : Type*} [LinearOrder κ]

/-- The comparison of a linear order is transitive. -/
instance : Std.TransCmp (compare : κ → κ → Ordering) := Std.LawfulBCmp.toTransCmp

/-- Pairs, compared by their first components first. -/
instance {ι : Type*} [LinearOrder ι] : Std.TransCmp (@compare (κ ×ₗ ι) LinearOrder.toOrd) :=
  inferInstance

/-- Ordered maps are compared by their listings. -/
instance [DecidableEq ν] : DecidableEq (BTreeMap κ ν) :=
  inferInstanceAs (DecidableEq (Std.ExtTreeMap κ ν compare))

theorem ext_get {m m' : BTreeMap κ ν} (h : ∀ k : κ, m[k]? = m'[k]?) : m = m' :=
  Std.ExtTreeMap.ext_getElem? h

theorem get_insert (m : BTreeMap κ ν) (k k' : κ) (v : ν) :
    (m.insert k v)[k']? = if k = k' then some v else m[k']? := by
  rw [Std.ExtTreeMap.getElem?_insert]
  simp only [compare_eq_iff_eq]

theorem get_erase (m : BTreeMap κ ν) (k k' : κ) :
    (m.erase k)[k']? = if k = k' then none else m[k']? := by
  rw [Std.ExtTreeMap.getElem?_erase]
  simp only [compare_eq_iff_eq]

theorem get_insertIfNew (m : BTreeMap κ ν) (k k' : κ) (v : ν) :
    (m.insertIfNew k v)[k']? = if k = k' then some (m[k]?.getD v) else m[k']? := by
  rw [Std.ExtTreeMap.getElem?_insertIfNew]
  simp only [compare_eq_iff_eq]
  by_cases hk : k = k'
  · subst hk
    by_cases hm : k ∈ m
    · have : m[k]? = some m[k] := Std.ExtTreeMap.getElem?_eq_some_getElem hm
      simp [hm]
    · simp [hm]
  · simp [hk]

theorem get_filter (m : BTreeMap κ ν) (p : κ → ν → Bool) (k : κ) :
    (Std.ExtTreeMap.filter p m)[k]? = m[k]?.filter (p k) := Std.ExtTreeMap.getElem?_filter'

theorem mem_toList {m : BTreeMap κ ν} {k : κ} {v : ν} : (k, v) ∈ m.toList ↔ m[k]? = some v :=
  Std.ExtTreeMap.mem_toList_iff_getElem?_eq_some

open Std.DTreeMap.Internal in
theorem values_eq (m : BTreeMap κ ν) : m.values = m.toList.map Prod.snd := by
  obtain ⟨⟨q⟩⟩ := m
  induction q using Quotient.inductionOn with
  | h t =>
      show t.inner.values = (Impl.Const.toList t.inner).map Prod.snd
      rw [Impl.values, Impl.Const.toList, Impl.foldr_eq_foldr, Impl.foldr_eq_foldr]
      induction t.inner.toListModel with
      | nil => rfl
      | cons p l ih => simp only [List.foldr_cons, List.map_cons, ih]

theorem mem_values {m : BTreeMap κ ν} {v : ν} : v ∈ m.values ↔ ∃ k : κ, m[k]? = some v := by
  rw [values_eq, List.mem_map]
  constructor
  · intro ⟨⟨k, w⟩, hmem, heq⟩
    exact ⟨k, heq ▸ mem_toList.mp hmem⟩
  · intro ⟨k, hk⟩
    exact ⟨(k, v), mem_toList.mpr hk, rfl⟩

/-! ### Inserting in turn: the last pair of a key wins -/

/-- Insert every pair of `l`, from left to right. -/
def insertAll (m : BTreeMap κ ν) (l : List (κ × ν)) : BTreeMap κ ν :=
  l.foldl (fun m p => m.insert p.1 p.2) m

@[simp] theorem insertAll_nil (m : BTreeMap κ ν) : insertAll m [] = m := rfl

theorem insertAll_append (m : BTreeMap κ ν) (l l' : List (κ × ν)) :
    insertAll m (l ++ l') = insertAll (insertAll m l) l' := List.foldl_append ..

/-- The value an `insertAll` leaves under `k`: the last one listed for `k`, else the old one. -/
theorem get_insertAll (m : BTreeMap κ ν) (l : List (κ × ν)) (k : κ) :
    (insertAll m l)[k]? = ((l.filter (·.1 = k)).getLast?.map Prod.snd).or m[k]? := by
  induction l using List.reverseRecOn with
  | nil => simp
  | append_singleton l p ih =>
      rw [insertAll_append, List.filter_append]
      by_cases hk : p.1 = k
      · simp [insertAll, hk]
      · simpa [insertAll, get_insert, hk] using ih

/-- Inserting `f`-values over a list of keys: every listed key reads its own value,
the others what they had. -/
theorem get_insertAll_map (m : BTreeMap κ ν) (l : List κ) (f : κ → ν) (k : κ) :
    (insertAll m (l.map fun a => (a, f a)))[k]? = if k ∈ l then some (f k) else m[k]? := by
  induction l using List.reverseRecOn with
  | nil => simp
  | append_singleton l a ih =>
      have hsnoc : insertAll m ((l ++ [a]).map fun a => (a, f a))
          = (insertAll m (l.map fun a => (a, f a))).insert a (f a) := by
        rw [List.map_append, insertAll_append]
        rfl
      rw [hsnoc, get_insert, ih]
      by_cases hk : a = k
      · subst hk
        simp
      · have hk' : ¬ k = a := fun h => hk h.symm
        simp [hk, hk']

theorem mem_insertAll {m : BTreeMap κ ν} {l : List (κ × ν)} {k : κ} :
    k ∈ insertAll m l ↔ k ∈ l.map Prod.fst ∨ k ∈ m := by
  induction l using List.reverseRecOn with
  | nil => simp
  | append_singleton l p ih =>
      have hsnoc : insertAll m (l ++ [p]) = (insertAll m l).insert p.1 p.2 := by
        rw [insertAll_append]; rfl
      rw [hsnoc, Std.ExtTreeMap.mem_insert, ih, compare_eq_iff_eq, List.map_append,
        List.mem_append, List.map_singleton, List.mem_singleton]
      constructor
      · rintro (rfl | h | h)
        · exact Or.inl (Or.inr rfl)
        · exact Or.inl (Or.inl h)
        · exact Or.inr h
      · rintro ((h | rfl) | h)
        · exact Or.inr (Or.inl h)
        · exact Or.inl rfl
        · exact Or.inr (Or.inr h)

/-- Erasing every key of a list. -/
theorem get_foldl_erase (m : BTreeMap κ ν) (l : List κ) (k : κ) :
    (l.foldl (fun m k => m.erase k) m)[k]? = if k ∈ l then none else m[k]? := by
  induction l generalizing m with
  | nil => simp
  | cons a l ih =>
      rw [List.foldl_cons, ih, get_erase]
      by_cases hl : k ∈ l
      · rw [if_pos hl, if_pos (List.mem_cons_of_mem _ hl)]
      · rw [if_neg hl]
        by_cases ha : a = k
        · rw [if_pos ha, if_pos (by simp [ha])]
        · rw [if_neg ha, if_neg]
          rintro h
          rcases List.mem_cons.mp h with h | h
          · exact ha h.symm
          · exact hl h

/-- Merging a map into another: its own entries win. -/
theorem get_insertAll_toList (m n : BTreeMap κ ν) (k : κ) :
    (insertAll m n.toList)[k]? = n[k]?.or m[k]? := by
  rw [get_insertAll]
  have hvalue : ∀ p ∈ n.toList.filter (·.1 = k), n[k]? = some p.2 := fun p hp => by
    obtain ⟨hmem, hk⟩ := List.mem_filter.mp hp
    exact of_decide_eq_true hk ▸ mem_toList.mp hmem
  cases hlast : (n.toList.filter (·.1 = k)).getLast? with
  | some p => rw [hvalue p (List.mem_of_getLast? hlast)]; rfl
  | none =>
      have hnil := List.filter_eq_nil_iff.mp (List.getLast?_eq_none_iff.mp hlast)
      cases hn : n[k]? with
      | none => rfl
      | some v => exact absurd (decide_eq_true rfl) (hnil (k, v) (mem_toList.mpr hn))

/-- Pairs that a map has, inserted into an empty one: the map, at their keys. -/
theorem get_insertAll_of_agree {m : BTreeMap κ ν} {l : List (κ × ν)}
    (h : ∀ p ∈ l, m[p.1]? = some p.2) (k : κ) :
    (insertAll ∅ l)[k]? = if k ∈ l.map Prod.fst then m[k]? else none := by
  rw [get_insertAll, Std.ExtTreeMap.getElem?_empty, Option.or_none]
  cases hlast : (l.filter (·.1 = k)).getLast? with
  | some p =>
      obtain ⟨hmem, hk⟩ := List.mem_filter.mp (List.mem_of_getLast? hlast)
      obtain rfl := of_decide_eq_true hk
      rw [if_pos (List.mem_map_of_mem hmem), h p hmem]
      rfl
  | none =>
      rw [if_neg]
      · rfl
      · intro hmem
        obtain ⟨p, hp, rfl⟩ := List.mem_map.mp hmem
        have hnil := List.filter_eq_nil_iff.mp (List.getLast?_eq_none_iff.mp hlast)
        exact hnil p hp (decide_eq_true rfl)

/-! ### Inserting absent keys only: the first pair of a key wins -/

/-- Insert every pair of `l` whose key is still absent, from left to right
(`entry(k).or_insert(v)`). -/
def insertNew (m : BTreeMap κ ν) (l : List (κ × ν)) : BTreeMap κ ν :=
  l.foldl (fun m p => m.insertIfNew p.1 p.2) m

theorem get_insertNew (m : BTreeMap κ ν) (l : List (κ × ν)) (k : κ) :
    (insertNew m l)[k]? = m[k]?.or ((l.filter (·.1 = k)).head?.map Prod.snd) := by
  induction l generalizing m with
  | nil => simp [insertNew]
  | cons p l ih =>
      have hcons : insertNew m (p :: l) = insertNew (m.insertIfNew p.1 p.2) l := rfl
      rw [hcons, ih, get_insertIfNew]
      by_cases hk : p.1 = k
      · cases hm : m[k]? <;> simp [hk, hm]
      · simp [hk]

/-! ### Pushing onto the list kept under a key -/

/-- `entry(k).or_default().push(v)`. -/
def push (m : BTreeMap κ (List ν)) (k : κ) (v : ν) : BTreeMap κ (List ν) :=
  m.alter k fun o => some (o.getD [] ++ [v])

/-- The list kept under `k`, empty when there is none. -/
def list (m : BTreeMap κ (List ν)) (k : κ) : List ν := m[k]?.getD []

/-- Push every pair of `l`, from left to right. -/
def pushAll (m : BTreeMap κ (List ν)) (l : List (κ × ν)) : BTreeMap κ (List ν) :=
  l.foldl (fun m p => push m p.1 p.2) m

/-- All pairs of a multimap, in key order and then in list order. -/
def pairs (m : BTreeMap κ (List ν)) : List (κ × ν) :=
  m.toList.flatMap fun p => p.2.map fun v => (p.1, v)

theorem get_push (m : BTreeMap κ (List ν)) (k k' : κ) (v : ν) :
    (push m k v)[k']? = if k = k' then some (list m k ++ [v]) else m[k']? := by
  rw [push, Std.ExtTreeMap.getElem?_alter]
  simp only [compare_eq_iff_eq, list]

theorem get_pushAll (m : BTreeMap κ (List ν)) (l : List (κ × ν)) (k : κ) :
    (pushAll m l)[k]? = if l.filter (·.1 = k) = [] then m[k]?
      else some (list m k ++ (l.filter (·.1 = k)).map Prod.snd) := by
  induction l generalizing m with
  | nil => simp [pushAll]
  | cons p l ih =>
      have hcons : pushAll m (p :: l) = pushAll (push m p.1 p.2) l := rfl
      rw [hcons, ih]
      by_cases hk : p.1 = k
      · have hlist : list (push m p.1 p.2) k = list m k ++ [p.2] := by
          simp [list, get_push, hk]
        by_cases hl : l.filter (·.1 = k) = []
        · simp [get_push, hk, hl]
        · rw [if_neg hl, if_neg (by simp [hk]), hlist]
          simp [hk]
      · have hlist : list (push m p.1 p.2) k = list m k := by simp [list, get_push, hk]
        rw [hlist, get_push, if_neg hk]
        simp only [List.filter_cons, hk, decide_false, Bool.false_eq_true, if_false]

theorem list_pushAll (m : BTreeMap κ (List ν)) (l : List (κ × ν)) (k : κ) :
    list (pushAll m l) k = list m k ++ (l.filter (·.1 = k)).map Prod.snd := by
  rw [list, get_pushAll]
  split
  · rename_i h; simp [h, list]
  · rfl

theorem mem_pairs {m : BTreeMap κ (List ν)} {k : κ} {v : ν} : (k, v) ∈ pairs m ↔ v ∈ list m k := by
  simp only [pairs, List.mem_flatMap, List.mem_map, Prod.mk.injEq, Prod.exists, list]
  constructor
  · rintro ⟨k', l, hmem, v', hv', rfl, rfl⟩
    rw [mem_toList] at hmem
    simp [hmem, hv']
  · intro hv
    cases hm : m[k]? with
    | none => simp [hm] at hv
    | some l =>
        rw [hm] at hv
        exact ⟨k, l, mem_toList.mpr hm, v, hv, rfl, rfl⟩

/-- Apply `f` to every value list. -/
theorem list_map (m : BTreeMap κ (List ν)) (f : List ν → List ν) (hf : f [] = []) (k : κ) :
    list (Std.ExtTreeMap.map (fun _ l => f l) m) k = f (list m k) := by
  rw [list, Std.ExtTreeMap.getElem?_map, list]
  cases m[k]? <;> simp [hf]

end BTreeMap
