import Mathlib.Data.List.Nodup
import Mathlib.Tactic.Common

/-!
# Index maps

A map that remembers the order of its keys, as a list of pairs. Inserting replaces in place
or appends; removing moves the last pair to the place that is left (`swapRemove`), so it
keeps the order of the others only where at most one of them stands behind
(`keys_swapRemove_iff`).
-/

namespace IndexMap

section Keys

variable {κ ν : Type*}

def keys (m : List (κ × ν)) : List κ := m.map Prod.fst

@[simp] theorem keys_nil : keys ([] : List (κ × ν)) = [] := rfl

@[simp] theorem keys_cons (kv : κ × ν) (m : List (κ × ν)) : keys (kv :: m) = kv.1 :: keys m := rfl

@[simp] theorem keys_append (m m' : List (κ × ν)) : keys (m ++ m') = keys m ++ keys m' :=
  List.map_append

/-- The pairs behind a place that is left, with the last one moved to it. -/
def rotate (back : List (κ × ν)) : List (κ × ν) :=
  match back.getLast? with
  | none => []
  | some last => last :: back.dropLast

theorem rotate_concat (init : List (κ × ν)) (last : κ × ν) :
    rotate (init ++ [last]) = last :: init := by
  simp [rotate]

theorem rotate_perm (back : List (κ × ν)) : (rotate back).Perm back := by
  rcases List.eq_nil_or_concat back with rfl | ⟨init, last, rfl⟩
  · exact .refl _
  · rw [List.concat_eq_append, rotate_concat]
    exact (List.perm_append_singleton last init).symm

/-- At most one pair behind the place: the order is kept. -/
theorem keys_rotate_iff {back : List (κ × ν)} (hnodup : (keys back).Nodup) :
    keys (rotate back) = keys back ↔ back.length ≤ 1 := by
  rcases List.eq_nil_or_concat back with rfl | ⟨init, last, rfl⟩
  · simp [rotate]
  · rw [List.concat_eq_append] at hnodup ⊢
    rw [rotate_concat]
    cases init with
    | nil => simp
    | cons first init =>
        have hne : last.1 ≠ first.1 := by
          intro heq
          rw [List.cons_append, keys_cons, List.nodup_cons] at hnodup
          exact hnodup.1 (by simp [heq])
        constructor
        · intro heq
          exact absurd (List.cons.inj heq).1 hne
        · intro hlen
          simp at hlen

end Keys

variable {κ ν : Type*} [DecidableEq κ] {m : List (κ × ν)} {k k' : κ} {v : ν}

def get (m : List (κ × ν)) (k : κ) : Option ν := (m.find? fun kv => kv.1 = k).map Prod.snd

/-- Another value for a key that is there. -/
def set (m : List (κ × ν)) (k : κ) (v : ν) : List (κ × ν) :=
  m.map fun kv => if kv.1 = k then (k, v) else kv

def insert (m : List (κ × ν)) (k : κ) (v : ν) : List (κ × ν) :=
  if k ∈ keys m then set m k v else m ++ [(k, v)]

/-- A value for a key that is missing. -/
def insertIfNew (m : List (κ × ν)) (k : κ) (v : ν) : List (κ × ν) :=
  if k ∈ keys m then m else m ++ [(k, v)]

/-- Remove a pair, and move the last one to its place. -/
def swapRemove : List (κ × ν) → κ → List (κ × ν)
  | [], _ => []
  | kv :: rest, k =>
      if kv.1 = k then rotate rest else kv :: swapRemove rest k

@[simp] theorem get_nil (k : κ) : get ([] : List (κ × ν)) k = none := rfl

theorem get_cons (kv : κ × ν) (m : List (κ × ν)) (k : κ) :
    get (kv :: m) k = if kv.1 = k then some kv.2 else get m k := by
  unfold get
  rw [List.find?_cons]
  by_cases h : kv.1 = k
  · simp [h]
  · simp [h]

theorem get_append (m m' : List (κ × ν)) (k : κ) : get (m ++ m') k = (get m k).or (get m' k) := by
  induction m with
  | nil => rfl
  | cons kv m ih =>
      rw [List.cons_append, get_cons, get_cons, ih]
      split <;> rfl

theorem get_eq_none_iff : get m k = none ↔ k ∉ keys m := by
  induction m with
  | nil => simp
  | cons kv m ih =>
      rw [get_cons, keys_cons, List.mem_cons, not_or]
      by_cases h : kv.1 = k
      · simp [h]
      · simp [h, ih, Ne.symm h]

theorem mem_keys_iff : k ∈ keys m ↔ (get m k).isSome := by
  rw [Option.isSome_iff_ne_none, ne_eq, get_eq_none_iff, not_not]

theorem mem_keys_of_get (h : get m k = some v) : k ∈ keys m := by
  rw [mem_keys_iff, h]
  rfl

/-! ### Inserting -/

@[simp] theorem keys_set (m : List (κ × ν)) (k : κ) (v : ν) : keys (set m k v) = keys m := by
  induction m with
  | nil => rfl
  | cons kv m ih =>
      change (if kv.1 = k then (k, v) else kv).1 :: keys (set m k v) = _
      rw [ih]
      split
      · rename_i h
        rw [keys_cons, h]
      · rfl

theorem get_set_self (h : k ∈ keys m) : get (set m k v) k = some v := by
  induction m with
  | nil => cases h
  | cons kv m ih =>
      change get ((if kv.1 = k then (k, v) else kv) :: set m k v) k = _
      rw [get_cons]
      by_cases hk : kv.1 = k
      · simp [hk]
      · have hmem : k ∈ keys m := by
          rcases List.mem_cons.mp h with heq | hmem
          · exact absurd heq.symm hk
          · exact hmem
        simp [hk, ih hmem]

theorem get_set_of_ne (h : k' ≠ k) : get (set m k v) k' = get m k' := by
  induction m with
  | nil => rfl
  | cons kv m ih =>
      change get ((if kv.1 = k then (k, v) else kv) :: set m k v) k' = _
      rw [get_cons, get_cons, ih]
      by_cases hk : kv.1 = k
      · simp [hk, h.symm]
      · simp [hk]

theorem keys_insert (m : List (κ × ν)) (k : κ) (v : ν) :
    keys (insert m k v) = if k ∈ keys m then keys m else keys m ++ [k] := by
  unfold insert
  split
  · exact keys_set m k v
  · simp [keys]

theorem get_insert_self (m : List (κ × ν)) (k : κ) (v : ν) : get (insert m k v) k = some v := by
  unfold insert
  split
  · exact get_set_self ‹_›
  · rw [get_append, get_eq_none_iff.mpr ‹_›, get_cons, if_pos rfl]
    rfl

theorem get_insert_of_ne (h : k' ≠ k) : get (insert m k v) k' = get m k' := by
  unfold insert
  split
  · exact get_set_of_ne h
  · rw [get_append, get_cons, if_neg h.symm, get_nil, Option.or_none]

/-- New keys are appended in turn. -/
theorem foldl_insertIfNew {l : List (κ × ν)} (hnodup : (keys l).Nodup)
    (hnew : ∀ k ∈ keys l, k ∉ keys m) :
    l.foldl (fun m kv => insertIfNew m kv.1 kv.2) m = m ++ l := by
  induction l generalizing m with
  | nil => simp
  | cons kv l ih =>
      rw [keys_cons, List.nodup_cons] at hnodup
      have hkv : kv.1 ∉ keys m := hnew kv.1 List.mem_cons_self
      rw [List.foldl_cons, insertIfNew, if_neg hkv, ih hnodup.2]
      · simp
      · intro k hk hmem
        rw [keys_append, List.mem_append] at hmem
        rcases hmem with hmem | hmem
        · exact hnew k (List.mem_cons_of_mem _ hk) hmem
        · rw [List.mem_singleton.mp hmem] at hk
          exact hnodup.1 hk

/-! ### Removing -/

/-- The pair that is removed, between what stands in front of it and behind it. -/
theorem swapRemove_append (front : List (κ × ν)) (v : ν) (back : List (κ × ν))
    (h : k ∉ keys front) : swapRemove (front ++ (k, v) :: back) k = front ++ rotate back := by
  induction front with
  | nil => rw [List.nil_append, List.nil_append, swapRemove, if_pos rfl]
  | cons kv front ih =>
      rw [keys_cons, List.mem_cons, not_or] at h
      rw [List.cons_append, swapRemove, if_neg (Ne.symm h.1), ih h.2]
      rfl

theorem exists_split (h : k ∈ keys m) :
    ∃ front v back, m = front ++ (k, v) :: back ∧ k ∉ keys front := by
  induction m with
  | nil => cases h
  | cons kv m ih =>
      by_cases hk : kv.1 = k
      · exact ⟨[], kv.2, m, by rw [← hk]; rfl, by simp⟩
      · obtain ⟨front, v, back, rfl, hfront⟩ :=
          ih ((List.mem_cons.mp h).resolve_left (Ne.symm hk))
        exact ⟨kv :: front, v, back, rfl, by simp [hfront, Ne.symm hk]⟩

theorem get_of_mem (hnodup : (keys m).Nodup) (h : (k, v) ∈ m) : get m k = some v := by
  induction m with
  | nil => cases h
  | cons kv m ih =>
      rw [keys_cons, List.nodup_cons] at hnodup
      rw [get_cons]
      rcases List.mem_cons.mp h with rfl | hm
      · rw [if_pos rfl]
      · have hne : kv.1 ≠ k := by
          intro heq
          exact hnodup.1 (heq ▸ List.mem_map_of_mem hm)
        rw [if_neg hne, ih hnodup.2 hm]

theorem mem_of_get (h : get m k = some v) : (k, v) ∈ m := by
  obtain ⟨kv, hfind, rfl⟩ := Option.map_eq_some_iff.mp h
  have hkey : kv.1 = k := by simpa using List.find?_some hfind
  rw [← hkey]
  exact List.mem_of_find?_eq_some hfind

/-- A map with unique keys is read the same in every order. -/
theorem get_perm {m' : List (κ × ν)} (hnodup : (keys m).Nodup) (h : m.Perm m') :
    get m k = get m' k := by
  have hnodup' : (keys m').Nodup := (h.map Prod.fst).nodup_iff.mp hnodup
  cases hget : get m' k with
  | none =>
      rw [get_eq_none_iff] at hget ⊢
      intro hmem
      exact hget ((h.map Prod.fst).mem_iff.mp hmem)
  | some v => exact get_of_mem hnodup (h.mem_iff.mpr (mem_of_get hget))

theorem swapRemove_perm (h : k ∈ keys m) :
    ∃ v, ((k, v) :: swapRemove m k).Perm m := by
  obtain ⟨front, v, back, rfl, hfront⟩ := exists_split h
  refine ⟨v, ?_⟩
  rw [swapRemove_append front v back hfront]
  exact ((rotate_perm back).append_left front).cons (k, v) |>.trans List.perm_middle.symm

theorem swapRemove_of_notMem (h : k ∉ keys m) : swapRemove m k = m := by
  induction m with
  | nil => rfl
  | cons kv m ih =>
      rw [keys_cons, List.mem_cons, not_or] at h
      rw [swapRemove, if_neg (Ne.symm h.1), ih h.2]

theorem get_swapRemove_self (hnodup : (keys m).Nodup) : get (swapRemove m k) k = none := by
  by_cases h : k ∈ keys m
  · obtain ⟨v, hperm⟩ := swapRemove_perm h
    have hkeys := (hperm.map Prod.fst).nodup_iff.mpr hnodup
    exact get_eq_none_iff.mpr (List.nodup_cons.mp hkeys).1
  · rw [swapRemove_of_notMem h]
    exact get_eq_none_iff.mpr h

theorem get_swapRemove_of_ne (hnodup : (keys m).Nodup) (hne : k' ≠ k) :
    get (swapRemove m k) k' = get m k' := by
  by_cases h : k ∈ keys m
  · obtain ⟨v, hperm⟩ := swapRemove_perm h
    rw [← get_perm ((hperm.map Prod.fst).nodup_iff.mpr hnodup) hperm, get_cons,
      if_neg (Ne.symm hne)]
  · rw [swapRemove_of_notMem h]

/-- Nothing is left exactly where there was nothing else. -/
theorem swapRemove_eq_nil_iff (h : k ∈ keys m) : swapRemove m k = [] ↔ keys m = [k] := by
  obtain ⟨v, hperm⟩ := swapRemove_perm h
  constructor
  · intro hnil
    rw [hnil] at hperm
    rw [List.perm_singleton.mp hperm.symm]
    rfl
  · intro hkeys
    have hlen := hperm.length_eq
    have hone : m.length = 1 := by simpa [keys] using congrArg List.length hkeys
    rw [List.length_cons, hone] at hlen
    exact List.length_eq_zero_iff.mp (by omega)

theorem set_of_notMem (h : k ∉ keys m) : set m k v = m := by
  induction m with
  | nil => rfl
  | cons kv m ih =>
      rw [keys_cons, List.mem_cons, not_or] at h
      change (if kv.1 = k then (k, v) else kv) :: set m k v = _
      rw [if_neg (Ne.symm h.1), ih h.2]

theorem swapRemove_set (v : ν) (hnodup : (keys m).Nodup) :
    swapRemove (set m k v) k = swapRemove m k := by
  induction m with
  | nil => rfl
  | cons kv m ih =>
      rw [keys_cons, List.nodup_cons] at hnodup
      change swapRemove ((if kv.1 = k then (k, v) else kv) :: set m k v) k = _
      by_cases hk : kv.1 = k
      · rw [if_pos hk, swapRemove, swapRemove, if_pos rfl, if_pos hk,
          set_of_notMem (by rw [← hk]; exact hnodup.1)]
      · rw [if_neg hk, swapRemove, swapRemove, if_neg hk, if_neg hk, ih hnodup.2]

/-- The order of the others is kept where at most one of them stands behind. -/
theorem keys_swapRemove_iff (hnodup : (keys m).Nodup) (h : k ∈ keys m) :
    keys (swapRemove m k) = (keys m).filter (fun k' => k' ≠ k)
      ↔ ((keys m).dropWhile fun k' => k' ≠ k).length ≤ 2 := by
  obtain ⟨front, v, back, rfl, hfront⟩ := exists_split h
  rw [keys_append, keys_cons, List.nodup_append] at hnodup
  obtain ⟨-, hback, -⟩ := hnodup
  rw [List.nodup_cons] at hback
  have hne : ∀ k' ∈ keys front, decide (k' ≠ k) = true := by
    intro k' hk'
    simpa using fun heq : k' = k => hfront (heq ▸ hk')
  have hfilterBack : (keys back).filter (fun k' => k' ≠ k) = keys back := by
    refine List.filter_eq_self.mpr fun k' hk' => ?_
    simpa using fun heq : k' = k => hback.1 (heq ▸ hk')
  have hdrop : ((keys front ++ k :: keys back).dropWhile fun k' => k' ≠ k) = k :: keys back := by
    rw [List.dropWhile_append_of_pos hne]
    simp
  have hlen : (keys back).length = back.length := by simp [keys]
  rw [swapRemove_append front v back hfront, keys_append, keys_append, keys_cons,
    List.filter_append, List.filter_eq_self.mpr hne, List.filter_cons_of_neg (by simp), hfilterBack, hdrop,
    List.append_cancel_left_eq, keys_rotate_iff hback.2, List.length_cons, hlen]
  omega

end IndexMap
