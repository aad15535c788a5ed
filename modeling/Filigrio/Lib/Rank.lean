import Mathlib.Data.List.Sort
import Mathlib.Order.Basic

/-!
# Ranks

Lists put in the order of a key. The sort is stable, so elements of one key keep their
order, and the list of the keys depends on the elements alone; its first element is the one
that a scan ends with which replaces its best so far only by a strictly smaller key.
-/

namespace Rank

variable {α κ : Type*} [LinearOrder κ] (f : α → κ)

/-- `sort_by_key`. -/
def sortBy (l : List α) : List α := l.insertionSort fun a b => f a ≤ f b

/-- One element against the best so far. -/
def keepLeast (best : Option α) (a : α) : Option α :=
  match best with
  | none => some a
  | some b => if f a < f b then some a else some b

variable {f} {l l' : List α}

@[simp] theorem keepLeast_none (a : α) : keepLeast f none a = some a := rfl

theorem keepLeast_some (a b : α) : keepLeast f (some b) a = if f a < f b then some a else some b :=
  rfl

theorem perm_sortBy (l : List α) : (sortBy f l).Perm l := List.perm_insertionSort _ l

@[simp] theorem mem_sortBy {a : α} : a ∈ sortBy f l ↔ a ∈ l := (perm_sortBy l).mem_iff

theorem map_sortBy (l : List α) : (sortBy f l).map f = (l.map f).insertionSort (· ≤ ·) :=
  List.map_insertionSort _ _ f l fun _ _ _ _ => Iff.rfl

theorem sortBy_map {β : Type*} (g : β → α) (l : List β) :
    sortBy f (l.map g) = (sortBy (fun b => f (g b)) l).map g :=
  (List.map_insertionSort (fun b b' => f (g b) ≤ f (g b')) (fun a a' => f a ≤ f a') g l
    fun _ _ _ _ => Iff.rfl).symm

theorem pairwise_sortBy (l : List α) : (sortBy f l).Pairwise fun a b => f a ≤ f b := by
  have h := List.pairwise_insertionSort (· ≤ ·) (l.map f)
  rw [← map_sortBy] at h
  exact List.pairwise_map.mp h

theorem head?_orderedInsert (a : α) (l : List α) :
    (l.orderedInsert (fun a b => f a ≤ f b) a).head?
      = some (match l.head? with
        | none => a
        | some b => if f a ≤ f b then a else b) := by
  cases l with
  | nil => rfl
  | cons b l =>
      rw [List.orderedInsert_cons]
      by_cases h : f a ≤ f b <;> simp [h]

theorem sortBy_cons (a : α) (l : List α) :
    sortBy f (a :: l) = (sortBy f l).orderedInsert (fun a b => f a ≤ f b) a := rfl

theorem head?_sortBy_cons_cons (a b : α) (l : List α) :
    (sortBy f (b :: a :: l)).head? = (sortBy f ((if f a < f b then a else b) :: l)).head? := by
  rw [sortBy_cons, sortBy_cons, sortBy_cons, head?_orderedInsert, head?_orderedInsert,
    head?_orderedInsert]
  cases (sortBy f l).head? with
  | none =>
      simp only [Option.some.injEq]
      by_cases hab : f a < f b
      · rw [if_neg (not_le.mpr hab), if_pos hab]
      · rw [if_pos (not_lt.mp hab), if_neg hab]
  | some s =>
      simp only [Option.some.injEq]
      by_cases hab : f a < f b
      · rw [if_pos hab]
        by_cases has : f a ≤ f s
        · rw [if_pos has, if_neg (not_le.mpr hab)]
        · rw [if_neg has, if_neg (not_le.mpr ((not_le.mp has).trans hab))]
      · rw [if_neg hab]
        by_cases has : f a ≤ f s
        · rw [if_pos has, if_pos (not_lt.mp hab), if_pos ((not_lt.mp hab).trans has)]
        · rw [if_neg has]

/-- The scan ends with the first of the sorted list. -/
theorem foldl_keepLeast (l : List α) (best : Option α) :
    l.foldl (keepLeast f) best = (sortBy f (best.toList ++ l)).head? := by
  induction l generalizing best with
  | nil => cases best <;> rfl
  | cons a l ih =>
      rw [List.foldl_cons, ih]
      cases best with
      | none => rfl
      | some b =>
          have hstep : keepLeast f (some b) a = some (if f a < f b then a else b) := by
            rw [keepLeast_some]
            split <;> rfl
          rw [hstep]
          exact (head?_sortBy_cons_cons a b l).symm

theorem head?_sortBy_spec {a : α} (h : (sortBy f l).head? = some a) :
    a ∈ l ∧ ∀ b ∈ l, f a ≤ f b := by
  obtain ⟨rest, hrest⟩ := List.head?_eq_some_iff.mp h
  have hsorted := pairwise_sortBy (f := f) l
  rw [hrest, List.pairwise_cons] at hsorted
  refine ⟨mem_sortBy.mp (hrest ▸ List.mem_cons_self), fun b hb => ?_⟩
  rw [← mem_sortBy (f := f), hrest, List.mem_cons] at hb
  rcases hb with rfl | hb
  · exact le_rfl
  · exact hsorted.1 b hb

end Rank
