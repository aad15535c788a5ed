import Mathlib.Data.List.Sort
import Mathlib.Data.Finset.Basic

/-!
# Canonical lists

A vector that has been sorted and whose consecutive repeats have been dropped is
the canonical listing of its own members: two vectors with the same members have
the same canonical form, and a canonical vector is left alone. This is what
`sort` followed by `dedup` computes on a totally ordered element type, and also
how an ordered set is iterated.
-/

namespace Canon

variable {α : Type*}

/-- Drop every element that equals its predecessor (`Vec::dedup`). -/
def dedupRuns [DecidableEq α] : List α → List α
  | [] => []
  | [a] => [a]
  | a :: b :: l => if a = b then dedupRuns (b :: l) else a :: dedupRuns (b :: l)

theorem mem_dedupRuns [DecidableEq α] {x : α} : ∀ {l : List α}, x ∈ dedupRuns l ↔ x ∈ l
  | [] => Iff.rfl
  | [_] => Iff.rfl
  | a :: b :: l => by
      unfold dedupRuns
      split
      · rename_i hab
        rw [mem_dedupRuns, hab]
        simp
      · rw [List.mem_cons, mem_dedupRuns, List.mem_cons (a := x) (b := a)]

variable [LinearOrder α]

/-- The sorted, repeat-free listing of the members of `l`. -/
def canon (l : List α) : List α := dedupRuns (l.insertionSort (· ≤ ·))

@[simp] theorem mem_canon {x : α} {l : List α} : x ∈ canon l ↔ x ∈ l := by
  rw [canon, mem_dedupRuns, List.mem_insertionSort]

/-- Dropping runs from a sorted list leaves a strictly sorted one. -/
theorem pairwise_dedupRuns : ∀ {l : List α}, l.Pairwise (· ≤ ·) → (dedupRuns l).Pairwise (· < ·)
  | [], _ => List.Pairwise.nil
  | [_], _ => List.pairwise_singleton _ _
  | a :: b :: l, h => by
      have htail : (b :: l).Pairwise (· ≤ ·) := h.tail
      unfold dedupRuns
      split
      · exact pairwise_dedupRuns htail
      · rename_i hne
        refine List.pairwise_cons.mpr ⟨fun x hx => ?_, pairwise_dedupRuns htail⟩
        have hab : a < b := lt_of_le_of_ne (List.rel_of_pairwise_cons h (by simp)) hne
        rcases List.mem_cons.mp (mem_dedupRuns.mp hx) with rfl | hx
        · exact hab
        · exact lt_of_lt_of_le hab (List.rel_of_pairwise_cons htail hx)

theorem canon_pairwise (l : List α) : (canon l).Pairwise (· < ·) :=
  pairwise_dedupRuns (List.pairwise_insertionSort _ l)

theorem canon_nodup (l : List α) : (canon l).Nodup :=
  (canon_pairwise l).imp ne_of_lt

/-- Two strictly sorted lists with the same members are equal. -/
theorem eq_of_mem_iff {l l' : List α} (h : l.Pairwise (· < ·)) (h' : l'.Pairwise (· < ·))
    (hmem : ∀ x, x ∈ l ↔ x ∈ l') : l = l' := by
  have hperm : l.Perm l' :=
    (List.perm_ext_iff_of_nodup (h.imp ne_of_lt) (h'.imp ne_of_lt)).mpr hmem
  exact hperm.eq_of_pairwise (fun a b _ _ hab hba => absurd hab (lt_asymm hba)) h h'

theorem canon_congr {l l' : List α} (hmem : ∀ x, x ∈ l ↔ x ∈ l') : canon l = canon l' :=
  eq_of_mem_iff (canon_pairwise l) (canon_pairwise l') (by simpa using hmem)

theorem canon_eq_self {l : List α} (h : l.Pairwise (· < ·)) : canon l = l :=
  eq_of_mem_iff (canon_pairwise l) h (fun _ => mem_canon)

@[simp] theorem canon_canon (l : List α) : canon (canon l) = canon l :=
  canon_eq_self (canon_pairwise l)

@[simp] theorem canon_nil : canon ([] : List α) = [] := rfl

theorem canon_eq_nil {l : List α} : canon l = [] ↔ l = [] := by
  simp only [List.eq_nil_iff_forall_not_mem, mem_canon]

/-- Filtering a canonical list keeps it canonical. -/
theorem canon_filter (p : α → Bool) (l : List α) : (canon l).filter p = canon (l.filter p) :=
  eq_of_mem_iff ((canon_pairwise l).filter p) (canon_pairwise _) (by simp)

end Canon
