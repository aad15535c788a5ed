import Mathlib.Data.Multiset.AddSub
import Mathlib.Logic.Function.Basic
import Mathlib.Tactic.Common

/-!
# Multiset patches of a list

A *budget* says how many copies of each element are still to be matched. Walking
a list against a budget either drops the elements the budget pays for (`spend`)
or collects exactly those (`claim`). Over multisets the first is a subtraction
and the second an intersection, whatever the order of the lists, so the pair
`(new - old, old - new)` computed by two such walks is the minimal patch from
`old` to `new`, and `spend` applies it.
-/

namespace Patch

variable {α : Type*} [DecidableEq α]

/-- Walk `l`, dropping each element the budget still pays for. Returns what is
kept and what is left of the budget. -/
def spend : (α → ℕ) → List α → List α × (α → ℕ)
  | b, [] => ([], b)
  | b, a :: l =>
      if 0 < b a then spend (Function.update b a (b a - 1)) l
      else ((a :: (spend b l).1), (spend b l).2)

/-- Walk `l`, collecting each element the budget still pays for. -/
def claim : (α → ℕ) → List α → List α
  | _, [] => []
  | b, a :: l =>
      if 0 < b a then a :: claim (Function.update b a (b a - 1)) l else claim b l

/-- The budget that pays once for every occurrence in `l`. -/
def budget (l : List α) : α → ℕ := fun a => l.count a

theorem count_spend (x : α) : ∀ (b : α → ℕ) (l : List α),
    (spend b l).1.count x = l.count x - b x
  | b, [] => by simp [spend]
  | b, a :: l => by
      unfold spend
      split
      · rename_i hb
        rw [count_spend x _ l, List.count_cons]
        by_cases hx : a = x
        · subst hx; simp; omega
        · have hxa : x ≠ a := fun h => hx h.symm
          simp [Function.update_of_ne hxa, hx]
      · rename_i hb
        rw [List.count_cons, List.count_cons, count_spend x b l]
        by_cases hx : a = x
        · subst hx; simp; omega
        · simp [hx]

theorem left_spend (x : α) : ∀ (b : α → ℕ) (l : List α), (spend b l).2 x = b x - l.count x
  | b, [] => by simp [spend]
  | b, a :: l => by
      unfold spend
      split
      · rename_i hb
        rw [left_spend x _ l, List.count_cons]
        by_cases hx : a = x
        · subst hx; simp; omega
        · have hxa : x ≠ a := fun h => hx h.symm
          simp [Function.update_of_ne hxa, hx]
      · rename_i hb
        rw [left_spend x b l, List.count_cons]
        by_cases hx : a = x
        · subst hx; simp; omega
        · simp [hx]

theorem count_claim (x : α) : ∀ (b : α → ℕ) (l : List α),
    (claim b l).count x = min (l.count x) (b x)
  | b, [] => by simp [claim]
  | b, a :: l => by
      unfold claim
      split
      · rename_i hb
        rw [List.count_cons, List.count_cons, count_claim x _ l]
        by_cases hx : a = x
        · subst hx; simp; omega
        · have hxa : x ≠ a := fun h => hx h.symm
          simp [Function.update_of_ne hxa, hx]
      · rename_i hb
        rw [count_claim x b l, List.count_cons]
        by_cases hx : a = x
        · subst hx; simp; omega
        · simp [hx]

theorem spend_budget (l r : List α) : ((spend (budget r) l).1 : Multiset α) = (l : Multiset α) - r := by
  ext x
  simp only [Multiset.coe_count, Multiset.count_sub, count_spend, budget]

/-! ### The minimal patch between two lists -/

/-- The additions and the removals that turn `old` into `new`: additions in the
order of `new`, removals in the order of `old`. -/
def diff (old new : List α) : List α × List α :=
  ((spend (budget old) new).1, claim (spend (budget old) new).2 old)

theorem diff_added (old new : List α) : ((diff old new).1 : Multiset α) = (new : Multiset α) - old :=
  spend_budget new old

theorem diff_removed (old new : List α) :
    ((diff old new).2 : Multiset α) = (old : Multiset α) - new := by
  ext x
  simp only [diff, Multiset.coe_count, count_claim, left_spend, budget, Multiset.count_sub]
  omega

/-- Applying the patch between two parts of a whole replaces the one by the other. -/
theorem apply_diff (kept old new prior : List α)
    (hprior : (prior : Multiset α) = (kept : Multiset α) + old) :
    ((spend (budget (diff old new).2) prior).1 : Multiset α) + (diff old new).1
      = (kept : Multiset α) + new := by
  rw [spend_budget, diff_added, diff_removed, hprior]
  ext x
  simp only [Multiset.count_add, Multiset.count_sub, Multiset.coe_count]
  omega

/-! ### The patch as lists -/

theorem spend_sublist : ∀ (b : α → ℕ) (l : List α), (spend b l).1.Sublist l
  | _, [] => List.Sublist.slnil
  | b, a :: l => by
      unfold spend
      split
      · exact (spend_sublist _ l).cons a
      · exact (spend_sublist b l).cons_cons a

theorem claim_sublist : ∀ (b : α → ℕ) (l : List α), (claim b l).Sublist l
  | _, [] => List.Sublist.slnil
  | b, a :: l => by
      unfold claim
      split
      · exact (claim_sublist _ l).cons_cons a
      · exact (claim_sublist b l).cons a

theorem spend_append : ∀ (b : α → ℕ) (l r : List α),
    spend b (l ++ r) = ((spend b l).1 ++ (spend (spend b l).2 r).1, (spend (spend b l).2 r).2)
  | b, [], r => rfl
  | b, a :: l, r => by
      rw [List.cons_append, spend, spend]
      split
      · exact spend_append _ l r
      · rw [spend_append b l r]
        rfl

/-- A budget that pays for every occurrence pays for all of the list. -/
theorem spend_eq_nil {b : α → ℕ} {l : List α} (h : ∀ x, l.count x ≤ b x) : (spend b l).1 = [] := by
  refine List.eq_nil_iff_forall_not_mem.mpr fun x hx => ?_
  have hcount := count_spend x b l
  have hpos := List.count_pos_iff.mpr hx
  have hle := h x
  omega

/-- What the budget does not pay for can be left out before the walk. -/
theorem claim_filter {q : α → Bool} : ∀ {b : α → ℕ}, (∀ x, q x = true → b x = 0) → ∀ l : List α,
    claim b l = claim b (l.filter fun x => !q x)
  | _, _, [] => rfl
  | b, hb, a :: l => by
      cases ha : q a with
      | true =>
          have hzero : ¬ 0 < b a := by rw [hb a ha]; exact Nat.lt_irrefl 0
          rw [List.filter_cons_of_neg (by simp [ha]), claim, if_neg hzero]
          exact claim_filter hb l
      | false =>
          rw [List.filter_cons_of_pos (by simp [ha]), claim, claim]
          split
          · have hb' : ∀ x, q x = true → Function.update b a (b a - 1) x = 0 := by
              intro x hx
              by_cases hxa : x = a
              · rw [hxa, ha] at hx
                cases hx
              · rw [Function.update_of_ne hxa, hb x hx]
            rw [claim_filter hb' l]
          · exact claim_filter hb l

@[simp] theorem diff_nil (new : List α) : diff [] new = (new, []) := by
  have hnil : spend (budget []) new = (new, budget []) := by
    induction new with
    | nil => rfl
    | cons a new ih =>
        have hzero : ¬ 0 < budget ([] : List α) a := Nat.lt_irrefl 0
        rw [spend, if_neg hzero, ih]
  rw [diff, hnil]
  rfl

/-- The two sides of a patch have nothing in common. -/
theorem disjoint_diff (old new : List α) : (diff old new).1.Disjoint (diff old new).2 := by
  intro x hadded hremoved
  have hin : x ∈ (new : Multiset α) - old := diff_added old new ▸ hadded
  have hout : x ∈ (old : Multiset α) - new := diff_removed old new ▸ hremoved
  have hin := Multiset.count_pos.mpr hin
  have hout := Multiset.count_pos.mpr hout
  rw [Multiset.count_sub] at hin hout
  omega

/-- Where a predicate splits the old list, the patch of the other part is that of the whole. -/
theorem diff_split (q : α → Bool) (prior new : List α) :
    diff (prior.filter fun x => !q x) new = diff prior (prior.filter q ++ new) := by
  have hcount : ∀ x, prior.count x
      = (prior.filter q).count x + (prior.filter fun x => !q x).count x := by
    intro x
    rw [← List.count_append]
    exact ((List.filter_append_perm q prior).count_eq x).symm
  have hnone : (spend (budget prior) (prior.filter q)).1 = [] :=
    spend_eq_nil fun x => by
      have hx := hcount x
      unfold budget
      omega
  have hleft : (spend (budget prior) (prior.filter q)).2 = budget (prior.filter fun x => !q x) := by
    funext x
    have hx := hcount x
    rw [left_spend]
    unfold budget
    omega
  have hspend : spend (budget prior) (prior.filter q ++ new)
      = spend (budget (prior.filter fun x => !q x)) new := by
    rw [spend_append, hnone, hleft]
    rfl
  have hkept : ∀ x, q x = true → (spend (budget (prior.filter fun x => !q x)) new).2 x = 0 := by
    intro x hx
    have hzero : (prior.filter fun x => !q x).count x = 0 :=
      List.count_eq_zero.mpr fun hmem => by simp [hx] at hmem
    rw [left_spend]
    unfold budget
    omega
  unfold diff
  rw [hspend, ← claim_filter hkept]

end Patch
