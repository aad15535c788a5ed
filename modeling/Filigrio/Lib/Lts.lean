import Mathlib.Logic.Function.Basic
import Mathlib.Data.List.Basic
import Mathlib.Data.Prod.Lex
import Mathlib.Order.WellFounded

/-!
# Labelled transition systems

A system of initial states and of executable steps: the label of a step resolves
every choice. `Reach ok` are the states of the runs whose steps all meet a side
condition `ok` on the state before and the label; a property of all of them is shown
by the rule `Reach.invariant`, and a concrete run is replayed by `run`.
-/

/-- Initial states, and what each label does to a state it is possible in. -/
structure Lts (σ α : Type*) where
  init : σ → Prop
  step : σ → α → Option σ

namespace Lts

variable {σ α : Type*} (M : Lts σ α)

/-- No condition on the steps. -/
abbrev anyStep : σ → α → Prop := fun _ _ => True

/-- The states reached by steps that meet `ok`. -/
inductive Reach (ok : σ → α → Prop) : σ → Prop
  | init {s : σ} : M.init s → Reach ok s
  | step {s s' : σ} {a : α} : Reach ok s → ok s a → M.step s a = some s' → Reach ok s'

variable {M} {ok : σ → α → Prop} {s s' : σ}

/-- What holds initially and is kept by every step holds of every reachable state. -/
theorem Reach.invariant {I : σ → Prop} (hinit : ∀ s, M.init s → I s)
    (hstep : ∀ s a s', I s → ok s a → M.step s a = some s' → I s') (h : M.Reach ok s) : I s := by
  induction h with
  | init h0 => exact hinit _ h0
  | step _ hok hs ih => exact hstep _ _ _ ih hok hs

/-- Fewer conditions, more states. -/
theorem Reach.mono {ok' : σ → α → Prop} (hle : ∀ s a, ok s a → ok' s a) (h : M.Reach ok s) :
    M.Reach ok' s := by
  induction h with
  | init h0 => exact .init h0
  | step _ hok hs ih => exact .step ih (hle _ _ hok) hs

/-! ### Inevitability -/

/-- However the steps that meet `ok` are chosen, some state of `P` is reached, and none
stops short of it. -/
inductive Inevitable (M : Lts σ α) (ok : σ → α → Prop) (P : σ → Prop) : σ → Prop
  | now {s : σ} : P s → Inevitable M ok P s
  | later {s : σ} : (∃ a s', ok s a ∧ M.step s a = some s') →
      (∀ a s', ok s a → M.step s a = some s' → Inevitable M ok P s') → Inevitable M ok P s

/-- A goal is inevitable where the steps keep an invariant, one is possible short of the
goal, and each takes a measure down. -/
theorem Inevitable.of_measure {I P : σ → Prop} (μ : σ → ℕ ×ₗ ℕ)
    (hkeep : ∀ s a s', I s → ok s a → M.step s a = some s' → I s')
    (hprogress : ∀ s, I s → ¬ P s → ∃ a s', ok s a ∧ M.step s a = some s')
    (hless : ∀ s a s', I s → ok s a → M.step s a = some s' → μ s' < μ s) (h : I s) :
    M.Inevitable ok P s := by
  induction hm : μ s using WellFoundedLT.induction generalizing s with
  | ind m ih =>
      by_cases hP : P s
      · exact .now hP
      · refine .later (hprogress s h hP) fun a s' hok hs => ?_
        exact ih (μ s') (hm ▸ hless s a s' h hok hs) (hkeep s a s' h hok hs) rfl

/-! ### Replaying a run -/

/-- Take the listed steps in turn. -/
def run (M : Lts σ α) : σ → List α → Option σ
  | s, [] => some s
  | s, a :: as => (M.step s a).bind fun s' => run M s' as

/-- A run from a reachable state stays reachable, when each of its steps is allowed
where it is taken. -/
theorem Reach.run (h : M.Reach ok s) {as : List α}
    (hok : ∀ s a, a ∈ as → ok s a) (hrun : M.run s as = some s') : M.Reach ok s' := by
  induction as generalizing s with
  | nil => cases hrun; exact h
  | cons a as ih =>
      obtain ⟨t, ht, hrun⟩ := Option.bind_eq_some_iff.mp hrun
      exact ih (.step h (hok _ a (by simp)) ht) (fun s b hb => hok s b (by simp [hb])) hrun

/-- Take the listed steps in turn, as long as each is allowed where it is taken. -/
def runOk (M : Lts σ α) (ok : σ → α → Bool) : σ → List α → Option σ
  | s, [] => some s
  | s, a :: as => if ok s a then (M.step s a).bind fun s' => runOk M ok s' as else none

/-- A replayed run whose steps are checked on the way. -/
theorem Reach.runOk {okb : σ → α → Bool} (hok : ∀ s a, okb s a = true → ok s a)
    (h : M.Reach ok s) {as : List α} (hrun : M.runOk okb s as = some s') : M.Reach ok s' := by
  induction as generalizing s with
  | nil => cases hrun; exact h
  | cons a as ih =>
      unfold Lts.runOk at hrun
      split at hrun
      · rename_i ha
        obtain ⟨t, ht, hrun⟩ := Option.bind_eq_some_iff.mp hrun
        exact ih (.step h (hok _ _ ha) ht) hrun
      · cases hrun

end Lts

/-! ### Tables of processes

The processes of a system are a list: an index names one for good, since a new one is
appended and one that ended keeps its place. -/

namespace List

variable {α : Type*} {l : List α} {i j : ℕ} {a b : α}

/-- After one process moved, each is the one that moved or as before. -/
theorem getElem?_set_cases (hi : i < l.length) (h : (l.set i a)[j]? = some b) :
    (j = i ∧ b = a) ∨ (j ≠ i ∧ l[j]? = some b) := by
  rw [List.getElem?_set] at h
  by_cases hij : i = j
  · subst hij
    rw [if_pos rfl, if_pos hi] at h
    exact Or.inl ⟨rfl, (Option.some.inj h).symm⟩
  · rw [if_neg hij] at h
    exact Or.inr ⟨Ne.symm hij, h⟩

/-- After one process was started, each is the new one or as before. -/
theorem getElem?_concat_cases (h : (l ++ [a])[j]? = some b) :
    (j = l.length ∧ b = a) ∨ l[j]? = some b := by
  rcases Nat.lt_or_ge j l.length with hlt | hge
  · rw [List.getElem?_append_left hlt] at h
    exact Or.inr h
  · rw [List.getElem?_append_right hge] at h
    obtain ⟨hj, hb⟩ := List.getElem?_eq_some_iff.mp h
    have hzero : j - l.length = 0 := by simpa using hj
    refine Or.inl ⟨by omega, ?_⟩
    simpa [hzero] using hb.symm

theorem lt_of_getElem?_eq_some (h : l[i]? = some a) : i < l.length :=
  (List.getElem?_eq_some_iff.mp h).1

end List
