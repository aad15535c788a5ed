import Mathlib.Data.String.Basic
import Mathlib.Data.List.Lex

/-!
# Padded decimals

A decimal padded with zeros to a fixed width: as long as the numbers fit the width, the
text determines the number, and texts that start so sort as the numbers do.
-/

namespace Digits

variable {w m n : ℕ} {s t : List Char}

/-- `{n:0w}`. -/
def padded (w n : ℕ) : List Char := (Nat.toDigits 10 n).leftpad w '0'

def IsDigits (s : List Char) : Prop := ∀ c ∈ s, c.isDigit = true

theorem padded_ne_nil (w n : ℕ) : padded w n ≠ [] := by
  simp [padded, List.leftpad]

theorem length_padded (hw : 0 < w) (hn : n < 10 ^ w) : (padded w n).length = w := by
  have hle : (Nat.toDigits 10 n).length ≤ w := (Nat.length_toDigits_le_iff (by decide) hw).mpr hn
  simp only [padded, List.leftpad, List.length_append, List.length_replicate]
  omega

theorem isDigits_padded (w n : ℕ) : IsDigits (padded w n) := by
  intro c hc
  simp only [padded, List.leftpad, List.mem_append, List.mem_replicate] at hc
  rcases hc with ⟨_, rfl⟩ | hc
  · rfl
  · exact Nat.isDigit_of_mem_toDigits (by decide) (by decide) hc

/-- The padding does not change the value. -/
theorem value_padded (w n : ℕ) : Nat.ofDigitChars 10 (padded w n) 0 = n := by
  unfold padded List.leftpad
  rw [Nat.ofDigitChars_append, Nat.ofDigitChars_replicate_zero, Nat.mul_zero,
    Nat.ofDigitChars_ten_toDigits]

theorem padded_inj (h : padded w m = padded w n) : m = n := by
  rw [← value_padded w m, h, value_padded]

/-! ### Order -/

theorem isDigit_bounds {c : Char} (h : c.isDigit = true) : 48 ≤ c.toNat ∧ c.toNat ≤ 57 := by
  simp only [Char.isDigit, Bool.and_eq_true, decide_eq_true_eq, UInt32.le_iff_toNat_le] at h
  exact h

/-- Of two digit texts of one length, the one that starts from the smaller value stays
smaller. -/
theorem value_lt_of_init_lt (hs : IsDigits s) (ht : IsDigits t) (hlen : s.length = t.length)
    (hinit : m < n) : Nat.ofDigitChars 10 s m < Nat.ofDigitChars 10 t n := by
  induction s generalizing t m n with
  | nil =>
      cases List.length_eq_zero_iff.mp hlen.symm
      simpa using hinit
  | cons c s ih =>
      cases t with
      | nil => cases hlen
      | cons d t =>
          rw [Nat.ofDigitChars_cons, Nat.ofDigitChars_cons]
          have hc := isDigit_bounds (hs c List.mem_cons_self)
          have hd := isDigit_bounds (ht d List.mem_cons_self)
          have hzero : '0'.toNat = 48 := rfl
          exact ih (fun x hx => hs x (List.mem_cons_of_mem c hx))
            (fun x hx => ht x (List.mem_cons_of_mem d hx)) (Nat.succ.inj hlen) (by omega)

/-- Digit texts of one length sort as their values, whatever follows them. -/
theorem append_lt_of_value_lt {u v : List Char} (hs : IsDigits s) (ht : IsDigits t)
    (hlen : s.length = t.length)
    (hlt : Nat.ofDigitChars 10 s n < Nat.ofDigitChars 10 t n) : s ++ u < t ++ v := by
  induction s generalizing t n with
  | nil =>
      cases List.length_eq_zero_iff.mp hlen.symm
      exact absurd hlt (lt_irrefl _)
  | cons c s ih =>
      cases t with
      | nil => cases hlen
      | cons d t =>
          rw [Nat.ofDigitChars_cons, Nat.ofDigitChars_cons] at hlt
          have hc := isDigit_bounds (hs c List.mem_cons_self)
          have hd := isDigit_bounds (ht d List.mem_cons_self)
          have hs' : IsDigits s := fun x hx => hs x (List.mem_cons_of_mem c hx)
          have ht' : IsDigits t := fun x hx => ht x (List.mem_cons_of_mem d hx)
          rw [List.cons_append, List.cons_append, List.cons_lt_cons_iff]
          rcases lt_trichotomy c.toNat d.toNat with hlt' | heq | hgt
          · exact Or.inl hlt'
          · have hcd : c = d := Char.toNat_inj.mp heq
            subst hcd
            exact Or.inr ⟨rfl, ih hs' ht' (Nat.succ.inj hlen) hlt⟩
          · have hzero : '0'.toNat = 48 := rfl
            have := value_lt_of_init_lt ht' hs' (Nat.succ.inj hlen).symm
              (m := 10 * n + (d.toNat - '0'.toNat)) (n := 10 * n + (c.toNat - '0'.toNat)) (by omega)
            omega

theorem padded_append_lt {u v : List Char} (hw : 0 < w) (hm : m < 10 ^ w) (hn : n < 10 ^ w)
    (hlt : m < n) : padded w m ++ u < padded w n ++ v := by
  apply append_lt_of_value_lt (isDigits_padded w m) (isDigits_padded w n)
    ((length_padded hw hm).trans (length_padded hw hn).symm) (n := 0)
  rw [value_padded, value_padded]
  exact hlt

/-- A padded number and what follows it are read back. -/
theorem padded_append_inj {u v : List Char} (hw : 0 < w) (hm : m < 10 ^ w) (hn : n < 10 ^ w)
    (h : padded w m ++ u = padded w n ++ v) : m = n ∧ u = v := by
  obtain ⟨hpad, hrest⟩ := List.append_inj h ((length_padded hw hm).trans (length_padded hw hn).symm)
  exact ⟨padded_inj hpad, hrest⟩

end Digits
