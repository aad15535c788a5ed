import Filigrio.Lib.Digits
import Filigrio.Core.Model

/-!
# Filigrio.Core.Span

A line span as text: `L42` when single-line, else `L42-L58`. What is rendered reads back,
as long as the span does not end before it starts.
-/

namespace Filigrio

namespace Span

/-- A number may have a `+` in front. -/
def stripPlus : List Char → List Char
  | '+' :: s => s
  | s => s

/-- `str::parse::<u32>`: digits, of a value in range. -/
def parseU32 (s : List Char) : Option ℕ :=
  if stripPlus s ≠ [] ∧ (stripPlus s).all Char.isDigit
      ∧ Nat.ofDigitChars 10 (stripPlus s) 0 < 2 ^ 32 then
    some (Nat.ofDigitChars 10 (stripPlus s) 0)
  else none

/-- `split_once("-L")`. -/
def splitOnce : List Char → Option (List Char × List Char)
  | [] => none
  | c :: cs =>
      if c = '-' ∧ cs.head? = some 'L' then some ([], cs.tail)
      else (splitOnce cs).map fun p => (c :: p.1, p.2)

def render (s : Span) : String :=
  if s.start < s.stop then
    String.ofList ('L' :: (Nat.toDigits 10 s.start ++ '-' :: 'L' :: Nat.toDigits 10 s.stop))
  else String.ofList ('L' :: Nat.toDigits 10 s.start)

def parse (s : String) : Option Span :=
  match s.toList with
  | 'L' :: rest =>
      match splitOnce rest with
      | some (a, b) => do
          let start ← parseU32 a
          let stop ← parseU32 b
          return ⟨start, stop⟩
      | none => (parseU32 rest).map fun n => ⟨n, n⟩
  | _ => none

/-! ### Reading back -/

theorem parseU32_toDigits {n : ℕ} (hn : n < 2 ^ 32) : parseU32 (Nat.toDigits 10 n) = some n := by
  have hdigit : ∀ c ∈ Nat.toDigits 10 n, c.isDigit = true := fun c hc =>
    Nat.isDigit_of_mem_toDigits (by decide) (by decide) hc
  have hne : Nat.toDigits 10 n ≠ [] := by
    intro h
    have hlen := congrArg List.length h
    have hpos := Nat.length_toDigits_pos (b := 10) (n := n)
    simp [h] at hpos
  have hstrip : stripPlus (Nat.toDigits 10 n) = Nat.toDigits 10 n := by
    unfold stripPlus
    split
    · rename_i ds heq
      exact absurd (hdigit '+' (by rw [heq]; exact List.mem_cons_self)) (by decide)
    · rfl
  rw [parseU32, hstrip, Nat.ofDigitChars_ten_toDigits,
    if_pos ⟨hne, List.all_eq_true.mpr hdigit, hn⟩]

theorem parseU32_lt {s : List Char} {n : ℕ} (h : parseU32 s = some n) : n < 2 ^ 32 := by
  unfold parseU32 at h
  split at h
  · rename_i hs
    rw [← Option.some.inj h]
    exact hs.2.2
  · cases h

theorem splitOnce_digits {ds : List Char} (h : ∀ c ∈ ds, c.isDigit = true) (rest : List Char) :
    splitOnce (ds ++ '-' :: 'L' :: rest) = some (ds, rest) := by
  induction ds with
  | nil => simp [splitOnce]
  | cons c ds ih =>
      have hc : c ≠ '-' := by
        intro heq
        have hdigit := h c (by simp)
        rw [heq] at hdigit
        exact absurd hdigit (by decide)
      rw [List.cons_append, splitOnce, if_neg fun hand => hc hand.1,
        ih fun d hd => h d (by simp [hd])]
      rfl

theorem splitOnce_eq_none {ds : List Char} (h : ∀ c ∈ ds, c.isDigit = true) :
    splitOnce ds = none := by
  induction ds with
  | nil => rfl
  | cons c ds ih =>
      have hc : c ≠ '-' := by
        intro heq
        have hdigit := h c (by simp)
        rw [heq] at hdigit
        exact absurd hdigit (by decide)
      rw [splitOnce, if_neg fun hand => hc hand.1, ih fun d hd => h d (by simp [hd])]
      rfl

/-- What is read back: the end is at least the start. -/
theorem parse_render {s : Span} (hstart : s.start < 2 ^ 32) (hstop : s.stop < 2 ^ 32) :
    parse s.render = some ⟨s.start, max s.start s.stop⟩ := by
  have hdigit : ∀ n, ∀ c ∈ Nat.toDigits 10 n, c.isDigit = true := fun n c hc =>
    Nat.isDigit_of_mem_toDigits (by decide) (by decide) hc
  unfold render
  split
  · rename_i hlt
    simp [parse, splitOnce_digits (hdigit s.start), parseU32_toDigits hstart,
      parseU32_toDigits hstop, Nat.max_eq_right hlt.le]
  · rename_i hle
    simp [parse, splitOnce_eq_none (hdigit s.start), parseU32_toDigits hstart,
      Nat.max_eq_left (Nat.le_of_not_lt hle)]

/-- The numbers of a span that was read are in range. -/
theorem parse_lt {t : String} {s : Span} (h : parse t = some s) :
    s.start < 2 ^ 32 ∧ s.stop < 2 ^ 32 := by
  unfold parse at h
  split at h
  · split at h
    · obtain ⟨start, hstart, h⟩ := Option.bind_eq_some_iff.mp h
      obtain ⟨stop, hstop, h⟩ := Option.bind_eq_some_iff.mp h
      cases h
      exact ⟨parseU32_lt hstart, parseU32_lt hstop⟩
    · obtain ⟨n, hn, h⟩ := Option.map_eq_some_iff.mp h
      cases h
      exact ⟨parseU32_lt hn, parseU32_lt hn⟩
  · cases h

end Span

/-- The rendered location of a node, empty without one. -/
def Node.loc (n : Node) : String := (n.sourceSpan.map Span.render).getD ""

end Filigrio
