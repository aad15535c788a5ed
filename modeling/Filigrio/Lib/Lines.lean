import Filigrio.Lib.Text
import Mathlib.Data.List.TakeWhile

/-!
# Lines

A text as its lines, the way Rust's `split_inclusive('\n')` cuts it: every line keeps
its terminator, the last one may lack it, and the concatenation of the lines is the
text. `lines()` drops the terminators, a carriage return before a newline included.
Texts that are whole lines (`Whole`) may be cut and put together line by line.
-/

namespace Lines

/-- The whitespace-trimmed text. -/
def trim (s : List Char) : List Char := Text.trimEndChars Text.isWhite (s.dropWhile Text.isWhite)

/-- `split_inclusive('\n')`: the lines with their terminators. -/
def splitInclusive : List Char → List (List Char)
  | [] => []
  | c :: cs =>
      if c = '\n' then [c] :: splitInclusive cs
      else match splitInclusive cs with
        | [] => [[c]]
        | l :: ls => (c :: l) :: ls

/-- A line without its terminator: a newline, and a carriage return before it. -/
def chomp (l : List Char) : List Char :=
  if l.getLast? = some '\n' then
    let body := l.dropLast
    if body.getLast? = some '\r' then body.dropLast else body
  else l

/-- `lines()`. -/
def lines (s : List Char) : List (List Char) := (splitInclusive s).map chomp

/-- `lines.join("\n")`. -/
def unlines (ls : List (List Char)) : List Char := List.intercalate ['\n'] ls

/-- The text ends where a line ends. -/
def Whole (s : List Char) : Prop := s = [] ∨ s.getLast? = some '\n'

/-! ### Cutting into lines -/

@[simp] theorem splitInclusive_nil : splitInclusive [] = [] := rfl

@[simp] theorem splitInclusive_newline (cs : List Char) :
    splitInclusive ('\n' :: cs) = ['\n'] :: splitInclusive cs := by
  simp [splitInclusive]

/-- The lines together are the text. -/
@[simp] theorem flatten_splitInclusive (s : List Char) : (splitInclusive s).flatten = s := by
  induction s with
  | nil => rfl
  | cons c cs ih =>
      rw [splitInclusive]
      split
      · simp [ih]
      · split
        · rename_i h
          rw [h] at ih
          simp_all
        · rename_i h
          rw [h] at ih
          simpa using ih

theorem splitInclusive_eq_nil {s : List Char} : splitInclusive s = [] ↔ s = [] := by
  constructor
  · intro h
    rw [← flatten_splitInclusive s, h]
    rfl
  · rintro rfl
    rfl

/-- A line with its terminator is one line, whatever follows. -/
theorem splitInclusive_line {l : List Char} (h : '\n' ∉ l) (cs : List Char) :
    splitInclusive (l ++ '\n' :: cs) = (l ++ ['\n']) :: splitInclusive cs := by
  induction l with
  | nil => exact splitInclusive_newline cs
  | cons c l ih =>
      have hc : c ≠ '\n' := fun heq => h (heq ▸ List.mem_cons_self)
      have hl : '\n' ∉ l := fun hmem => h (List.mem_cons_of_mem c hmem)
      rw [List.cons_append, splitInclusive, if_neg hc, ih hl]
      rfl

/-- A text without newline is one line, or none. -/
theorem splitInclusive_of_notMem {l : List Char} (h : '\n' ∉ l) :
    splitInclusive l = if l = [] then [] else [l] := by
  induction l with
  | nil => rfl
  | cons c l ih =>
      have hc : c ≠ '\n' := fun heq => h (heq ▸ List.mem_cons_self)
      have hl : '\n' ∉ l := fun hmem => h (List.mem_cons_of_mem c hmem)
      rw [splitInclusive, if_neg hc, ih hl]
      by_cases hnil : l = [] <;> simp [hnil]

/-- A text starts with a terminated line, or has no newline. -/
theorem line_cases (s : List Char) :
    (∃ l cs, '\n' ∉ l ∧ s = l ++ '\n' :: cs) ∨ '\n' ∉ s := by
  induction s with
  | nil => simp
  | cons c s ih =>
      by_cases hc : c = '\n'
      · subst hc
        exact Or.inl ⟨[], s, by simp, rfl⟩
      · rcases ih with ⟨l, cs, hl, rfl⟩ | hs
        · refine Or.inl ⟨c :: l, cs, ?_, rfl⟩
          simp only [List.mem_cons, not_or]
          exact ⟨fun h => hc h.symm, hl⟩
        · refine Or.inr ?_
          simp only [List.mem_cons, not_or]
          exact ⟨fun h => hc h.symm, hs⟩

/-- Induction over the lines of a text. -/
theorem line_induction {motive : List Char → Prop} (last : ∀ l, '\n' ∉ l → motive l)
    (line : ∀ l cs, '\n' ∉ l → motive cs → motive (l ++ '\n' :: cs)) (s : List Char) :
    motive s := by
  generalize hn : s.length = n
  induction n using Nat.strongRecOn generalizing s with
  | ind n ih =>
      rcases line_cases s with ⟨l, cs, hl, rfl⟩ | hs
      · refine line l cs hl (ih cs.length ?_ cs rfl)
        simp only [List.length_append, List.length_cons] at hn
        omega
      · exact last s hs

theorem Whole.nil : Whole [] := Or.inl rfl

theorem Whole.append_newline (s : List Char) : Whole (s ++ ['\n']) := Or.inr (by simp)

theorem Whole.append {s t : List Char} (hs : Whole s) (ht : Whole t) : Whole (s ++ t) := by
  rcases ht with rfl | ht
  · simpa using hs
  · exact Or.inr (by rw [List.getLast?_append, ht]; rfl)

/-- What follows a line of whole lines is whole lines. -/
theorem Whole.of_line {l cs : List Char} (hs : Whole (l ++ '\n' :: cs)) (hne : cs ≠ []) :
    Whole cs := by
  rcases hs with h | h
  · simp at h
  · rw [List.getLast?_append, List.getLast?_cons, List.getLast?_eq_some_getLast hne] at h
    exact Or.inr (by rw [List.getLast?_eq_some_getLast hne]; simpa using h)

/-- Whole lines are cut off in front. -/
theorem splitInclusive_append {s : List Char} (hs : Whole s) (t : List Char) :
    splitInclusive (s ++ t) = splitInclusive s ++ splitInclusive t := by
  induction s using line_induction with
  | last l hl =>
      rcases hs with rfl | hlast
      · rfl
      · exact absurd (List.mem_of_getLast? hlast) hl
  | line l cs hl ih =>
      have hcs : Whole cs := by
        by_cases hnil : cs = []
        · exact Or.inl hnil
        · exact hs.of_line hnil
      rw [List.append_assoc, List.cons_append, splitInclusive_line hl, splitInclusive_line hl,
        ih hcs]
      rfl

/-- Every line but the last is terminated. -/
theorem whole_of_splitInclusive {s : List Char} {front back : List (List Char)}
    (h : splitInclusive s = front ++ back) (hback : back ≠ []) : Whole front.flatten := by
  induction s using line_induction generalizing front with
  | last l hl =>
      rw [splitInclusive_of_notMem hl] at h
      split at h
      · exact absurd (List.append_eq_nil_iff.mp h.symm).2 hback
      · cases front with
        | nil => exact Whole.nil
        | cons x front =>
            rw [List.cons_append, List.cons.injEq] at h
            exact absurd (List.append_eq_nil_iff.mp h.2.symm).2 hback
  | line l cs hl ih =>
      rw [splitInclusive_line hl] at h
      cases front with
      | nil => exact Whole.nil
      | cons x front =>
          rw [List.cons_append, List.cons.injEq] at h
          obtain ⟨rfl, h⟩ := h
          exact (Whole.append_newline l).append (ih h)

/-- Some lines of a text, in their order, are the lines of what they make up. -/
theorem splitInclusive_sublist {s : List Char} {ls : List (List Char)}
    (h : ls.Sublist (splitInclusive s)) : splitInclusive ls.flatten = ls := by
  induction s using line_induction generalizing ls with
  | last l hl =>
      rw [splitInclusive_of_notMem hl] at h
      split at h
      · rw [List.sublist_nil.mp h]
        rfl
      · rename_i hne
        rcases List.sublist_singleton.mp h with rfl | rfl
        · rfl
        · rw [List.flatten_singleton, splitInclusive_of_notMem hl, if_neg hne]
  | line l cs hl ih =>
      rw [splitInclusive_line hl] at h
      cases h with
      | cons _ h => exact ih h
      | cons_cons _ h =>
          rw [List.flatten_cons, List.append_assoc, List.singleton_append,
            splitInclusive_line hl, ih h]

/-- Text in front of a first line becomes part of it. -/
theorem splitInclusive_prepend {l s z : List Char} {zs : List (List Char)} (hl : '\n' ∉ l)
    (h : splitInclusive s = z :: zs) : splitInclusive (l ++ s) = (l ++ z) :: zs := by
  induction l with
  | nil => exact h
  | cons c l ih =>
      have hc : c ≠ '\n' := fun heq => hl (heq ▸ List.mem_cons_self)
      rw [List.cons_append, splitInclusive, if_neg hc,
        ih fun hmem => hl (List.mem_cons_of_mem c hmem)]
      rfl

/-! ### Lines without their terminators -/

/-- A carriage return at the end goes. -/
def chompReturn (l : List Char) : List Char :=
  if l.getLast? = some '\r' then l.dropLast else l

@[simp] theorem chompReturn_nil : chompReturn [] = [] := rfl

@[simp] theorem chomp_newline (l : List Char) : chomp (l ++ ['\n']) = chompReturn l := by
  simp [chomp, chompReturn]

theorem chomp_of_notMem {l : List Char} (h : '\n' ∉ l) : chomp l = l := by
  rw [chomp, if_neg]
  intro hlast
  exact h (List.mem_of_getLast? hlast)

theorem chompReturn_cases (l : List Char) :
    (chompReturn l = l ∧ l.getLast? ≠ some '\r') ∨ l = chompReturn l ++ ['\r'] := by
  rw [chompReturn]
  split
  · rename_i h
    exact Or.inr (List.dropLast_append_getLast? '\r' h).symm
  · rename_i h
    exact Or.inl ⟨rfl, h⟩

theorem length_chompReturn_le (l : List Char) : (chompReturn l).length ≤ l.length := by
  rcases chompReturn_cases l with ⟨h, -⟩ | h
  · exact Nat.le_of_eq (congrArg List.length h)
  · have hlen := congrArg List.length h
    simp only [List.length_append, List.length_singleton] at hlen
    omega

theorem chompReturn_eq_self {l : List Char} : chompReturn l = l ↔ l.getLast? ≠ some '\r' := by
  rcases chompReturn_cases l with ⟨h, hlast⟩ | h
  · simp [h, hlast]
  · have hlen := congrArg List.length h
    simp only [List.length_append, List.length_singleton] at hlen
    constructor
    · intro heq
      rw [heq] at hlen
      omega
    · intro hne
      rw [h] at hne
      simp at hne

/-- A carriage return goes from the second of two texts, unless it is empty. -/
theorem chompReturn_append (l : List Char) {s : List Char} (hs : s ≠ []) :
    chompReturn (l ++ s) = l ++ chompReturn s := by
  rw [chompReturn, chompReturn, List.getLast?_append, List.getLast?_eq_some_getLast hs,
    Option.some_or]
  split
  · rw [List.dropLast_append_of_ne_nil hs]
  · rfl

theorem chompReturn_eq_nil {l : List Char} : chompReturn l = [] ↔ l = [] ∨ l = ['\r'] := by
  constructor
  · intro h
    rcases chompReturn_cases l with ⟨hsame, -⟩ | hreturn
    · exact Or.inl (hsame ▸ h)
    · rw [h] at hreturn
      exact Or.inr hreturn
  · rintro (rfl | rfl) <;> rfl

theorem lines_append {s : List Char} (hs : Whole s) (t : List Char) :
    lines (s ++ t) = lines s ++ lines t := by
  rw [lines, splitInclusive_append hs, List.map_append]
  rfl

theorem lines_line {l : List Char} (h : '\n' ∉ l) (cs : List Char) :
    lines (l ++ '\n' :: cs) = chompReturn l :: lines cs := by
  rw [lines, splitInclusive_line h, List.map_cons, chomp_newline]
  rfl

theorem lines_of_notMem {l : List Char} (h : '\n' ∉ l) :
    lines l = if l = [] then [] else [l] := by
  rw [lines, splitInclusive_of_notMem h]
  split
  · rfl
  · rw [List.map_singleton, chomp_of_notMem h]

theorem lines_eq_nil {s : List Char} : lines s = [] ↔ s = [] := by
  rw [lines, List.map_eq_nil_iff, splitInclusive_eq_nil]

/-- The lines of whole lines are all terminated. -/
theorem Whole.terminated {s : List Char} (hs : Whole s) :
    ∀ l ∈ splitInclusive s, l.getLast? = some '\n' := by
  induction s using line_induction with
  | last l hl =>
      rcases hs with rfl | hlast
      · intro l hl
        cases hl
      · exact absurd (List.mem_of_getLast? hlast) hl
  | line l cs hl ih =>
      rw [splitInclusive_line hl, List.forall_mem_cons]
      refine ⟨by simp, ?_⟩
      by_cases hnil : cs = []
      · rw [hnil]
        intro l hl
        cases hl
      · exact ih (hs.of_line hnil)

theorem whole_flatten {ls : List (List Char)} (h : ∀ l ∈ ls, l.getLast? = some '\n') :
    Whole ls.flatten := by
  induction ls with
  | nil => exact Whole.nil
  | cons l ls ih =>
      have hl : Whole l := Or.inr (h l List.mem_cons_self)
      exact hl.append (ih fun l' hl' => h l' (List.mem_cons_of_mem l hl'))

/-- Whole lines end in one. -/
theorem whole_cases {s : List Char} (hs : Whole s) :
    s = [] ∨ ∃ front l, Whole front ∧ '\n' ∉ l ∧ s = front ++ (l ++ ['\n']) := by
  induction s using line_induction with
  | last l hl =>
      rcases hs with h | h
      · exact Or.inl h
      · exact absurd (List.mem_of_getLast? h) hl
  | line l cs hl ih =>
      refine Or.inr ?_
      by_cases hnil : cs = []
      · exact ⟨[], l, Whole.nil, hl, by rw [hnil]; rfl⟩
      · obtain ⟨front, l', hfront, hl', rfl⟩ := (ih (hs.of_line hnil)).resolve_left hnil
        refine ⟨l ++ ['\n'] ++ front, l', (Whole.append_newline l).append hfront, hl', ?_⟩
        simp

/-! ### Reading a text back from its lines -/

/-- No line of the text ends in a carriage return. -/
def NoReturn (s : List Char) : Prop := ∀ l ∈ splitInclusive (s ++ ['\n']), ¬ ['\r', '\n'] <:+ l

instance (s : List Char) : Decidable (NoReturn s) :=
  inferInstanceAs (Decidable (∀ l ∈ splitInclusive (s ++ ['\n']), ¬ ['\r', '\n'] <:+ l))

theorem return_suffix {l : List Char} : ['\r', '\n'] <:+ l ++ ['\n'] ↔ l.getLast? = some '\r' := by
  constructor
  · rintro ⟨t, ht⟩
    have h : t ++ ['\r'] = l := by
      have : (t ++ ['\r']) ++ ['\n'] = l ++ ['\n'] := by simpa using ht
      exact (List.append_inj' this rfl).1
    simp [← h]
  · intro h
    rw [← List.dropLast_append_getLast? '\r' h]
    exact ⟨l.dropLast, by simp⟩

theorem length_unlines_le (s : List Char) :
    (unlines (lines (s ++ ['\n']))).length ≤ s.length := by
  induction s using line_induction with
  | last l hl =>
      rw [lines_line hl]
      simpa [unlines, lines, List.intercalate] using length_chompReturn_le l
  | line l cs hl ih =>
      have hne : lines (cs ++ ['\n']) ≠ [] := by simp [lines_eq_nil]
      rw [List.append_assoc, List.cons_append, lines_line hl, unlines,
        List.intercalate_cons_of_ne_nil hne]
      have hle := length_chompReturn_le l
      simp only [unlines] at ih
      simp only [List.length_append, List.length_cons, List.length_nil]
      omega

/-- The lines of a text, joined again, are the text when none ends in a carriage return. -/
theorem unlines_lines {s : List Char} : unlines (lines (s ++ ['\n'])) = s ↔ NoReturn s := by
  induction s using line_induction with
  | last l hl =>
      rw [NoReturn, lines_line hl, splitInclusive_line hl]
      simp only [splitInclusive_nil, List.mem_singleton, forall_eq, return_suffix]
      rw [← ne_eq, ← chompReturn_eq_self]
      simp [unlines, lines, List.intercalate]
  | line l cs hl ih =>
      have hne : lines (cs ++ ['\n']) ≠ [] := by simp [lines_eq_nil]
      have hno : NoReturn (l ++ '\n' :: cs) ↔ chompReturn l = l ∧ NoReturn cs := by
        rw [NoReturn, List.append_assoc, List.cons_append, splitInclusive_line hl, NoReturn,
          List.forall_mem_cons, return_suffix, chompReturn_eq_self]
      rw [hno, ← ih, List.append_assoc, List.cons_append, lines_line hl, unlines,
        List.intercalate_cons_of_ne_nil hne]
      constructor
      · intro h
        have hlen := congrArg List.length h
        have hle := length_chompReturn_le l
        have hle' := length_unlines_le cs
        simp only [unlines] at hle'
        simp only [List.length_append, List.length_cons, List.length_nil] at hlen
        have h' : chompReturn l ++ ('\n' :: unlines (lines (cs ++ ['\n']))) = l ++ '\n' :: cs := by
          simpa [unlines] using h
        obtain ⟨hl', hcs⟩ := List.append_inj h' (by omega)
        exact ⟨hl', (List.cons.inj hcs).2⟩
      · rintro ⟨hl', hcs⟩
        rw [unlines] at hcs
        rw [hl', hcs]
        simp

/-! ### Trimming -/

theorem trimEnd_append {s w : List Char} (hw : ∀ c ∈ w, Text.isWhite c = true) :
    Text.trimEndChars Text.isWhite (s ++ w) = Text.trimEndChars Text.isWhite s := by
  rw [Text.trimEndChars, Text.trimEndChars, List.reverse_append, List.dropWhile_append_of_pos]
  intro c hc
  exact hw c (List.mem_reverse.mp hc)

/-- Whitespace at the end does not count. -/
theorem trim_append {s w : List Char} (hw : ∀ c ∈ w, Text.isWhite c = true) :
    trim (s ++ w) = trim s := by
  rw [trim, trim, List.dropWhile_append]
  split
  · rename_i h
    rw [List.isEmpty_iff.mp h, List.dropWhile_eq_nil_iff.mpr hw]
  · exact trimEnd_append hw

@[simp] theorem trim_newline (s : List Char) : trim (s ++ ['\n']) = trim s :=
  trim_append (List.forall_mem_singleton.mpr (by decide))

/-- Nor does whitespace in front. -/
theorem trim_prepend {w s : List Char} (hw : ∀ c ∈ w, Text.isWhite c = true) :
    trim (w ++ s) = trim s := by
  rw [trim, trim, List.dropWhile_append_of_pos hw]

/-- A text without whitespace at its ends. -/
def Solid (s : List Char) : Prop :=
  (∀ c ∈ s.head?, Text.isWhite c = false) ∧ ∀ c ∈ s.getLast?, Text.isWhite c = false

theorem Solid.trim {s : List Char} (h : Solid s) : trim s = s := by
  have hkeep : ∀ l : List Char, (∀ c ∈ l.head?, Text.isWhite c = false) →
      l.dropWhile Text.isWhite = l := by
    intro l hl
    cases l with
    | nil => rfl
    | cons c cs => rw [List.dropWhile_cons_of_neg (by rw [hl c rfl]; exact Bool.false_ne_true)]
  rw [Lines.trim, hkeep s h.1, Text.trimEndChars, hkeep s.reverse, List.reverse_reverse]
  rw [List.head?_reverse]
  exact h.2

/-- The carriage return that a line ends in counts as whitespace. -/
theorem trim_chompReturn (l : List Char) : Lines.trim (chompReturn l) = Lines.trim l := by
  rcases chompReturn_cases l with ⟨h, -⟩ | h
  · rw [h]
  · conv_rhs => rw [h]
    exact (trim_append (List.forall_mem_singleton.mpr (by decide))).symm

theorem length_trim_le (s : List Char) : (trim s).length ≤ s.length := by
  have hend := (List.dropWhile_sublist Text.isWhite
    (l := (s.dropWhile Text.isWhite).reverse)).length_le
  have hfront := (List.dropWhile_sublist Text.isWhite (l := s)).length_le
  rw [trim, Text.trimEndChars, List.length_reverse]
  rw [List.length_reverse] at hend
  omega

@[simp] theorem trim_nil : trim [] = [] := rfl

end Lines
