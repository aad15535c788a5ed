import Filigrio.Install.Managed

/-!
# Filigrio.Install.Uninstall

What uninstalling keeps of the text around a block. `remove` drops the newline in front of
the block, the one `append` contributed; where the user has no blank line there, it joins
their last line in front to the first one behind (`keepsLines_iff`).
-/

namespace Filigrio.Install

open Lines

variable {m : Markers}

/-- The lines of the result are the lines of `front`, minus at most one trailing blank line,
followed by the lines of `back`. -/
def KeepsLines (front back result : List Char) : Prop :=
  ∃ kept, (lines front = kept ∨ ∃ blank, trim blank = [] ∧ lines front = kept ++ [blank])
    ∧ lines result = kept ++ lines back

/-- The text without the newline at its end. -/
def dropNewline (s : List Char) : List Char := if s.getLast? = some '\n' then s.dropLast else s

/-- How the text in front of a block and the text behind it may meet, when `rest` is what
removing blocks leaves of the block itself. -/
def Separated (front rest back : List Char) : Prop :=
  let last := (splitInclusive front).getLastD []
  (rest = [] ∧ (front = [] ∨ last = ['\n'] ∨ (back = [] ∧ ¬ ['\r', '\n'] <:+ last)
    ∨ (last = ['\r', '\n'] ∧ back.head? = some '\n')))
  ∨ (front ≠ [] ∧ (rest = ['\n'] ∨ (rest = ['\r', '\n'] ∧ ¬ ['\r', '\n'] <:+ last)))

instance (front rest back : List Char) : Decidable (Separated front rest back) :=
  inferInstanceAs (Decidable (_ ∨ _))

/-! ### What is left of a block with any body -/

/-- After an end line the scan is outside. -/
theorem outside_append_end (b : Bool) (ls rest : List (List Char)) {last : List Char}
    (hlast : markerText last = m.end) :
    outside m b (ls ++ [last] ++ rest) = outside m b (ls ++ [last]) ++ outside m false rest := by
  induction ls generalizing b with
  | nil => cases b <;> simp [outside, hlast, m.differ.symm]
  | cons l ls ih =>
      simp only [List.cons_append] at ih ⊢
      cases b with
      | false =>
          rw [outside, outside]
          split
          · exact ih true
          · rw [ih false, List.cons_append]
      | true =>
          rw [outside, outside]
          split
          · exact ih false
          · exact ih true

/-- Removing a block in its surroundings, whatever its body. -/
theorem remove_around {front back : List Char} (body : List Char) (hwhole : Whole front)
    (hfront : Avoids m.start front) (hback : Avoids m.start back) :
    remove (front ++ (blockText body m ++ back)) m
      = some (dropNewline front ++ (stripAll (blockText body m) m ++ back)) := by
  have hlines := splitInclusive_blockText body m
  obtain ⟨inner, last, tail, hcut, hinner, hlast⟩ :=
    end_cases m (splitInclusive (trimNewlines body ++ ['\n']) ++ [m.end ++ ['\n']])
  have hne : ∃ l, last = [l] ∧ markerText l = m.end := by
    rcases hlast with ⟨rfl, rfl⟩ | hlast
    · have hmem : m.end ++ ['\n'] ∈ inner := by
        rw [List.append_nil, List.append_nil] at hcut
        rw [← hcut]
        simp
      exact absurd m.endMarker.text (hinner _ hmem)
    · exact hlast
  rw [List.cons_append, hcut] at hlines
  have hall : splitInclusive (front ++ (blockText body m ++ back)) = splitInclusive front
      ++ (((m.start ++ ['\n']) :: inner ++ last) ++ (tail ++ splitInclusive back)) := by
    rw [splitInclusive_around hwhole, hlines]
    simp
  have hblock : ∀ head, (∀ l ∈ head, markerText l ≠ m.start) → ∀ rest,
      IsBlock m head ((m.start ++ ['\n']) :: inner ++ last) rest := by
    intro head hhead rest
    exact ⟨hhead, _, _, _, rfl, m.startMarker.text, hinner, Or.inr hne⟩
  have hstrip : outside m false (tail ++ splitInclusive back)
      = outside m false (splitInclusive (blockText body m)) ++ splitInclusive back := by
    have hend := outside_append_end (m := m) false
      ((m.start ++ ['\n']) :: splitInclusive (trimNewlines body ++ ['\n'])) (splitInclusive back)
      m.endMarker.text
    have hsame : (m.start ++ ['\n']) :: splitInclusive (trimNewlines body ++ ['\n'])
        ++ [m.end ++ ['\n']] = splitInclusive (blockText body m) :=
      (splitInclusive_blockText body m).symm
    rw [hsame] at hend
    calc outside m false (tail ++ splitInclusive back)
        = outside m false (((m.start ++ ['\n']) :: inner ++ last)
            ++ (tail ++ splitInclusive back)) := (outside_block (hblock [] (by simp) _)).symm
      _ = outside m false (splitInclusive (blockText body m) ++ splitInclusive back) := by
          rw [hlines]
          simp
      _ = outside m false (splitInclusive (blockText body m)) ++ splitInclusive back := by
          rw [hend, outside_self hback]
  rw [remove_of_isBlock hall (hblock _ hfront _), hstrip, flatten_splitInclusive, stripAll_eq,
    List.flatten_append, flatten_splitInclusive]
  rfl

/-- What is left of a block is whole lines. -/
theorem whole_stripAll_block (body : List Char) (m : Markers) :
    Whole (stripAll (blockText body m) m) := by
  rw [stripAll_eq]
  refine whole_flatten fun l hl => ?_
  exact (whole_blockText body m).terminated l ((outside_sublist false _).subset hl)

/-! ### The lines of the result -/

section Lines

variable {l : List Char}

/-- The line in front and the text behind it: they stay apart, or the line was blank. -/
def Apart (l back result : List Char) : Prop :=
  lines (l ++ result) = chompReturn l :: lines back
    ∨ (trim (chompReturn l) = [] ∧ lines (l ++ result) = lines back)

theorem keepsLines_iff_apart {front : List Char} (hfront : Whole front) (hl : '\n' ∉ l)
    (rest back : List Char) :
    KeepsLines (front ++ (l ++ ['\n'])) back (front ++ (l ++ (rest ++ back)))
      ↔ Apart l back (rest ++ back) := by
  have hlines : lines (front ++ (l ++ ['\n'])) = lines front ++ [chompReturn l] := by
    rw [lines_append hfront, lines_line hl]
    rfl
  rw [KeepsLines, Apart, hlines, lines_append hfront]
  constructor
  · rintro ⟨kept, hkept, hresult⟩
    rcases hkept with rfl | ⟨blank, hblank, hkept⟩
    · rw [List.append_assoc, List.append_cancel_left_eq] at hresult
      exact Or.inl hresult
    · obtain ⟨rfl, hlast⟩ := List.append_inj' hkept rfl
      rw [List.append_cancel_left_eq] at hresult
      obtain rfl := (List.singleton_inj.mp hlast)
      exact Or.inr ⟨hblank, hresult⟩
  · rintro (h | ⟨hblank, h⟩)
    · exact ⟨_, Or.inl rfl, by rw [h]; simp⟩
    · exact ⟨_, Or.inr ⟨_, hblank, rfl⟩, by rw [h]⟩

/-- Nothing is left of the block: the line in front runs into the text behind. -/
theorem apart_iff (hl : '\n' ∉ l) (back : List Char) :
    Apart l back back ↔ l = [] ∨ (back = [] ∧ l.getLast? ≠ some '\r')
      ∨ (l = ['\r'] ∧ back.head? = some '\n') := by
  rcases line_cases back with ⟨y, cs, hy, rfl⟩ | hy
  · have hly : '\n' ∉ l ++ y := by simp [hl, hy]
    have hjoin : lines (l ++ (y ++ '\n' :: cs)) = chompReturn (l ++ y) :: lines cs := by
      rw [← List.append_assoc, lines_line hly]
    have hsecond : Apart l (y ++ '\n' :: cs) (y ++ '\n' :: cs)
        ↔ trim (chompReturn l) = [] ∧ chompReturn (l ++ y) = chompReturn y := by
      rw [Apart, hjoin, lines_line hy, List.cons.injEq, List.cons.injEq]
      simp
    rw [hsecond]
    by_cases hynil : y = []
    · subst hynil
      rw [List.append_nil, chompReturn_nil, chompReturn_eq_nil]
      constructor
      · rintro ⟨-, rfl | rfl⟩ <;> simp
      · rintro (rfl | ⟨h, -⟩ | ⟨rfl, -⟩)
        · simp
        · simp at h
        · exact ⟨by decide, Or.inr rfl⟩
    · have hhead : (y ++ '\n' :: cs).head? ≠ some '\n' := by
        obtain ⟨c, y, rfl⟩ := List.exists_cons_of_ne_nil hynil
        simp only [List.mem_cons, not_or] at hy
        simpa using fun h => hy.1 h.symm
      rw [chompReturn_append l hynil, List.append_left_eq_self]
      constructor
      · rintro ⟨-, rfl⟩
        exact Or.inl rfl
      · rintro (rfl | ⟨h, -⟩ | ⟨-, h⟩)
        · simp
        · simp at h
        · exact absurd h hhead
  · have hly : '\n' ∉ l ++ back := by simp [hl, hy]
    have hhead : back.head? ≠ some '\n' := fun h => hy (List.mem_of_head? h)
    rw [Apart, lines_of_notMem hly, lines_of_notMem hy]
    by_cases hbnil : back = []
    · subst hbnil
      by_cases hlnil : l = []
      · simp [hlnil]
      · simp [hlnil, ← chompReturn_eq_self, eq_comm (a := l)]
    · by_cases hlnil : l = []
      · simp [hlnil]
      · simp [hlnil, hbnil, hhead]

/-- Something is left of the block: it takes the line in front up. -/
theorem apart_iff_of_rest {rest : List Char} (hl : '\n' ∉ l) (hrest : Whole rest)
    (hne : rest ≠ []) (back : List Char) :
    Apart l back (rest ++ back)
      ↔ rest = ['\n'] ∨ (rest = ['\r', '\n'] ∧ l.getLast? ≠ some '\r') := by
  rcases line_cases rest with ⟨r, cs, hr, rfl⟩ | hr
  · have hlr : '\n' ∉ l ++ r := by simp [hl, hr]
    have hcs : Whole cs := by
      by_cases hnil : cs = []
      · exact Or.inl hnil
      · exact hrest.of_line hnil
    have hjoin : lines (l ++ (r ++ '\n' :: cs ++ back))
        = chompReturn (l ++ r) :: (lines cs ++ lines back) := by
      rw [List.append_assoc, List.cons_append, ← List.append_assoc, lines_line hlr,
        lines_append hcs]
    have hfirst : Apart l back (r ++ '\n' :: cs ++ back)
        ↔ chompReturn (l ++ r) = chompReturn l ∧ cs = [] := by
      rw [Apart, hjoin, List.cons.injEq, List.append_left_eq_self, lines_eq_nil]
      refine or_iff_left ?_
      rintro ⟨-, h⟩
      have hlen := congrArg List.length h
      simp only [List.length_cons, List.length_append] at hlen
      omega
    rw [hfirst]
    by_cases hrnil : r = []
    · subst hrnil
      simp
    · rw [chompReturn_append l hrnil, ← chompReturn_eq_self]
      constructor
      · rintro ⟨h, rfl⟩
        have hlen := congrArg List.length h
        have hle := length_chompReturn_le l
        rw [List.length_append] at hlen
        have hnil : chompReturn r = [] := List.length_eq_zero_iff.mp (by omega)
        rw [hnil, List.append_nil] at h
        rw [(chompReturn_eq_nil.mp hnil).resolve_left hrnil]
        exact Or.inr ⟨rfl, h.symm⟩
      · rintro (h | ⟨h, hl⟩)
        · obtain ⟨c, r, rfl⟩ := List.exists_cons_of_ne_nil hrnil
          simp at h
        · obtain ⟨c, r, rfl⟩ := List.exists_cons_of_ne_nil hrnil
          rw [List.cons_append, List.cons.injEq] at h
          obtain ⟨rfl, h⟩ := h
          cases r with
          | nil =>
              rw [List.nil_append, List.cons.injEq] at h
              refine ⟨?_, h.2⟩
              rw [hl]
              exact List.append_nil l
          | cons d r => simp at h
  · rcases hrest with h | h
    · exact absurd h hne
    · exact absurd (List.mem_of_getLast? h) hr

theorem getLastD_lines {front : List Char} (hfront : Whole front) (hl : '\n' ∉ l) :
    (splitInclusive (front ++ (l ++ ['\n']))).getLastD [] = l ++ ['\n'] := by
  rw [splitInclusive_append hfront, splitInclusive_line hl]
  simp

/-- The lines are kept exactly when the texts are separated. -/
theorem keepsLines_iff_separated {front rest : List Char} (hwhole : Whole front)
    (hrest : Whole rest) (back : List Char) :
    KeepsLines front back (dropNewline front ++ (rest ++ back)) ↔ Separated front rest back := by
  rcases whole_cases hwhole with rfl | ⟨before, l, hbefore, hl, rfl⟩
  · have hkeeps : KeepsLines [] back (dropNewline [] ++ (rest ++ back)) ↔ rest = [] := by
      rw [KeepsLines, dropNewline, if_neg (by simp), List.nil_append, lines_append hrest]
      constructor
      · rintro ⟨kept, hkept | ⟨blank, -, hkept⟩, hresult⟩
        · rw [← hkept, show lines [] = [] from rfl, List.nil_append,
            List.append_left_eq_self] at hresult
          exact lines_eq_nil.mp hresult
        · exact absurd (congrArg List.length hkept) (by simp [lines])
      · rintro rfl
        exact ⟨[], Or.inl rfl, rfl⟩
    rw [hkeeps, Separated]
    simp
  · have hdrop : dropNewline (before ++ (l ++ ['\n'])) = before ++ l := by
      rw [dropNewline, if_pos (by simp), ← List.append_assoc, List.dropLast_concat]
    rw [hdrop, List.append_assoc, keepsLines_iff_apart hbefore hl, Separated,
      getLastD_lines hbefore hl, return_suffix]
    have hone : l ++ ['\n'] = ['\n'] ↔ l = [] := List.append_left_eq_self
    have hreturn : l ++ ['\n'] = ['\r', '\n'] ↔ l = ['\r'] := by
      rw [show ['\r', '\n'] = ['\r'] ++ ['\n'] from rfl, List.append_left_inj]
    rw [hone, hreturn]
    by_cases hnil : rest = []
    · subst hnil
      rw [List.nil_append, apart_iff hl]
      simp
    · rw [apart_iff_of_rest hl hrest hnil]
      simp [hnil]

end Lines

/-- A block whose body has no end line is removed whole. -/
theorem stripAll_blockText {body : List Char} (hbody : Avoids m.end body) :
    stripAll (blockText body m) m = [] := by
  have hfront : Avoids m.start [] := by
    intro l hl
    cases hl
  have hblock := isBlock_blockText hfront hbody []
  have hout := outside_block hblock
  rw [List.append_nil] at hout
  rw [stripAll_eq, hout]
  rfl

/-- **Uninstalling keeps the user's lines exactly when they are separated by the block**: an
empty line in front of it, or nothing on one side. -/
theorem keepsLines_iff (m : Markers) :
    (∀ front body back, Whole front → Free m front → Free m back →
      ((∃ result, remove (front ++ (blockText body m ++ back)) m = some result
          ∧ KeepsLines front back result)
        ↔ Separated front (stripAll (blockText body m) m) back))
    ∧ ∀ body, Avoids m.end body → stripAll (blockText body m) m = [] := by
  refine ⟨?_, fun body => stripAll_blockText⟩
  intro front body back hwhole hfront hback
  rw [remove_around body hwhole hfront.1 hback.1]
  have hiff := keepsLines_iff_separated hwhole (whole_stripAll_block body m) back
  rw [← hiff]
  constructor
  · rintro ⟨result, hresult, hkeeps⟩
    cases hresult
    exact hkeeps
  · intro h
    exact ⟨_, rfl, h⟩

/-- Edits around the block that leave its blank line. -/
theorem keepsLines_iff_edited : ∃ result,
    remove ("# doc\n\n".toList ++ (blockText "body".toList MARKDOWN ++ "after\n".toList)) MARKDOWN
      = some result ∧ KeepsLines "# doc\n\n".toList "after\n".toList result := by
  refine ((keepsLines_iff MARKDOWN).1 _ _ _ (Or.inr (by decide +kernel)) (by decide +kernel)
    (by decide +kernel)).mpr ?_
  rw [(keepsLines_iff MARKDOWN).2 _ (by decide +kernel)]
  decide +kernel

/-- A block right below a line: the lines around it are joined. -/
theorem not_keepsLines : ¬ ∃ result,
    remove ("a\n".toList ++ (blockText "body".toList MARKDOWN ++ "b\n".toList)) MARKDOWN
      = some result ∧ KeepsLines "a\n".toList "b\n".toList result := by
  rintro ⟨result, hresult, hkeeps⟩
  rw [remove_around _ (Or.inr (by decide +kernel)) (by decide +kernel) (by decide +kernel)] at hresult
  cases hresult
  have hsep := (keepsLines_iff_separated (Or.inr (by decide +kernel))
    (whole_stripAll_block _ MARKDOWN) _).mp hkeeps
  rw [stripAll_blockText (by decide +kernel)] at hsep
  exact absurd hsep (by decide +kernel)

end Filigrio.Install
