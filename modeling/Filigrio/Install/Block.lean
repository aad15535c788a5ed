import Filigrio.Lib.Lines

/-!
# Filigrio.Install.Block

Managed blocks: a region between two marker lines inside a file that the user owns.
Install upserts it, uninstall removes it. The code works on offsets; here each operation is
also described on the lines of the text (`find_eq_of_isBlock`, `stripAll_eq`), which is what
the later proofs read.
-/

namespace Filigrio.Install

open Lines

/-- A whole-line comment that survives being read back from its line. -/
structure IsMarker (marker : List Char) : Prop where
  trimmed : trim marker = marker
  nonempty : marker ≠ []
  oneLine : '\n' ∉ marker

/-- A paired start/end marker. -/
structure Markers where
  start : List Char
  «end» : List Char
  startMarker : IsMarker start
  endMarker : IsMarker «end»
  differ : start ≠ «end»

/-- Markdown files: HTML comments, invisible when rendered. -/
def MARKDOWN : Markers where
  start := "<!-- filigrio:start -->".toList
  «end» := "<!-- filigrio:end -->".toList
  startMarker := ⟨by decide +kernel, by decide +kernel, by decide +kernel⟩
  endMarker := ⟨by decide +kernel, by decide +kernel, by decide +kernel⟩
  differ := by decide +kernel

/-- Shell scripts (git hooks). -/
def SHELL : Markers where
  start := "# filigrio-hook-start".toList
  «end» := "# filigrio-hook-end".toList
  startMarker := ⟨by decide +kernel, by decide +kernel, by decide +kernel⟩
  endMarker := ⟨by decide +kernel, by decide +kernel, by decide +kernel⟩
  differ := by decide +kernel

/-- YAML configs: a comment is lexical and does not end a block mapping. -/
def YAML : Markers where
  start := "# filigrio:start".toList
  «end» := "# filigrio:end".toList
  startMarker := ⟨by decide +kernel, by decide +kernel, by decide +kernel⟩
  endMarker := ⟨by decide +kernel, by decide +kernel, by decide +kernel⟩
  differ := by decide +kernel

/-- What a line is compared by: its terminator goes, then the whitespace around it. -/
def markerText (line : List Char) : List Char :=
  trim (Text.trimEndChars (fun c => c = '\n' || c = '\r') line)

/-- The loop of `find` over the lines, from `offset` on; `start` is where the start line was. -/
def findFrom (m : Markers) : Option ℕ → ℕ → List (List Char) → Option (ℕ × ℕ)
  -- A start with no end runs to the end of the text.
  | start, offset, [] => start.map fun s => (s, offset)
  | none, offset, line :: rest =>
      findFrom m (if markerText line = m.start then some offset else none)
        (offset + line.length) rest
  | some s, offset, line :: rest =>
      if markerText line = m.end then some (s, offset + line.length)
      else findFrom m (some s) (offset + line.length) rest

/-- The half-open range a block occupies, from the `start` line through the `end` line. -/
def find (content : List Char) (m : Markers) : Option (ℕ × ℕ) :=
  findFrom m none 0 (splitInclusive content)

/-- Is our block present? -/
def contains (content : List Char) (m : Markers) : Bool := (find content m).isSome

/-- The block's body (between the markers), if present. -/
def bodyOf (content : List Char) (m : Markers) : Option (List Char) :=
  (find content m).map fun range =>
    let inner := (content.take range.2).drop range.1
    let ls := (lines inner).tail
    unlines (if ls.getLast?.any fun l => trim l = m.end then ls.dropLast else ls)

/-- `trim_matches('\n')`. -/
def trimNewlines (s : List Char) : List Char :=
  Text.trimEndChars (· = '\n') (s.dropWhile (· = '\n'))

/-- Render the block text for `body`. -/
def blockText (body : List Char) (m : Markers) : List Char :=
  m.start ++ '\n' :: (trimNewlines body ++ '\n' :: (m.end ++ ['\n']))

/-- Append `block` to `content`: one blank line of separation, and never two. -/
def append (content block : List Char) : List Char :=
  if content = [] then block
  else if content.getLast? = some '\n' then content ++ '\n' :: block
  else content ++ '\n' :: '\n' :: block

/-! ### The lines of a block -/

section Find

variable {m : Markers} {content : List Char}

theorem markerText_eq_trim (line : List Char) : markerText line = trim line := by
  have hsplit : ∃ w, line = Text.trimEndChars (fun c => c = '\n' || c = '\r') line ++ w
      ∧ ∀ c ∈ w, Text.isWhite c = true := by
    refine ⟨(line.reverse.takeWhile fun c => c = '\n' || c = '\r').reverse, ?_, ?_⟩
    · rw [Text.trimEndChars, ← List.reverse_append, List.takeWhile_append_dropWhile,
        List.reverse_reverse]
    · intro c hc
      have hc := List.mem_takeWhile_imp (List.mem_reverse.mp hc)
      simp only [Bool.or_eq_true, decide_eq_true_eq] at hc
      rcases hc with rfl | rfl <;> decide
  obtain ⟨w, hw, hwhite⟩ := hsplit
  conv_rhs => rw [hw, trim_append hwhite]
  rfl

theorem markerText_newline (line : List Char) : markerText (line ++ ['\n']) = markerText line := by
  rw [markerText_eq_trim, markerText_eq_trim, trim_newline]

theorem IsMarker.text {marker : List Char} (h : IsMarker marker) :
    markerText (marker ++ ['\n']) = marker := by
  rw [markerText_newline, markerText_eq_trim, h.trimmed]

/-- `block` starts at the first start line of the text and runs to the end line after it, or
to the end of the text. -/
structure IsBlock (m : Markers) (head block tail : List (List Char)) : Prop where
  head_free : ∀ l ∈ head, markerText l ≠ m.start
  lines : ∃ first inner last, block = first :: inner ++ last ∧ markerText first = m.start
    ∧ (∀ l ∈ inner, markerText l ≠ m.end)
    ∧ ((last = [] ∧ tail = []) ∨ ∃ l, last = [l] ∧ markerText l = m.end)

theorem IsBlock.ne_nil {head block tail : List (List Char)} (h : IsBlock m head block tail) :
    block ≠ [] := by
  obtain ⟨first, inner, last, rfl, -⟩ := h.lines
  simp

theorem findFrom_some {inner last tail : List (List Char)} {s offset : ℕ}
    (hinner : ∀ l ∈ inner, markerText l ≠ m.end)
    (hlast : (last = [] ∧ tail = []) ∨ ∃ l, last = [l] ∧ markerText l = m.end) :
    findFrom m (some s) offset (inner ++ (last ++ tail))
      = some (s, offset + (inner ++ last).flatten.length) := by
  induction inner generalizing offset with
  | nil =>
      rcases hlast with ⟨rfl, rfl⟩ | ⟨l, rfl, hl⟩
      · rfl
      · simp [findFrom, hl]
  | cons l inner ih =>
      have hl := hinner l List.mem_cons_self
      rw [List.cons_append, findFrom, if_neg hl,
        ih fun l' hl' => hinner l' (List.mem_cons_of_mem l hl')]
      simp only [List.cons_append, List.flatten_cons, List.length_append]
      rw [Nat.add_assoc]

theorem findFrom_of_free {ls rest : List (List Char)} {offset : ℕ}
    (h : ∀ l ∈ ls, markerText l ≠ m.start) :
    findFrom m none offset (ls ++ rest) = findFrom m none (offset + ls.flatten.length) rest := by
  induction ls generalizing offset with
  | nil => rfl
  | cons l ls ih =>
      rw [List.cons_append, findFrom, if_neg (h l List.mem_cons_self),
        ih fun l' hl' => h l' (List.mem_cons_of_mem l hl')]
      simp only [List.flatten_cons, List.length_append]
      rw [Nat.add_assoc]

/-- The range that is found is the block's. -/
theorem find_eq_of_isBlock {head block tail : List (List Char)}
    (hlines : splitInclusive content = head ++ (block ++ tail)) (h : IsBlock m head block tail) :
    find content m = some (head.flatten.length, (head ++ block).flatten.length) := by
  obtain ⟨first, inner, last, rfl, hfirst, hinner, hlast⟩ := h.lines
  rw [find, hlines, findFrom_of_free h.head_free, List.cons_append, List.cons_append, findFrom,
    if_pos hfirst, List.append_assoc, findFrom_some hinner hlast]
  simp only [List.flatten_append, List.flatten_cons, List.length_append,
    Option.some.injEq, Prod.mk.injEq]
  omega

theorem find_eq_none (h : ∀ l ∈ splitInclusive content, markerText l ≠ m.start) :
    find content m = none := by
  rw [find, ← List.append_nil (splitInclusive content), findFrom_of_free h]
  rfl

/-- Lines with an end line among them, cut after it. -/
theorem end_cases (m : Markers) (ls : List (List Char)) :
    ∃ inner last tail, ls = inner ++ (last ++ tail) ∧ (∀ l ∈ inner, markerText l ≠ m.end)
      ∧ ((last = [] ∧ tail = []) ∨ ∃ l, last = [l] ∧ markerText l = m.end) := by
  induction ls with
  | nil => exact ⟨[], [], [], rfl, by simp, Or.inl ⟨rfl, rfl⟩⟩
  | cons l ls ih =>
      by_cases hl : markerText l = m.end
      · exact ⟨[], [l], ls, rfl, by simp, Or.inr ⟨l, rfl, hl⟩⟩
      · obtain ⟨inner, last, tail, rfl, hinner, hlast⟩ := ih
        refine ⟨l :: inner, last, tail, rfl, fun l' hl' => ?_, hlast⟩
        rcases List.mem_cons.mp hl' with rfl | hl'
        · exact hl
        · exact hinner l' hl'

/-- A text has no start line, or a first block. -/
theorem block_cases (m : Markers) (ls : List (List Char)) :
    (∀ l ∈ ls, markerText l ≠ m.start)
    ∨ ∃ head block tail, ls = head ++ (block ++ tail) ∧ IsBlock m head block tail := by
  induction ls with
  | nil => exact Or.inl (by simp)
  | cons l ls ih =>
      by_cases hl : markerText l = m.start
      · obtain ⟨inner, last, tail, rfl, hinner, hlast⟩ := end_cases m ls
        refine Or.inr ⟨[], l :: inner ++ last, tail, by simp, by simp, ?_⟩
        exact ⟨l, inner, last, rfl, hl, hinner, hlast⟩
      · rcases ih with hfree | ⟨head, block, tail, rfl, hblock⟩
        · refine Or.inl fun l' hl' => ?_
          rcases List.mem_cons.mp hl' with rfl | hl'
          · exact hl
          · exact hfree l' hl'
        · refine Or.inr ⟨l :: head, block, tail, rfl, fun l' hl' => ?_, hblock.lines⟩
          rcases List.mem_cons.mp hl' with rfl | hl'
          · exact hl
          · exact hblock.head_free l' hl'

theorem take_head {head block tail : List (List Char)}
    (hlines : splitInclusive content = head ++ (block ++ tail)) :
    content.take head.flatten.length = head.flatten := by
  rw [← flatten_splitInclusive content, hlines, List.flatten_append, List.take_left]

theorem drop_block {head block tail : List (List Char)}
    (hlines : splitInclusive content = head ++ (block ++ tail)) :
    content.drop (head ++ block).flatten.length = tail.flatten := by
  have hsplit : content = (head ++ block).flatten ++ tail.flatten := by
    rw [← List.flatten_append, List.append_assoc, ← hlines, flatten_splitInclusive]
  rw [hsplit, List.drop_left]

/-- Every line has characters. -/
theorem line_ne_nil {s l : List Char} (h : l ∈ splitInclusive s) : l ≠ [] := by
  induction s using line_induction with
  | last l' hl' =>
      rw [splitInclusive_of_notMem hl'] at h
      split at h
      · cases h
      · rename_i hne
        rw [List.mem_singleton.mp h]
        exact hne
  | line l' cs hl' ih =>
      rw [splitInclusive_line hl'] at h
      rcases List.mem_cons.mp h with rfl | h
      · simp
      · exact ih h

/-- A range that is found is not empty and lies in the text. -/
theorem find_lt {range : ℕ × ℕ} (h : find content m = some range) :
    range.1 < range.2 ∧ range.2 ≤ content.length := by
  rcases block_cases m (splitInclusive content) with hfree | ⟨head, block, tail, hlines, hblock⟩
  · rw [find_eq_none hfree] at h
    cases h
  · rw [find_eq_of_isBlock hlines hblock] at h
    cases h
    have hlen := congrArg (fun ls => ls.flatten.length) hlines
    obtain ⟨first, rest, hfirst⟩ := List.exists_cons_of_ne_nil hblock.ne_nil
    have hpos : 0 < first.length := by
      refine List.length_pos_of_ne_nil (line_ne_nil (s := content) ?_)
      rw [hlines, hfirst]
      simp
    simp only [flatten_splitInclusive, hfirst, List.flatten_append, List.flatten_cons,
      List.length_append] at hlen ⊢
    omega

end Find

/-- Remove every block. -/
def stripAll (content : List Char) (m : Markers) : List Char :=
  match _h : find content m with
  | none => content
  | some range => stripAll (content.take range.1 ++ content.drop range.2) m
termination_by content.length
decreasing_by
  have hlt := find_lt _h
  simp only [List.length_append, List.length_take, List.length_drop]
  omega

/-- Insert or replace the managed block, leaving all other content untouched. Of several
blocks the first is replaced in place and the rest are removed. -/
def upsert (content body : List Char) (m : Markers) : List Char :=
  let block := blockText body m
  match find content m with
  | none => append content block
  | some range => content.take range.1 ++ (block ++ stripAll (content.drop range.2) m)

/-- Remove the managed block; `none` when there was none. -/
def remove (content : List Char) (m : Markers) : Option (List Char) :=
  (find content m).map fun range =>
    let head := content.take range.1
    let tail := stripAll (content.drop range.2) m
    -- Drop exactly the one separator newline that `append` contributed.
    (if head.getLast? = some '\n' then head.dropLast else head) ++ tail

end Filigrio.Install
