import Filigrio.Install.Block
import Mathlib.Data.List.Induction

/-!
# Filigrio.Install.Managed

What installing and uninstalling a managed block does to a text. On lines, removing every
block is a scan with one bit of state (`outside`), and `upsert` and `remove` are put
together from it. From there: installing is idempotent on every text; installing and
removing are inverse on a text without markers.
-/

namespace Filigrio.Install

open Lines

variable {m : Markers}

/-- The lines outside of every block; `inside` says whether the scan is within one. -/
def outside (m : Markers) : Bool → List (List Char) → List (List Char)
  | _, [] => []
  | false, l :: ls =>
      if markerText l = m.start then outside m true ls else l :: outside m false ls
  | true, l :: ls => if markerText l = m.end then outside m false ls else outside m true ls

/-- No line of the text is the marker. -/
def Avoids (marker s : List Char) : Prop := ∀ l ∈ splitInclusive s, markerText l ≠ marker

/-- No line of the text is a marker line. -/
def Free (m : Markers) (s : List Char) : Prop := Avoids m.start s ∧ Avoids m.end s

instance (marker s : List Char) : Decidable (Avoids marker s) :=
  inferInstanceAs (Decidable (∀ l ∈ splitInclusive s, markerText l ≠ marker))

instance (m : Markers) (s : List Char) : Decidable (Free m s) :=
  inferInstanceAs (Decidable (_ ∧ _))

/-! ### Removing every block, line by line -/

theorem outside_of_free {ls rest : List (List Char)} (h : ∀ l ∈ ls, markerText l ≠ m.start) :
    outside m false (ls ++ rest) = ls ++ outside m false rest := by
  induction ls with
  | nil => rfl
  | cons l ls ih =>
      rw [List.cons_append, outside, if_neg (h l List.mem_cons_self),
        ih fun l' hl' => h l' (List.mem_cons_of_mem l hl')]
      rfl

theorem outside_self {ls : List (List Char)} (h : ∀ l ∈ ls, markerText l ≠ m.start) :
    outside m false ls = ls := by
  have hout := @outside_of_free m ls [] h
  simpa [outside] using hout

theorem outside_inside {ls rest : List (List Char)} (h : ∀ l ∈ ls, markerText l ≠ m.end) :
    outside m true (ls ++ rest) = outside m true rest := by
  induction ls with
  | nil => rfl
  | cons l ls ih =>
      rw [List.cons_append, outside, if_neg (h l List.mem_cons_self),
        ih fun l' hl' => h l' (List.mem_cons_of_mem l hl')]

/-- A block leaves nothing. -/
theorem outside_block {head block tail : List (List Char)} (h : IsBlock m head block tail) :
    outside m false (block ++ tail) = outside m false tail := by
  obtain ⟨first, inner, last, rfl, hfirst, hinner, hlast⟩ := h.lines
  rw [List.cons_append, List.cons_append, outside, if_pos hfirst, List.append_assoc,
    outside_inside hinner]
  rcases hlast with ⟨rfl, rfl⟩ | ⟨l, rfl, hl⟩
  · rfl
  · rw [List.singleton_append, outside, if_pos hl]

/-- No start line is left. -/
theorem outside_free (b : Bool) (ls : List (List Char)) :
    ∀ l ∈ outside m b ls, markerText l ≠ m.start := by
  induction ls generalizing b with
  | nil => intro l hl; cases b <;> cases hl
  | cons l ls ih =>
      cases b with
      | false =>
          rw [outside]
          split
          · exact ih true
          · rename_i hl
            intro l' hl'
            rcases List.mem_cons.mp hl' with rfl | hl'
            · exact hl
            · exact ih false l' hl'
      | true =>
          rw [outside]
          split
          · exact ih false
          · exact ih true

theorem outside_sublist (b : Bool) (ls : List (List Char)) : (outside m b ls).Sublist ls := by
  induction ls generalizing b with
  | nil => cases b <;> exact List.Sublist.refl _
  | cons l ls ih =>
      cases b with
      | false =>
          rw [outside]
          split
          · exact (ih true).cons l
          · exact (ih false).cons_cons l
      | true =>
          rw [outside]
          split
          · exact (ih false).cons l
          · exact (ih true).cons l

theorem stripAll_eq (content : List Char) :
    stripAll content m = (outside m false (splitInclusive content)).flatten := by
  generalize hn : content.length = n
  induction n using Nat.strongRecOn generalizing content with
  | ind n ih =>
      rcases block_cases m (splitInclusive content) with hfree | ⟨head, block, tail, hlines, hblock⟩
      · rw [stripAll, find_eq_none hfree, outside_self hfree]
        simp
      · have hfind := find_eq_of_isBlock hlines hblock
        have hlt := find_lt hfind
        have hcut : splitInclusive (head.flatten ++ tail.flatten) = head ++ tail := by
          rw [← List.flatten_append]
          refine splitInclusive_sublist (s := content) ?_
          rw [hlines]
          exact (List.Sublist.refl head).append (List.sublist_append_right block tail)
        rw [stripAll, hfind]
        dsimp only
        rw [take_head hlines, drop_block hlines, ih _ ?_ _ rfl, hcut, hlines,
          outside_of_free hblock.head_free, outside_of_free hblock.head_free,
          outside_block hblock]
        rw [← take_head hlines, ← drop_block hlines]
        simp only [List.length_append, List.length_take, List.length_drop] at hlt ⊢
        omega

theorem splitInclusive_stripAll (content : List Char) :
    splitInclusive (stripAll content m) = outside m false (splitInclusive content) := by
  rw [stripAll_eq]
  exact splitInclusive_sublist (outside_sublist false _)

/-! ### The operations, line by line -/

theorem upsert_of_free {content : List Char} (body : List Char)
    (h : ∀ l ∈ splitInclusive content, markerText l ≠ m.start) :
    upsert content body m = append content (blockText body m) := by
  rw [upsert, find_eq_none h]

theorem upsert_of_isBlock {content : List Char} {head block tail : List (List Char)}
    (body : List Char) (hlines : splitInclusive content = head ++ (block ++ tail))
    (h : IsBlock m head block tail) :
    upsert content body m
      = head.flatten ++ (blockText body m ++ (outside m false tail).flatten) := by
  have htail : splitInclusive tail.flatten = tail := by
    refine splitInclusive_sublist (s := content) ?_
    rw [hlines]
    exact (List.sublist_append_right block tail).trans (List.sublist_append_right head _)
  rw [upsert, find_eq_of_isBlock hlines h]
  dsimp only
  rw [take_head hlines, drop_block hlines, stripAll_eq, htail]

theorem remove_of_isBlock {content : List Char} {head block tail : List (List Char)}
    (hlines : splitInclusive content = head ++ (block ++ tail))
    (h : IsBlock m head block tail) :
    remove content m = some ((if head.flatten.getLast? = some '\n' then head.flatten.dropLast
      else head.flatten) ++ (outside m false tail).flatten) := by
  have htail : splitInclusive tail.flatten = tail := by
    refine splitInclusive_sublist (s := content) ?_
    rw [hlines]
    exact (List.sublist_append_right block tail).trans (List.sublist_append_right head _)
  rw [remove, find_eq_of_isBlock hlines h, Option.map_some]
  dsimp only
  rw [take_head hlines, drop_block hlines, stripAll_eq, htail]

/-! ### Texts without a marker -/

section Avoids

variable {marker : List Char}

theorem avoids_append {s t : List Char} (hs : Whole s) :
    Avoids marker (s ++ t) ↔ Avoids marker s ∧ Avoids marker t := by
  rw [Avoids, splitInclusive_append hs, List.forall_mem_append]
  rfl

theorem IsMarker.text_newline_ne (h : IsMarker marker) : markerText ['\n'] ≠ marker := by
  have htext : markerText ['\n'] = [] := markerText_newline []
  rw [htext]
  exact fun heq => h.nonempty heq.symm

/-- A terminator more does not make a marker line. -/
theorem avoids_newline (hm : IsMarker marker) {s : List Char} :
    Avoids marker (s ++ ['\n']) ↔ Avoids marker s := by
  induction s using line_induction with
  | last l hl =>
      rw [Avoids, Avoids, splitInclusive_line hl, splitInclusive_of_notMem hl]
      simp only [splitInclusive_nil, List.mem_singleton, forall_eq]
      split
      · rename_i hnil
        subst hnil
        simpa using hm.text_newline_ne
      · simp [markerText_newline]
  | line l cs hl ih =>
      have hsplit : ∀ t, Avoids marker (l ++ '\n' :: t)
          ↔ markerText (l ++ ['\n']) ≠ marker ∧ Avoids marker t := by
        intro t
        rw [Avoids, splitInclusive_line hl, List.forall_mem_cons]
        rfl
      rw [List.append_assoc, List.cons_append, hsplit, hsplit, ih]

theorem avoids_cons_newline (hm : IsMarker marker) {s : List Char} :
    Avoids marker ('\n' :: s) ↔ Avoids marker s := by
  rw [Avoids, splitInclusive_newline, List.forall_mem_cons]
  exact and_iff_right hm.text_newline_ne

theorem avoids_trimNewlines (hm : IsMarker marker) {s : List Char} (h : Avoids marker s) :
    Avoids marker (trimNewlines s) := by
  have hfront : Avoids marker (s.dropWhile (· = '\n')) := by
    induction s with
    | nil => exact h
    | cons c s ih =>
        by_cases hc : c = '\n'
        · subst hc
          rw [List.dropWhile_cons_of_pos (by decide)]
          exact ih ((avoids_cons_newline hm).mp h)
        · rw [List.dropWhile_cons_of_neg (by simpa using hc)]
          exact h
  rw [trimNewlines]
  generalize s.dropWhile (· = '\n') = t at hfront
  induction t using List.reverseRecOn with
  | nil => exact hfront
  | append_singleton t c ih =>
      rw [Text.trimEndChars, List.reverse_append, List.reverse_singleton, List.singleton_append]
      by_cases hc : c = '\n'
      · subst hc
        rw [List.dropWhile_cons_of_pos (by decide)]
        exact ih ((avoids_newline hm).mp hfront)
      · rw [List.dropWhile_cons_of_neg (by simpa using hc)]
        simpa using hfront

end Avoids

/-! ### The block in its surroundings -/

theorem splitInclusive_blockText (body : List Char) (m : Markers) :
    splitInclusive (blockText body m)
      = (m.start ++ ['\n']) :: splitInclusive (trimNewlines body ++ ['\n']) ++ [m.end ++ ['\n']] := by
  have hwhole : Whole (trimNewlines body ++ ['\n']) := Whole.append_newline _
  have hassoc : trimNewlines body ++ '\n' :: (m.end ++ ['\n'])
      = (trimNewlines body ++ ['\n']) ++ (m.end ++ ['\n']) := by simp
  rw [blockText, splitInclusive_line m.startMarker.oneLine, hassoc, splitInclusive_append hwhole,
    splitInclusive_line m.endMarker.oneLine]
  rfl

theorem whole_blockText (body : List Char) (m : Markers) : Whole (blockText body m) :=
  Or.inr (by simp [blockText, List.getLast?_cons, List.getLast?_append])

theorem splitInclusive_around {front : List Char} (hfront : Whole front) (body back : List Char) :
    splitInclusive (front ++ (blockText body m ++ back)) = splitInclusive front
      ++ (splitInclusive (blockText body m) ++ splitInclusive back) := by
  rw [splitInclusive_append hfront, splitInclusive_append (whole_blockText body m)]

/-- A rendered block is the block that is found, behind a text without a start line. -/
theorem isBlock_blockText {front body : List Char} (hfront : Avoids m.start front)
    (hbody : Avoids m.end body) (tail : List (List Char)) :
    IsBlock m (splitInclusive front) (splitInclusive (blockText body m)) tail := by
  refine ⟨hfront, _, _, _, splitInclusive_blockText body m, m.startMarker.text, ?_, ?_⟩
  · exact (avoids_newline m.endMarker).mpr (avoids_trimNewlines m.endMarker hbody)
  · exact Or.inr ⟨_, rfl, m.endMarker.text⟩

theorem upsert_around {front body body' back : List Char} (hwhole : Whole front)
    (hfront : Avoids m.start front) (hbody : Avoids m.end body) (hback : Avoids m.start back) :
    upsert (front ++ (blockText body m ++ back)) body' m
      = front ++ (blockText body' m ++ back) := by
  rw [upsert_of_isBlock body' (splitInclusive_around hwhole body back)
    (isBlock_blockText hfront hbody _), outside_self hback]
  simp

/-- What `append` puts in front of the block. -/
def beforeBlock (content : List Char) : List Char :=
  if content = [] then []
  else if content.getLast? = some '\n' then content ++ ['\n']
  else content ++ ['\n'] ++ ['\n']

theorem append_eq (content block : List Char) :
    append content block = beforeBlock content ++ block := by
  unfold append beforeBlock
  split
  · rfl
  · split <;> simp

theorem whole_beforeBlock (content : List Char) : Whole (beforeBlock content) := by
  unfold beforeBlock
  split
  · exact Whole.nil
  · split
    · exact Whole.append_newline _
    · exact Whole.append_newline _

theorem avoids_beforeBlock {marker content : List Char} (hm : IsMarker marker)
    (h : Avoids marker content) : Avoids marker (beforeBlock content) := by
  unfold beforeBlock
  split
  · intro l hl
    cases hl
  · split
    · exact (avoids_newline hm).mpr h
    · exact (avoids_newline hm).mpr ((avoids_newline hm).mpr h)

/-- **Installing is idempotent**, on every text. -/
theorem upsert_upsert {body : List Char} (hbody : Avoids m.end body) (content : List Char) :
    upsert (upsert content body m) body m = upsert content body m := by
  rcases block_cases m (splitInclusive content) with hfree | ⟨head, block, tail, hlines, hblock⟩
  · have hback : Avoids m.start [] := by
      intro l hl
      cases hl
    have h := @upsert_around m _ body body [] (whole_beforeBlock content)
      (avoids_beforeBlock m.startMarker hfree) hbody hback
    rw [upsert_of_free body hfree, append_eq]
    simpa using h
  · have hhead : splitInclusive head.flatten = head := by
      refine splitInclusive_sublist (s := content) ?_
      rw [hlines]
      exact List.sublist_append_left head _
    have hwhole : Whole head.flatten :=
      whole_of_splitInclusive hlines (by simp [hblock.ne_nil])
    have hrest : splitInclusive (outside m false tail).flatten = outside m false tail := by
      refine splitInclusive_sublist (s := content) ((outside_sublist false tail).trans ?_)
      rw [hlines]
      exact (List.sublist_append_right block tail).trans (List.sublist_append_right head _)
    rw [upsert_of_isBlock body hlines hblock]
    refine upsert_around hwhole ?_ hbody ?_
    · rw [Avoids, hhead]
      exact hblock.head_free
    · rw [Avoids, hrest]
      exact outside_free false tail

/-! ### What installs leave -/

/-- The text in front of the block and the text behind it. -/
def around (content : List Char) (m : Markers) : Option (List Char × List Char) :=
  (find content m).map fun range => (content.take range.1, content.drop range.2)

/-- Install bodies one after the other. -/
def upserts (m : Markers) (content : List Char) (bodies : List (List Char)) : List Char :=
  bodies.foldl (fun text body => upsert text body m) content

/-- What installing `first` and then `rest` into the text `content` should leave. -/
structure Installed (m : Markers) (content first : List Char) (rest : List (List Char)) : Prop where
  one_start : (splitInclusive (upserts m content (first :: rest))).countP
    (fun l => markerText l = m.start) = 1
  one_end : (splitInclusive (upserts m content (first :: rest))).countP
    (fun l => markerText l = m.end) = 1
  body : bodyOf (upserts m content (first :: rest)) m = some (trimNewlines (rest.getLastD first))
  around : around (upserts m content (first :: rest)) m = around (upsert content first m) m
  removed : remove (upserts m content (first :: rest)) m
    = some (if content = [] ∨ content.getLast? = some '\n' then content else content ++ ['\n'])

section Installs

variable {content first : List Char} {rest : List (List Char)}

/-- Installs replace the block that the first one appended. -/
theorem upserts_eq (hcontent : Avoids m.start content)
    (hbodies : ∀ b ∈ first :: rest, Avoids m.end b) :
    upserts m content (first :: rest)
      = beforeBlock content ++ (blockText (rest.getLastD first) m ++ []) := by
  rw [upserts, List.foldl_cons, upsert_of_free first hcontent, append_eq]
  have hback : Avoids m.start [] := by
    intro l hl
    cases hl
  rw [← List.append_nil (blockText first m)]
  induction rest generalizing first with
  | nil => rfl
  | cons b rest ih =>
      have hfirst := hbodies first List.mem_cons_self
      rw [List.foldl_cons, upsert_around (whole_beforeBlock content)
        (avoids_beforeBlock m.startMarker hcontent) hfirst hback, List.getLastD_cons]
      exact ih fun b' hb' => hbodies b' (List.mem_cons_of_mem first hb')

theorem find_around {front body back : List Char} (hwhole : Whole front)
    (hfront : Avoids m.start front) (hbody : Avoids m.end body) :
    find (front ++ (blockText body m ++ back)) m
      = some (front.length, front.length + (blockText body m).length) := by
  rw [find_eq_of_isBlock (splitInclusive_around hwhole body back)
    (isBlock_blockText hfront hbody _)]
  simp

theorem countP_of_avoids {marker s : List Char} (h : Avoids marker s) :
    (splitInclusive s).countP (fun l => markerText l = marker) = 0 := by
  rw [List.countP_eq_zero]
  intro l hl
  simpa using h l hl

theorem countP_start {front body : List Char} (hwhole : Whole front)
    (hfront : Avoids m.start front) (hbody : Avoids m.start body) :
    (splitInclusive (front ++ (blockText body m ++ []))).countP
      (fun l => markerText l = m.start) = 1 := by
  have hinner := countP_of_avoids
    ((avoids_newline m.startMarker).mpr (avoids_trimNewlines m.startMarker hbody))
  rw [splitInclusive_around hwhole, splitInclusive_blockText]
  simp [countP_of_avoids hfront, hinner, m.startMarker.text, m.endMarker.text, m.differ.symm]

theorem countP_end {front body : List Char} (hwhole : Whole front)
    (hfront : Avoids m.end front) (hbody : Avoids m.end body) :
    (splitInclusive (front ++ (blockText body m ++ []))).countP
      (fun l => markerText l = m.end) = 1 := by
  have hinner := countP_of_avoids
    ((avoids_newline m.endMarker).mpr (avoids_trimNewlines m.endMarker hbody))
  rw [splitInclusive_around hwhole, splitInclusive_blockText]
  simp [countP_of_avoids hfront, hinner, m.startMarker.text, m.endMarker.text, m.differ]

/-- A marker does not end in a carriage return. -/
theorem IsMarker.chompReturn {marker : List Char} (h : IsMarker marker) :
    Lines.chompReturn marker = marker := by
  rcases chompReturn_cases marker with ⟨hsame, -⟩ | hreturn
  · exact hsame
  · have htrim : trim (Lines.chompReturn marker ++ ['\r']) = trim (Lines.chompReturn marker) :=
      trim_append (List.forall_mem_singleton.mpr (by decide))
    have hle := length_trim_le (Lines.chompReturn marker)
    rw [← htrim, ← hreturn, h.trimmed] at hle
    have hlen := congrArg List.length hreturn
    simp only [List.length_append, List.length_singleton] at hlen
    omega

/-- The body is read back up to its carriage returns. -/
theorem bodyOf_around {front body : List Char} (hwhole : Whole front)
    (hfront : Avoids m.start front) (hbody : Avoids m.end body) :
    bodyOf (front ++ (blockText body m ++ [])) m
      = some (unlines (lines (trimNewlines body ++ ['\n']))) := by
  have hinner : ((front ++ (blockText body m ++ [])).take
      (front.length + (blockText body m).length)).drop front.length = blockText body m := by
    rw [List.append_nil, ← List.length_append, List.take_length, List.drop_left]
  have hlines : lines (blockText body m) = m.start :: (lines (trimNewlines body ++ ['\n']) ++ [m.end]) := by
    rw [lines, splitInclusive_blockText]
    simp [lines, m.startMarker.chompReturn, m.endMarker.chompReturn]
  rw [bodyOf, find_around hwhole hfront hbody, Option.map_some]
  dsimp only
  rw [hinner, hlines, List.tail_cons, List.getLast?_concat, Option.any_some,
    m.endMarker.trimmed, if_pos (by simp), List.dropLast_concat]

/-- What `remove` leaves of the text in front of an appended block. -/
theorem dropLast_beforeBlock (content : List Char) :
    (if (beforeBlock content).getLast? = some '\n' then (beforeBlock content).dropLast
      else beforeBlock content)
      = if content = [] ∨ content.getLast? = some '\n' then content else content ++ ['\n'] := by
  unfold beforeBlock
  by_cases hnil : content = []
  · simp [hnil]
  · by_cases hlast : content.getLast? = some '\n'
    · simp [hnil, hlast]
    · simp [hnil, hlast]

/-- Installing into a text without markers leaves one block with the last body; only its
carriage returns may be read back differently. -/
theorem installed_iff (hcontent : Free m content) (hbodies : ∀ b ∈ first :: rest, Free m b) :
    Installed m content first rest ↔ NoReturn (trimNewlines (rest.getLastD first)) := by
  have hwhole := whole_beforeBlock content
  have hstart := avoids_beforeBlock m.startMarker hcontent.1
  have hend := avoids_beforeBlock m.endMarker hcontent.2
  have hlast : Free m (rest.getLastD first) := hbodies _ List.getLastD_mem_cons
  have heq := upserts_eq hcontent.1 fun b hb => (hbodies b hb).2
  have hfirst : upsert content first m = beforeBlock content ++ (blockText first m ++ []) := by
    rw [upsert_of_free first hcontent.1, append_eq, List.append_nil]
  have hbody := bodyOf_around hwhole hstart hlast.2
  constructor
  · intro h
    have hread := h.body
    rw [heq, hbody, Option.some.injEq] at hread
    exact unlines_lines.mp hread
  · intro h
    constructor
    · rw [heq]
      exact countP_start hwhole hstart hlast.1
    · rw [heq]
      exact countP_end hwhole hend hlast.2
    · rw [heq, hbody, unlines_lines.mpr h]
    · rw [heq, hfirst, around, around, find_around hwhole hstart hlast.2,
        find_around hwhole hstart (hbodies first List.mem_cons_self).2]
      simp
    · have hremove := remove_of_isBlock (splitInclusive_around hwhole (rest.getLastD first) [])
        (isBlock_blockText hstart hlast.2 _)
      rw [heq, hremove, flatten_splitInclusive, dropLast_beforeBlock]
      simp [outside]

end Installs

/-! ### What a removal leaves -/

/-- The line that `remove` makes of the line in front of the block and the line behind. -/
def joinedLine (content : List Char) (m : Markers) : List Char :=
  match find content m with
  | none => []
  | some range => ((splitInclusive (content.take range.1)).getLastD []).dropLast
      ++ (splitInclusive (stripAll (content.drop range.2) m)).headD []

/-- After a removal a start line remains exactly when the joined line is one. -/
theorem avoids_remove_iff (content : List Char) :
    Avoids m.start ((remove content m).getD content)
      ↔ markerText (joinedLine content m) ≠ m.start := by
  have hempty : markerText [] ≠ m.start := fun h => m.startMarker.nonempty h.symm
  rcases block_cases m (splitInclusive content) with hfree | ⟨head, block, tail, hlines, hblock⟩
  · rw [remove, joinedLine, find_eq_none hfree]
    exact iff_of_true hfree hempty
  · have hhead : splitInclusive head.flatten = head := by
      refine splitInclusive_sublist (s := content) ?_
      rw [hlines]
      exact List.sublist_append_left head _
    have htail : splitInclusive tail.flatten = tail := by
      refine splitInclusive_sublist (s := content) ?_
      rw [hlines]
      exact (List.sublist_append_right block tail).trans (List.sublist_append_right head _)
    have hrest : splitInclusive (outside m false tail).flatten = outside m false tail := by
      have hsub := outside_sublist (m := m) false tail
      rw [← htail] at hsub ⊢
      exact splitInclusive_sublist hsub
    have hwhole : Whole head.flatten := whole_of_splitInclusive hlines (by simp [hblock.ne_nil])
    have hhfree : Avoids m.start head.flatten := by
      rw [Avoids, hhead]
      exact hblock.head_free
    have hrfree : Avoids m.start (outside m false tail).flatten := by
      rw [Avoids, hrest]
      exact outside_free false tail
    have hjoined : joinedLine content m = ((splitInclusive head.flatten).getLastD []).dropLast
        ++ (splitInclusive (outside m false tail).flatten).headD [] := by
      rw [joinedLine, find_eq_of_isBlock hlines hblock]
      dsimp only
      rw [take_head hlines, drop_block hlines, stripAll_eq, htail]
    rw [remove_of_isBlock hlines hblock, Option.getD_some, hjoined]
    generalize (outside m false tail).flatten = rest at hrfree
    rcases whole_cases hwhole with hnil | ⟨front, l, hfront, hl, heq⟩
    · rw [hnil]
      refine iff_of_true hrfree ?_
      cases hsplit : splitInclusive rest with
      | nil => exact hempty
      | cons z zs =>
          refine hrfree z ?_
          rw [hsplit]
          exact List.mem_cons_self
    · rw [heq] at hhfree ⊢
      rw [avoids_append hfront, avoids_newline m.startMarker] at hhfree
      have hlast : ((splitInclusive (front ++ (l ++ ['\n']))).getLastD []).dropLast = l := by
        rw [splitInclusive_append hfront, splitInclusive_line hl]
        simp
      rw [if_pos (by simp), hlast, ← List.append_assoc, List.dropLast_concat, List.append_assoc,
        avoids_append hfront, and_iff_right hhfree.1]
      cases hsplit : splitInclusive rest with
      | nil =>
          rw [splitInclusive_eq_nil.mp hsplit, List.append_nil, List.headD_nil, List.append_nil]
          refine iff_of_true hhfree.2 ?_
          by_cases hlnil : l = []
          · rw [hlnil]
            exact hempty
          · refine hhfree.2 l ?_
            rw [splitInclusive_of_notMem hl, if_neg hlnil]
            exact List.mem_singleton_self l
      | cons z zs =>
          have hzs : ∀ l ∈ zs, markerText l ≠ m.start := by
            intro l' hl'
            refine hrfree l' ?_
            rw [hsplit]
            exact List.mem_cons_of_mem z hl'
          rw [Avoids, splitInclusive_prepend hl hsplit, List.forall_mem_cons]
          exact and_iff_left hzs

/-- **Managed blocks are inverse up to carriage returns and one joined line.** Installing
bodies without markers into a text without markers leaves one block, whose body is read back
exactly when no line of it ends in a carriage return; installing is idempotent on every text;
and removing leaves a start line exactly when the lines around the block join to one. -/
theorem managed_block_iff (m : Markers) :
    (∀ content first rest, Free m content → (∀ b ∈ first :: rest, Free m b) →
      (Installed m content first rest ↔ NoReturn (trimNewlines (rest.getLastD first))))
    ∧ (∀ content body, Free m body →
        upsert (upsert content body m) body m = upsert content body m)
    ∧ ∀ content, Avoids m.start ((remove content m).getD content)
        ↔ markerText (joinedLine content m) ≠ m.start := by
  refine ⟨?_, ?_, avoids_remove_iff⟩
  · intro content first rest hcontent hbodies
    exact installed_iff hcontent hbodies
  · intro content body hbody
    exact upsert_upsert hbody.2 content

/-- Two installs into a document. -/
theorem managed_block_iff_document :
    Installed MARKDOWN "# doc\n".toList "body v1".toList ["body v2".toList] := by
  refine ((managed_block_iff MARKDOWN).1 _ _ _ ?_ ?_).mpr ?_
  · decide +kernel
  · decide +kernel
  · decide +kernel

/-- A body with a carriage return is not read back, and a start line can be made of the lines
around a block. -/
theorem not_managed_block_inverse :
    ¬ Installed MARKDOWN "# doc\n".toList "one\r\ntwo".toList []
    ∧ ¬ Avoids MARKDOWN.start ((remove ("<!-- filigrio:\n".toList
        ++ (blockText "body".toList MARKDOWN ++ "start -->\n".toList)) MARKDOWN).getD []) := by
  constructor
  · intro h
    have hread := (installed_iff (by decide +kernel) (by decide +kernel)).mp h
    exact absurd hread (by decide +kernel)
  · have hwhole : Whole "<!-- filigrio:\n".toList := Or.inr (by decide +kernel)
    have hblock := @isBlock_blockText MARKDOWN "<!-- filigrio:\n".toList "body".toList
      (by decide +kernel) (by decide +kernel) (splitInclusive "start -->\n".toList)
    rw [remove_of_isBlock (splitInclusive_around hwhole _ _) hblock]
    decide +kernel

end Filigrio.Install
