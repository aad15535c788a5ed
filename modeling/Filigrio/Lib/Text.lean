import Mathlib.Data.List.Infix
import Mathlib.Data.List.TakeWhile

/-!
# Text

The string operations of Rust's standard library that path and name handling
rests on, over the characters of a string: splitting at a separator, cutting at
the last separator, stripping a prefix or a suffix, trimming. A separator is
matched from the left (`split`) or from the right (`rsplit`), never overlapping.
-/

namespace Text

/-- Unicode `White_Space`, what `char::is_whitespace` answers. -/
def isWhite (c : Char) : Bool :=
  let n := c.toNat
  (9 ≤ n && n ≤ 13) || n == 0x20 || n == 0x85 || n == 0xA0 || n == 0x1680
    || (0x2000 ≤ n && n ≤ 0x200A) || n == 0x2028 || n == 0x2029 || n == 0x202F
    || n == 0x205F || n == 0x3000

/-- The segments of a text around the separator `sep`. `skip` counts the
characters of a separator that is being passed over, `cur` is the current
segment reversed. -/
def splitAux (sep : List Char) : ℕ → List Char → List Char → List (List Char)
  | _, cur, [] => [cur.reverse]
  | skip + 1, cur, _ :: cs => splitAux sep skip cur cs
  | 0, cur, c :: cs =>
      if sep.isPrefixOf (c :: cs) then cur.reverse :: splitAux sep (sep.length - 1) [] cs
      else splitAux sep 0 (c :: cur) cs

/-- `str::split` at a non-empty separator. -/
def splitChars (sep s : List Char) : List (List Char) := splitAux sep 0 [] s

/-- `s.split(sep)`. -/
def split (s sep : String) : List String :=
  (splitChars sep.toList s.toList).map String.ofList

/-- `s.split(sep).next()`: everything before the first separator. -/
def before (s sep : String) : String :=
  String.ofList ((splitChars sep.toList s.toList).headD [])

/-- `s.rsplit(sep).next()`: everything after the last separator. -/
def afterLast (s sep : String) : String :=
  String.ofList ((splitChars sep.toList.reverse s.toList.reverse).headD []).reverse

/-- `s.contains(sep)`. -/
def contains (s sep : String) : Bool := s.toList.tails.any fun t => sep.toList.isPrefixOf t

/-- `s.starts_with(p)`. -/
def startsWith (s p : String) : Bool := p.toList.isPrefixOf s.toList

/-- `s.ends_with(p)`. -/
def endsWith (s p : String) : Bool := p.toList.reverse.isPrefixOf s.toList.reverse

/-- `s.strip_prefix(p)`. -/
def stripPrefix (s p : String) : Option String :=
  if startsWith s p then some (String.ofList (s.toList.drop p.toList.length)) else none

/-- `s.strip_suffix(p)`. -/
def stripSuffix (s p : String) : Option String :=
  if endsWith s p then some (String.ofList (s.toList.take (s.toList.length - p.toList.length)))
  else none

/-- Drop the matching characters at the end. -/
def trimEndChars (p : Char → Bool) (s : List Char) : List Char := (s.reverse.dropWhile p).reverse

/-- `s.trim()`. -/
def trim (s : String) : String :=
  String.ofList (trimEndChars isWhite (s.toList.dropWhile isWhite))

/-- `s.replace(a, b)` for single characters. -/
def replaceChar (s : String) (a b : Char) : String :=
  String.ofList (s.toList.map fun c => if c = a then b else c)

/-- `segs.join(sep)`. -/
def join (segs : List String) (sep : String) : String := String.intercalate sep segs

/-- The prefixes of a text that end just before an occurrence of `c`, longest
first; the text is given reversed. -/
def cutsBefore (c : Char) : List Char → List (List Char)
  | [] => []
  | d :: ds => if d = c then ds.reverse :: cutsBefore c ds else cutsBefore c ds

/-- The prefixes of `s` that end just before an occurrence of `c`, longest
first: what repeated `rfind(c)` cuts leave. -/
def cuts (s : String) (c : Char) : List String := (cutsBefore c s.toList.reverse).map String.ofList

/-! ### Splitting what was joined -/

theorem splitAux_of_notMem {c : Char} {sep s : List Char} (h : c ∉ s) (cur : List Char) :
    splitAux (c :: sep) 0 cur s = [cur.reverse ++ s] := by
  induction s generalizing cur with
  | nil => simp [splitAux]
  | cons d s ih =>
      have hd : c ≠ d := fun heq => h (heq ▸ List.mem_cons_self)
      have hs : c ∉ s := fun hmem => h (List.mem_cons_of_mem d hmem)
      rw [splitAux, if_neg (by simp [List.isPrefixOf, hd]), ih hs]
      simp

/-- The rest of a separator is passed over. -/
theorem splitAux_skip (sep passed cur rest : List Char) :
    splitAux sep passed.length cur (passed ++ rest) = splitAux sep 0 cur rest := by
  induction passed with
  | nil => rfl
  | cons c cs ih => rw [List.length_cons, List.cons_append, splitAux, ih]

theorem splitAux_append {c : Char} {sep s : List Char} (h : c ∉ s) (cur rest : List Char) :
    splitAux (c :: sep) 0 cur (s ++ c :: (sep ++ rest))
      = (cur.reverse ++ s) :: splitAux (c :: sep) 0 [] rest := by
  induction s generalizing cur with
  | nil =>
      have hpre : (c :: sep).isPrefixOf (c :: (sep ++ rest)) = true := by
        rw [List.isPrefixOf_iff_prefix]
        exact List.prefix_append (c :: sep) rest
      rw [List.nil_append, splitAux, if_pos hpre, List.length_cons, Nat.add_sub_cancel,
        splitAux_skip, List.append_nil]
  | cons d s ih =>
      have hd : c ≠ d := fun heq => h (heq ▸ List.mem_cons_self)
      have hs : c ∉ s := fun hmem => h (List.mem_cons_of_mem d hmem)
      rw [List.cons_append, splitAux, if_neg (by simp [List.isPrefixOf, hd]), ih hs]
      simp

/-- Splitting gives back what was joined, when no part has the first character of the
separator. -/
theorem split_join_of {c : Char} {sep : List Char} {sepText : String}
    (hsep : sepText.toList = c :: sep) {segs : List String} (hne : segs ≠ [])
    (h : ∀ seg ∈ segs, c ∉ seg.toList) : split (join segs sepText) sepText = segs := by
  induction segs with
  | nil => exact absurd rfl hne
  | cons seg rest ih =>
      have hseg := h seg List.mem_cons_self
      have hrest : ∀ s ∈ rest, c ∉ s.toList := fun s hs => h s (List.mem_cons_of_mem seg hs)
      cases rest with
      | nil =>
          simp only [join, String.intercalate_singleton, split, splitChars, hsep,
            splitAux_of_notMem hseg]
          simp
      | cons next rest =>
          have ih := ih (List.cons_ne_nil next rest) hrest
          simp only [join, split, splitChars, hsep] at ih ⊢
          rw [String.intercalate_cons_cons, String.toList_append, String.toList_append, hsep,
            List.append_assoc, List.cons_append, splitAux_append hseg, List.map_cons, ih]
          simp

theorem split_join {c : Char} {segs : List String} (hne : segs ≠ [])
    (h : ∀ seg ∈ segs, c ∉ seg.toList) : split (join segs (String.singleton c)) (String.singleton c)
      = segs :=
  split_join_of (String.toList_singleton c) hne h

/-! ### Small facts about the operations -/

theorem mem_join {segs : List String} {sep : String} {c : Char}
    (h : c ∈ (join segs sep).toList) : c ∈ sep.toList ∨ ∃ s ∈ segs, c ∈ s.toList := by
  induction segs with
  | nil => simp [join] at h
  | cons seg segs ih =>
      cases segs with
      | nil =>
          rw [join, String.intercalate_singleton] at h
          exact Or.inr ⟨seg, List.mem_cons_self, h⟩
      | cons next segs =>
          rw [join, String.intercalate_cons_cons, String.toList_append,
            String.toList_append, List.mem_append, List.mem_append] at h
          rcases h with (h | h) | h
          · exact Or.inr ⟨seg, List.mem_cons_self, h⟩
          · exact Or.inl h
          · rcases ih h with h | ⟨s, hs, hc⟩
            · exact Or.inl h
            · exact Or.inr ⟨s, List.mem_cons_of_mem seg hs, hc⟩

theorem append_inj_left {a b c : String} (h : a ++ c = b ++ c) : a = b := by
  have hlist := congrArg String.toList h
  rw [String.toList_append, String.toList_append] at hlist
  exact String.toList_injective (List.append_cancel_right hlist)

theorem join_concat {segs : List String} (h : segs ≠ []) (last sep : String) :
    join (segs ++ [last]) sep = join segs sep ++ sep ++ last := by
  induction segs with
  | nil => exact absurd rfl h
  | cons seg segs ih =>
      cases segs with
      | nil => simp [join, String.intercalate_cons_cons]
      | cons next segs =>
          have ih := ih (List.cons_ne_nil next segs)
          rw [join, join] at ih ⊢
          rw [List.cons_append, List.cons_append, String.intercalate_cons_cons,
            ← List.cons_append, ih, String.intercalate_cons_cons]
          simp only [String.append_assoc]

theorem join_append {segs segs' : List String} (h : segs ≠ []) (h' : segs' ≠ []) (sep : String) :
    join (segs ++ segs') sep = join segs sep ++ sep ++ join segs' sep := by
  induction segs with
  | nil => exact absurd rfl h
  | cons seg segs ih =>
      cases segs with
      | nil =>
          obtain ⟨next, rest, rfl⟩ := List.exists_cons_of_ne_nil h'
          rw [join, join, join, List.cons_append, List.nil_append, String.intercalate_cons_cons,
            String.intercalate_singleton]
      | cons next segs =>
          have ih := ih (List.cons_ne_nil next segs)
          rw [join, join] at ih ⊢
          rw [List.cons_append, List.cons_append, String.intercalate_cons_cons,
            ← List.cons_append, ih, String.intercalate_cons_cons]
          simp only [join, String.append_assoc]

theorem stripPrefix_append (s t : String) : stripPrefix (s ++ t) s = some t := by
  have hpre : startsWith (s ++ t) s = true := by
    rw [startsWith, List.isPrefixOf_iff_prefix, String.toList_append]
    exact List.prefix_append _ _
  rw [stripPrefix, if_pos hpre, String.toList_append, List.drop_left, String.ofList_toList]

theorem stripSuffix_append (s t : String) : stripSuffix (s ++ t) t = some s := by
  have hsuf : endsWith (s ++ t) t = true := by
    rw [endsWith, List.isPrefixOf_iff_prefix, String.toList_append, List.reverse_append]
    exact List.prefix_append _ _
  rw [stripSuffix, if_pos hsuf, String.toList_append, List.length_append,
    Nat.add_sub_cancel, List.take_left, String.ofList_toList]

theorem trim_of_notWhite {s : String} (h : ∀ c ∈ s.toList, isWhite c = false) : trim s = s := by
  have hfront : s.toList.dropWhile isWhite = s.toList := by
    rw [List.dropWhile_eq_self_iff]
    intro hpos
    rw [Bool.not_eq_true]
    exact h _ (List.getElem_mem hpos)
  have hback : s.toList.reverse.dropWhile isWhite = s.toList.reverse := by
    rw [List.dropWhile_eq_self_iff]
    intro hpos
    have hmem := List.mem_reverse.mp (List.getElem_mem hpos)
    rw [Bool.not_eq_true]
    exact h _ hmem
  rw [trim, hfront, trimEndChars, hback, List.reverse_reverse, String.ofList_toList]

end Text
