import Filigrio.Lib.Text

/-!
# Splitting once

`split_once` and `rsplit_once` cut a text at the first and at the last occurrence of a
separator, `trim_end_matches` takes a text off its end as often as it stands there. The cuts
of a text whose parts do not have the separator's characters are the parts.
-/

namespace Text

/-- What stands before and after the first occurrence of a (nonempty) separator. -/
def splitOnceChars (sep : List Char) : List Char → Option (List Char × List Char)
  | [] => none
  | c :: cs =>
      if sep.isPrefixOf (c :: cs) then some ([], (c :: cs).drop sep.length)
      else (splitOnceChars sep cs).map fun p => (c :: p.1, p.2)

/-- `s.split_once(sep)`. -/
def splitOnce (s sep : String) : Option (String × String) :=
  (splitOnceChars sep.toList s.toList).map fun p => (String.ofList p.1, String.ofList p.2)

/-- `s.rsplit_once(sep)`. -/
def rsplitOnce (s sep : String) : Option (String × String) :=
  (splitOnceChars sep.toList.reverse s.toList.reverse).map
    fun p => (String.ofList p.2.reverse, String.ofList p.1.reverse)

/-- Take a (nonempty) text off the front while it stands there, `fuel` times at most. -/
def dropMatches (pat : List Char) : ℕ → List Char → List Char
  | 0, s => s
  | fuel + 1, s => if pat.isPrefixOf s then dropMatches pat fuel (s.drop pat.length) else s

/-- `s.trim_end_matches(pat)`. -/
def trimEndMatches (s pat : String) : String :=
  String.ofList (dropMatches pat.toList.reverse s.toList.length s.toList.reverse).reverse

/-- `s.split_whitespace()`. -/
def splitWhitespace (s : List Char) : List (List Char) :=
  (s.splitOnP isWhite).filter fun word => !word.isEmpty

/-! ### Cutting at a character that is not in the front -/

theorem splitOnceChars_append {c : Char} {sep s : List Char} (h : c ∉ s) (rest : List Char) :
    splitOnceChars (c :: sep) (s ++ (c :: sep ++ rest)) = some (s, rest) := by
  induction s with
  | nil =>
      have hpre : (c :: sep).isPrefixOf (c :: (sep ++ rest)) = true := by
        rw [List.isPrefixOf_iff_prefix]
        exact List.prefix_append (c :: sep) rest
      rw [List.nil_append, List.cons_append, splitOnceChars, if_pos hpre, ← List.cons_append,
        List.drop_left]
  | cons d s ih =>
      have hd : c ≠ d := fun heq => h (heq ▸ List.mem_cons_self)
      have hs : c ∉ s := fun hmem => h (List.mem_cons_of_mem d hmem)
      rw [List.cons_append, splitOnceChars, if_neg (by simp [List.isPrefixOf, hd]), ih hs,
        Option.map_some]

theorem splitOnceChars_of_notMem {c : Char} {sep s : List Char} (h : c ∉ s) :
    splitOnceChars (c :: sep) s = none := by
  induction s with
  | nil => rfl
  | cons d s ih =>
      have hd : c ≠ d := fun heq => h (heq ▸ List.mem_cons_self)
      have hs : c ∉ s := fun hmem => h (List.mem_cons_of_mem d hmem)
      rw [splitOnceChars, if_neg (by simp [List.isPrefixOf, hd]), ih hs, Option.map_none]

/-- A separator of one repeated character, such as `::`, reads the same from both ends. -/
theorem rsplitOnce_append {c : Char} {k : ℕ} {sep : String}
    (hsep : sep.toList = List.replicate (k + 1) c) (s : String) {last : String}
    (h : c ∉ last.toList) : rsplitOnce (s ++ sep ++ last) sep = some (s, last) := by
  have hlist : (s ++ sep ++ last).toList.reverse
      = last.toList.reverse ++ (c :: List.replicate k c ++ s.toList.reverse) := by
    rw [String.toList_append, String.toList_append, List.reverse_append, List.reverse_append, hsep,
      List.reverse_replicate, List.replicate_succ]
  have hrev : sep.toList.reverse = c :: List.replicate k c := by
    rw [hsep, List.reverse_replicate, List.replicate_succ]
  rw [rsplitOnce, hlist, hrev, splitOnceChars_append (fun hmem => h (List.mem_reverse.mp hmem)),
    Option.map_some, List.reverse_reverse, List.reverse_reverse, String.ofList_toList,
    String.ofList_toList]

theorem rsplitOnce_of_notMem {c : Char} {k : ℕ} {sep : String}
    (hsep : sep.toList = List.replicate (k + 1) c) {s : String} (h : c ∉ s.toList) :
    rsplitOnce s sep = none := by
  rw [rsplitOnce, hsep, List.reverse_replicate, List.replicate_succ,
    splitOnceChars_of_notMem fun hmem => h (List.mem_reverse.mp hmem), Option.map_none]

/-- One match at the end is taken off, and no more, where the rest does not end in one. -/
theorem trimEndMatches_append {s pat : String} (hne : pat ≠ "")
    (h : endsWith s pat = false) : trimEndMatches (s ++ pat) pat = s := by
  have hpat : pat.toList ≠ [] := fun hnil => hne (String.toList_injective hnil)
  have hlen : ∃ fuel, (s ++ pat).toList.length = fuel + 1 := by
    refine ⟨(s ++ pat).toList.length - 1, ?_⟩
    rw [String.toList_append, List.length_append]
    have := List.length_pos_of_ne_nil hpat
    omega
  obtain ⟨fuel, hfuel⟩ := hlen
  have hstep : dropMatches pat.toList.reverse (fuel + 1) (s ++ pat).toList.reverse
      = dropMatches pat.toList.reverse fuel s.toList.reverse := by
    have hpre : pat.toList.reverse.isPrefixOf (s ++ pat).toList.reverse = true := by
      rw [List.isPrefixOf_iff_prefix, String.toList_append, List.reverse_append]
      exact List.prefix_append _ _
    rw [dropMatches, if_pos hpre, String.toList_append, List.reverse_append, List.drop_left]
  have hrest : dropMatches pat.toList.reverse fuel s.toList.reverse = s.toList.reverse := by
    cases fuel with
    | zero => rfl
    | succ fuel => rw [dropMatches, if_neg (by rw [← endsWith, h]; exact Bool.false_ne_true)]
  rw [trimEndMatches, hfuel, hstep, hrest, List.reverse_reverse, String.ofList_toList]

/-- A text that does not end in the match stays as it is. -/
theorem trimEndMatches_of_not {s pat : String} (h : endsWith s pat = false) :
    trimEndMatches s pat = s := by
  have hself : dropMatches pat.toList.reverse s.toList.length s.toList.reverse
      = s.toList.reverse := by
    cases s.toList.length with
    | zero => rfl
    | succ fuel => rw [dropMatches, if_neg (by rw [← endsWith, h]; exact Bool.false_ne_true)]
  rw [trimEndMatches, hself, List.reverse_reverse, String.ofList_toList]

/-! ### Words -/

end Text
