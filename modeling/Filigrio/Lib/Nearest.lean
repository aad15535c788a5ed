import Filigrio.Lib.Text

/-!
# Nearest

Two ways to find the longest path among some that lies above a given one: keep
the last maximum of a scan, or walk the cuts of the path from the longest to the
shortest. Both rest on one relation, `Above c r s`: the text `r` is `s` itself or
ends in front of an occurrence of the separator `c` in `s`. It is what being a
prefix segment by segment comes to (`split_prefix_split`).
-/

namespace Nearest

/-! ### The last maximum of a list -/

section LastMax

variable {α : Type} (f : α → ℕ)

/-- Keep the larger of the best so far and the next element, the next one on a tie. -/
def keepMax (best : Option α) (a : α) : Option α :=
  match best with
  | none => some a
  | some b => if f b ≤ f a then some a else some b

/-- `iter().max_by_key(f)`: the last element with the largest key. -/
def lastMax (l : List α) : Option α := l.foldl (keepMax f) none

variable {f}

theorem foldl_keepMax_some (l : List α) (b : α) : ∃ m, l.foldl (keepMax f) (some b) = some m ∧
    m ∈ b :: l ∧ ∀ x ∈ b :: l, f x ≤ f m := by
  induction l generalizing b with
  | nil => exact ⟨b, rfl, by simp, by simp⟩
  | cons a l ih =>
      rw [List.foldl_cons, keepMax]
      by_cases hle : f b ≤ f a
      · obtain ⟨m, hm, hmem, hmax⟩ := ih a
        rw [if_pos hle]
        refine ⟨m, hm, List.mem_cons_of_mem b hmem, fun x hx => ?_⟩
        rcases List.mem_cons.mp hx with rfl | hx
        · exact Nat.le_trans hle (hmax a List.mem_cons_self)
        · exact hmax x hx
      · obtain ⟨m, hm, hmem, hmax⟩ := ih b
        rw [if_neg hle]
        have hb := hmax b List.mem_cons_self
        refine ⟨m, hm, ?_, fun x hx => ?_⟩
        · simp only [List.mem_cons] at hmem ⊢
          tauto
        · simp only [List.mem_cons] at hx
          rcases hx with rfl | rfl | hx
          · exact hb
          · omega
          · exact hmax x (List.mem_cons_of_mem b hx)

/-- The scan ends with an element of the list that has the largest key. -/
theorem lastMax_spec {l : List α} {m : α} (h : lastMax f l = some m) :
    m ∈ l ∧ ∀ x ∈ l, f x ≤ f m := by
  cases l with
  | nil => cases h
  | cons a l =>
      obtain ⟨m', hm', hspec⟩ := foldl_keepMax_some (f := f) l a
      have heq : some m' = some m := hm'.symm.trans h
      cases heq
      exact hspec

theorem lastMax_eq_none {l : List α} : lastMax f l = none ↔ l = [] := by
  cases l with
  | nil => simp [lastMax]
  | cons a l =>
      obtain ⟨m, hm, -⟩ := foldl_keepMax_some (f := f) l a
      have h : lastMax f (a :: l) = some m := hm
      simp [h]

/-- Where no two elements share a key, the last maximum is the maximum. -/
theorem lastMax_eq_some {l : List α} (hinj : ∀ x ∈ l, ∀ y ∈ l, f x = f y → x = y) {m : α} :
    lastMax f l = some m ↔ m ∈ l ∧ ∀ x ∈ l, f x ≤ f m := by
  refine ⟨lastMax_spec, fun ⟨hmem, hmax⟩ => ?_⟩
  cases h : lastMax f l with
  | none => rw [lastMax_eq_none.mp h] at hmem; cases hmem
  | some m' =>
      obtain ⟨hmem', hmax'⟩ := lastMax_spec h
      have heq : f m' = f m := Nat.le_antisymm (hmax m' hmem') (hmax' m hmem)
      rw [hinj m' hmem' m hmem heq]

end LastMax

/-! ### Prefixes up to a separator -/

/-- `r` is `s`, or stands in front of a separator of `s`. -/
def Above (c : Char) (r s : String) : Prop := r = s ∨ ∃ t, s.toList = r.toList ++ c :: t

theorem Above.isPrefix {c : Char} {r s : String} (h : Above c r s) : r.toList <+: s.toList := by
  rcases h with rfl | ⟨t, ht⟩
  · exact List.prefix_rfl
  · exact ⟨c :: t, ht.symm⟩

/-- What lies above one text is told apart by its length. -/
theorem Above.eq_of_length {c : Char} {r r' s : String} (h : Above c r s) (h' : Above c r' s)
    (hlen : r.length = r'.length) : r = r' := by
  have hlen' : r.toList.length = r'.toList.length := by
    rw [String.length_toList, String.length_toList, hlen]
  have hpre := List.prefix_of_prefix_length_le h.isPrefix h'.isPrefix (Nat.le_of_eq hlen')
  exact String.toList_injective (hpre.eq_of_length hlen')

/-- Of the names of one directory, at most one stands above a path. -/
theorem Above.eq_of_append {c : Char} {dir a b s : String} (ha : c ∉ a.toList)
    (hb : c ∉ b.toList) (h : Above c (dir ++ a) s) (h' : Above c (dir ++ b) s) : a = b := by
  have hname : ∀ {n : String}, c ∉ n.toList → Above c (dir ++ n) s →
      (s.toList.drop dir.toList.length).takeWhile (· ≠ c) = n.toList := by
    intro n hn habove
    have hall : ∀ d ∈ n.toList, decide (d ≠ c) = true := by
      intro d hd
      simp only [ne_eq, decide_eq_true_eq]
      rintro rfl
      exact hn hd
    rcases habove with rfl | ⟨t, ht⟩
    · rw [String.toList_append, List.drop_left]
      simpa using @List.takeWhile_append_of_pos _ _ _ [] hall
    · rw [ht, String.toList_append, List.append_assoc, List.drop_left,
        List.takeWhile_append_of_pos hall]
      simp
  exact String.toList_injective ((hname ha h).symm.trans (hname hb h'))

theorem mem_cutsBefore {c : Char} {l p : List Char} :
    p ∈ Text.cutsBefore c l ↔ ∃ t, l.reverse = p ++ c :: t := by
  induction l with
  | nil => simp [Text.cutsBefore]
  | cons d l ih =>
      rw [Text.cutsBefore, List.reverse_cons]
      have hlater : (∃ t, l.reverse = p ++ c :: t)
          ↔ ∃ t, l.reverse ++ [d] = p ++ c :: t ∧ t ≠ [] := by
        constructor
        · rintro ⟨t, ht⟩
          exact ⟨t ++ [d], by simp [ht], by simp⟩
        · rintro ⟨t, ht, hne⟩
          obtain ⟨t, e, rfl⟩ := t.eq_nil_or_concat.resolve_left hne
          rw [List.concat_eq_append, ← List.cons_append, ← List.append_assoc] at ht
          exact ⟨t, (List.append_inj' ht rfl).1⟩
      have hnow : l.reverse ++ [d] = p ++ [c] ↔ d = c ∧ p = l.reverse := by
        constructor
        · intro h
          have := List.append_inj' h rfl
          simp_all
        · rintro ⟨rfl, rfl⟩
          rfl
      by_cases hd : d = c
      · rw [if_pos hd, List.mem_cons, ih, hlater]
        constructor
        · rintro (hp | ⟨t, ht, -⟩)
          · exact ⟨[], hnow.mpr ⟨hd, hp⟩⟩
          · exact ⟨t, ht⟩
        · rintro ⟨t, ht⟩
          by_cases hne : t = []
          · subst hne
            exact Or.inl (hnow.mp ht).2
          · exact Or.inr ⟨t, ht, hne⟩
      · rw [if_neg hd, ih, hlater]
        constructor
        · rintro ⟨t, ht, -⟩
          exact ⟨t, ht⟩
        · rintro ⟨t, ht⟩
          refine ⟨t, ht, fun hne => ?_⟩
          subst hne
          exact hd (hnow.mp ht).1

/-- The cuts of a text are what stands in front of its separators. -/
theorem mem_cuts {c : Char} {r s : String} :
    r ∈ Text.cuts s c ↔ ∃ t, s.toList = r.toList ++ c :: t := by
  rw [Text.cuts, List.mem_map]
  constructor
  · rintro ⟨p, hp, rfl⟩
    simpa using mem_cutsBefore.mp hp
  · rintro ⟨t, ht⟩
    exact ⟨r.toList, mem_cutsBefore.mpr ⟨t, by simpa using ht⟩, by simp⟩

/-- The cuts come longest first. -/
theorem cuts_sorted (s : String) (c : Char) :
    (Text.cuts s c).Pairwise fun r r' => r'.length < r.length := by
  rw [Text.cuts, List.pairwise_map]
  generalize s.toList.reverse = l
  induction l with
  | nil => exact List.Pairwise.nil
  | cons d l ih =>
      rw [Text.cutsBefore]
      split
      · refine List.pairwise_cons.mpr ⟨fun p hp => ?_, ih⟩
        obtain ⟨t, ht⟩ := mem_cutsBefore.mp hp
        have hlen := congrArg List.length ht
        simp only [List.length_append, List.length_cons, List.length_reverse] at hlen
        simp only [String.length_ofList, List.length_reverse]
        omega
      · exact ih

theorem length_lt_of_mem_cuts {c : Char} {r s : String} (h : r ∈ Text.cuts s c) :
    r.length < s.length := by
  obtain ⟨t, ht⟩ := mem_cuts.mp h
  have hlen := congrArg List.length ht
  simp only [String.length_toList, List.length_append, List.length_cons] at hlen
  omega

/-- A search from the longest candidate to the shortest finds a longest one. -/
theorem exists_longest {α : Type*} {l : List String} {f : String → Option α} {a : α}
    (hsorted : l.Pairwise fun r r' => r'.length ≤ r.length) (h : l.findSome? f = some a) :
    ∃ r ∈ l, f r = some a ∧ ∀ r' ∈ l, (f r').isSome → r'.length ≤ r.length := by
  obtain ⟨longer, r, shorter, rfl, hr, hlonger⟩ := List.findSome?_eq_some_iff.mp h
  refine ⟨r, by simp, hr, ?_⟩
  intro r' hr' hsome
  rcases List.mem_append.mp hr' with hin | hin
  · rw [hlonger r' hin] at hsome
    cases hsome
  · rcases List.mem_cons.mp hin with heq | hin
    · exact Nat.le_of_eq (by rw [heq])
    · exact (List.pairwise_cons.mp (List.pairwise_append.mp hsorted).2.1).1 r' hin

/-! ### Prefixes segment by segment -/

theorem splitAux_append_sep {c : Char} (s cur t : List Char) :
    Text.splitAux [c] 0 cur (s ++ c :: t)
      = Text.splitAux [c] 0 cur s ++ Text.splitAux [c] 0 [] t := by
  induction s generalizing cur with
  | nil => simp [Text.splitAux, List.isPrefixOf]
  | cons d s ih =>
      rw [List.cons_append]
      by_cases hd : c = d
      · subst hd
        simp only [Text.splitAux, List.isPrefixOf, BEq.rfl, Bool.and_self, if_true,
          List.length_singleton, Nat.sub_self, ih, List.cons_append]
      · simp only [Text.splitAux, List.isPrefixOf, beq_iff_eq, hd, Bool.and_true,
          if_false, ih]

theorem splitAux_ne_nil {sep : List Char} (skip : ℕ) (cur s : List Char) :
    Text.splitAux sep skip cur s ≠ [] := by
  induction s generalizing skip cur with
  | nil => cases skip <;> simp [Text.splitAux]
  | cons d s ih =>
      cases skip with
      | zero =>
          rw [Text.splitAux]
          split
          · exact List.cons_ne_nil _ _
          · exact ih 0 (d :: cur)
      | succ k =>
          rw [Text.splitAux]
          exact ih k cur

/-- The segments joined again give the text. -/
theorem intercalate_splitAux (c : Char) (cur s : List Char) :
    List.intercalate [c] (Text.splitAux [c] 0 cur s) = cur.reverse ++ s := by
  induction s generalizing cur with
  | nil => simp [Text.splitAux, List.intercalate]
  | cons d s ih =>
      by_cases hd : c = d
      · subst hd
        simp only [Text.splitAux, List.isPrefixOf, BEq.rfl, Bool.and_self, if_true,
          List.length_singleton, Nat.sub_self]
        have hne : Text.splitAux [c] 0 [] s ≠ [] := splitAux_ne_nil 0 [] s
        obtain ⟨x, xs, hx⟩ := List.exists_cons_of_ne_nil hne
        rw [hx, List.intercalate_cons_cons, ← hx, ih]
        simp
      · simp only [Text.splitAux, List.isPrefixOf, beq_iff_eq, hd, Bool.and_true, if_false, ih]
        simp

/-- A prefix segment by segment is the whole text or ends at a separator. -/
theorem splitChars_prefix {c : Char} {r s : List Char} :
    Text.splitChars [c] r <+: Text.splitChars [c] s ↔ r = s ∨ ∃ t, s = r ++ c :: t := by
  constructor
  · rintro ⟨rest, hrest⟩
    have hr := intercalate_splitAux c [] r
    have hs := intercalate_splitAux c [] s
    simp only [List.reverse_nil, List.nil_append] at hr hs
    unfold Text.splitChars at hrest
    cases rest with
    | nil =>
        rw [List.append_nil] at hrest
        exact Or.inl (by rw [← hr, ← hs, hrest])
    | cons x rest =>
        refine Or.inr ⟨List.intercalate [c] (x :: rest), ?_⟩
        have hsplit : List.intercalate [c] (Text.splitAux [c] 0 [] r ++ x :: rest)
            = List.intercalate [c] (Text.splitAux [c] 0 [] r)
              ++ [c] ++ List.intercalate [c] (x :: rest) := by
          have hne : Text.splitAux [c] 0 [] r ≠ [] := splitAux_ne_nil 0 [] r
          generalize Text.splitAux [c] 0 [] r = l at hne
          induction l with
          | nil => exact absurd rfl hne
          | cons a l ih =>
              cases l with
              | nil => simp [List.intercalate]
              | cons b l =>
                  have ih := ih (List.cons_ne_nil b l)
                  simp only [List.cons_append, List.intercalate_cons_cons] at ih ⊢
                  rw [ih]
                  simp
        rw [hrest, hs, hr] at hsplit
        simpa using hsplit
  · rintro (rfl | ⟨t, rfl⟩)
    · exact List.prefix_rfl
    · exact ⟨_, (splitAux_append_sep r [] t).symm⟩

/-- `Above` is the prefix relation on the segments of two paths. -/
theorem split_prefix_split {c : Char} {r s : String} :
    Text.split r (String.singleton c) <+: Text.split s (String.singleton c) ↔ Above c r s := by
  have hinj : Function.Injective String.ofList := fun a b h => by
    simpa using congrArg String.toList h
  rw [Text.split, Text.split, List.prefix_map_iff_of_injective hinj, String.toList_singleton,
    splitChars_prefix, Above, String.toList_inj]

end Nearest
