import Filigrio.Lib.Nearest
import Filigrio.Resolve.ModRes

/-!
# Filigrio.Resolve.Specifier

What a specifier that is no Rust path names: a workspace package, found by cutting the
specifier at its slashes from the right, or a file beside the importing one, found by
applying its segments to the directory.

The loop that cuts in place visits every boundary and ends at the longest package
(`packageOfLoop_eq`, `longest_iff`). The segments of the specifier are normalised, those of
the base are kept as they are, so the result is the POSIX one for a normalised base.
-/

namespace Filigrio

open Nearest (Above)

/-! ### The cutting loop -/

/-- Of a text given reversed, the place of its last `/`. -/
def rfindSlash : List Char → Option ℕ
  | [] => none
  | c :: cs => if c = '/' then some cs.length else rfindSlash cs

theorem rfindSlash_lt {s : List Char} {i : ℕ} (h : rfindSlash s = some i) : i < s.length := by
  induction s with
  | nil => cases h
  | cons c cs ih =>
      rw [rfindSlash] at h
      rw [List.length_cons]
      split at h
      · have heq := Option.some.inj h
        omega
      · exact Nat.lt_succ_of_lt (ih h)

namespace SourceModuleResolver

variable (R : SourceModuleResolver)

/-- The loop of `package_of`, on the first `stop` characters of the specifier. -/
def packageOfFrom (specifier : List Char) (stop : ℕ) : Option (String × Package) :=
  match R.packages[String.ofList (specifier.take stop)]? with
  | some pkg => some (String.ofList (specifier.take stop), pkg)
  | none =>
      match _h : rfindSlash (specifier.take stop).reverse with
      | none => none
      | some i => packageOfFrom specifier i
termination_by stop
decreasing_by
  have hlt := rfindSlash_lt _h
  rw [List.length_reverse, List.length_take] at hlt
  omega

/-- `package_of`, as it cuts the specifier in place. -/
def packageOfLoop (specifier : String) : Option (String × Package) :=
  R.packageOfFrom specifier.toList specifier.toList.length

/-- The longest package that the specifier names or lies under. -/
structure Longest (specifier name : String) (pkg : Package) : Prop where
  named : R.packages[name]? = some pkg
  above : Above '/' name specifier
  longest : ∀ m q, R.packages[m]? = some q → Above '/' m specifier → m.length ≤ name.length

/-! ### The loop against the scan -/

/-- The cuts of a text, given reversed, start at its last slash. -/
theorem cutsBefore_eq (s : List Char) :
    Text.cutsBefore '/' s = match rfindSlash s with
      | none => []
      | some i => s.reverse.take i :: Text.cutsBefore '/' (s.reverse.take i).reverse := by
  induction s with
  | nil => rfl
  | cons c cs ih =>
      by_cases hc : c = '/'
      · have htake : (c :: cs).reverse.take cs.length = cs.reverse := by
          rw [List.reverse_cons, List.take_append_of_le_length (by simp), List.take_of_length_le
            (by simp)]
        rw [rfindSlash, if_pos hc, Text.cutsBefore, if_pos hc]
        simp only [htake, List.reverse_reverse]
      · rw [rfindSlash, if_neg hc, Text.cutsBefore, if_neg hc, ih]
        cases hi : rfindSlash cs with
        | none => rfl
        | some i =>
            have hlt := rfindSlash_lt hi
            have htake : (c :: cs).reverse.take i = cs.reverse.take i := by
              rw [List.reverse_cons, List.take_append_of_le_length (by simpa using hlt.le)]
            simp only [htake]

/-- The loop asks for the specifier and its cuts, from the longest to the shortest. -/
theorem packageOfFrom_eq (specifier : List Char) (stop : ℕ) :
    R.packageOfFrom specifier stop = R.packageOf (String.ofList (specifier.take stop)) := by
  induction stop using Nat.strong_induction_on with
  | _ stop ih =>
      rw [packageOfFrom, packageOf, List.findSome?_cons]
      cases hpkg : R.packages[String.ofList (specifier.take stop)]? with
      | some pkg => simp
      | none =>
          have hcuts := cutsBefore_eq (specifier.take stop).reverse
          simp only [Option.map_none, Text.cuts, String.toList_ofList]
          rw [hcuts]
          split
          · rename_i hi
            rw [hi]
            rfl
          · rename_i i hi
            have hlt := rfindSlash_lt hi
            rw [List.length_reverse, List.length_take] at hlt
            have htake : (specifier.take stop).take i = specifier.take i := by
              rw [List.take_take, Nat.min_eq_left (by omega)]
            rw [ih i (by omega), hi]
            simp [packageOf, Text.cuts, htake]

theorem packageOfLoop_eq (specifier : String) :
    R.packageOfLoop specifier = R.packageOf specifier := by
  rw [packageOfLoop, packageOfFrom_eq, List.take_length, String.ofList_toList]

/-! ### The longest package -/

variable {R} {specifier name : String} {pkg : Package}

theorem mem_candidates : name ∈ specifier :: Text.cuts specifier '/' ↔ Above '/' name specifier := by
  rw [Above, List.mem_cons, Nearest.mem_cuts]

theorem candidates_sorted (specifier : String) :
    (specifier :: Text.cuts specifier '/').Pairwise fun r r' => r'.length ≤ r.length := by
  rw [List.pairwise_cons]
  refine ⟨fun r hr => (Nearest.length_lt_of_mem_cuts hr).le, ?_⟩
  exact (Nearest.cuts_sorted specifier '/').imp Nat.le_of_lt

theorem longest_of_packageOf (h : R.packageOf specifier = some (name, pkg)) :
    R.Longest specifier name pkg := by
  obtain ⟨r, hr, hsome, hlongest⟩ := Nearest.exists_longest (candidates_sorted specifier) h
  obtain ⟨q, hq, heq⟩ := Option.map_eq_some_iff.mp hsome
  cases heq
  refine ⟨hq, mem_candidates.mp hr, ?_⟩
  intro m q' hm habove
  exact hlongest m (mem_candidates.mpr habove) (by rw [hm]; rfl)

/-- The longest package is one. -/
theorem Longest.unique {name' : String} {pkg' : Package} (h : R.Longest specifier name pkg)
    (h' : R.Longest specifier name' pkg') : name = name' ∧ pkg = pkg' := by
  have hlen := Nat.le_antisymm (h'.longest name pkg h.named h.above)
    (h.longest name' pkg' h'.named h'.above)
  have hname := h.above.eq_of_length h'.above hlen
  refine ⟨hname, ?_⟩
  have hpkg := h.named
  rw [hname, h'.named] at hpkg
  exact (Option.some.inj hpkg).symm

theorem packageOf_eq_none : R.packageOf specifier = none
    ↔ ∀ m q, R.packages[m]? = some q → ¬ Above '/' m specifier := by
  rw [packageOf, List.findSome?_eq_none_iff]
  constructor
  · intro h m q hm habove
    have hnone := h m (mem_candidates.mpr habove)
    rw [hm] at hnone
    cases hnone
  · intro h m hm
    cases hq : R.packages[m]? with
    | none => rfl
    | some q => exact absurd (mem_candidates.mp hm) (h m q hq)

theorem packageOf_eq_some : R.packageOf specifier = some (name, pkg)
    ↔ R.Longest specifier name pkg := by
  refine ⟨longest_of_packageOf, fun h => ?_⟩
  cases hfound : R.packageOf specifier with
  | none => exact absurd h.above (packageOf_eq_none.mp hfound name pkg h.named)
  | some np =>
      obtain ⟨hname, hpkg⟩ := (longest_of_packageOf hfound).unique h
      exact congrArg some (Prod.ext hname hpkg)

end SourceModuleResolver

/-! ### Relative specifiers -/

/-- One segment of a path, as POSIX resolves it without links: `..` goes up, or is kept
where there is nothing to leave. -/
def posixStep (segs : List String) (part : String) : List String :=
  if part = "" ∨ part = "." then segs
  else if part = ".." then
    if segs = [] ∨ segs.getLast? = some ".." then segs ++ [".."] else segs.dropLast
  else segs ++ [part]

/-- The segments of the normalised path. -/
def posixSegments (path : String) : List String := (Text.split path "/").foldl posixStep []

def posixNormalize (path : String) : String := Text.join (posixSegments path) "/"

/-- `base/rel`. -/
def below (base rel : String) : String := if base = "" then rel else base ++ "/" ++ rel

/-- A segment that stands for a file or directory of its own. -/
def PlainSegment (seg : String) : Prop := seg ≠ "" ∧ seg ≠ "." ∧ seg ≠ ".."

/-- The segments of a base. -/
def baseSegments (base : String) : List String := if base = "" then [] else Text.split base "/"

theorem normalizeJoin_eq (base rel : String) : normalizeJoin base rel
    = Text.join ((Text.split rel "/").foldl normalizeStep (baseSegments base)) "/" := rfl

/-- The specifier keeps a first part of the base and adds plain segments of its own. -/
theorem foldl_normalizeStep_spec (segs parts : List String) :
    ∃ kept added, parts.foldl normalizeStep segs = kept ++ added ∧ kept <+: segs
      ∧ ∀ seg ∈ added, PlainSegment seg ∧ seg ∈ parts := by
  induction parts using List.reverseRecOn with
  | nil => exact ⟨segs, [], by simp, List.prefix_rfl, by simp⟩
  | append_singleton parts part ih =>
      obtain ⟨kept, added, hfold, hkept, hadded⟩ := ih
      have hmono : ∀ seg ∈ added, PlainSegment seg ∧ seg ∈ parts ++ [part] := fun seg hseg =>
        ⟨(hadded seg hseg).1, List.mem_append_left _ (hadded seg hseg).2⟩
      rw [List.foldl_append, List.foldl_cons, List.foldl_nil, hfold, normalizeStep]
      split
      · exact ⟨kept, added, rfl, hkept, hmono⟩
      · split
        · rcases List.eq_nil_or_concat added with rfl | ⟨init, last, rfl⟩
          · refine ⟨kept.dropLast, [], by simp, ?_, by simp⟩
            exact (List.dropLast_prefix kept).trans hkept
          · refine ⟨kept, init, ?_, hkept, ?_⟩
            · rw [List.concat_eq_append, ← List.append_assoc, List.dropLast_concat]
            · intro seg hseg
              exact hmono seg (by simp [hseg])
        · rename_i hempty hup
          refine ⟨kept, added ++ [part], by simp, hkept, ?_⟩
          intro seg hseg
          rcases List.mem_append.mp hseg with hseg | hseg
          · exact hmono seg hseg
          · rw [List.mem_singleton.mp hseg]
            exact ⟨⟨fun h => hempty (Or.inl h), fun h => hempty (Or.inr h), hup⟩, by simp⟩

/-- What left the tree does not come back. -/
theorem up_mem_foldl {segs : List String} (parts : List String) (h : ".." ∈ segs) :
    ".." ∈ parts.foldl posixStep segs := by
  induction parts generalizing segs with
  | nil => exact h
  | cons part parts ih =>
      refine ih ?_
      rw [posixStep]
      split
      · exact h
      · split
        · split
          · simp
          · rename_i hlast
            rcases List.eq_nil_or_concat segs with rfl | ⟨init, last, rfl⟩
            · cases h
            · rw [List.concat_eq_append] at h hlast ⊢
              rw [List.dropLast_concat]
              rcases List.mem_append.mp h with h | h
              · exact h
              · rw [← List.mem_singleton.mp h] at hlast
                simp at hlast
        · exact List.mem_append_left _ h

/-- Inside the tree the two agree. -/
theorem foldl_normalizeStep {segs : List String} {parts : List String}
    (h : ".." ∉ parts.foldl posixStep segs) :
    parts.foldl normalizeStep segs = parts.foldl posixStep segs := by
  induction parts generalizing segs with
  | nil => rfl
  | cons part parts ih =>
      rw [List.foldl_cons] at h ⊢
      have hstep : normalizeStep segs part = posixStep segs part := by
        unfold posixStep at h ⊢
        unfold normalizeStep
        split
        · rfl
        · split
          · rename_i hempty hup
            rw [if_neg hempty, if_pos hup] at h
            split at h
            · exact absurd (up_mem_foldl parts (by simp)) h
            · rename_i hlast
              rw [if_neg hlast]
          · rfl
      rw [List.foldl_cons, hstep]
      exact ih h

/-! ### Segments of a path -/

theorem notMem_splitAux {c : Char} {cur s : List Char} (hcur : c ∉ cur) :
    ∀ seg ∈ Text.splitAux [c] 0 cur s, c ∉ seg := by
  induction s generalizing cur with
  | nil =>
      intro seg hseg
      rw [Text.splitAux, List.mem_singleton] at hseg
      simpa [hseg] using hcur
  | cons d s ih =>
      intro seg hseg
      by_cases hd : c = d
      · subst hd
        simp only [Text.splitAux, List.isPrefixOf, BEq.rfl, Bool.and_self, if_true,
          List.length_singleton, Nat.sub_self, List.mem_cons] at hseg
        rcases hseg with rfl | hseg
        · simpa using hcur
        · exact ih (by simp) seg hseg
      · simp only [Text.splitAux, List.isPrefixOf, beq_iff_eq, hd, Bool.and_true, if_false] at hseg
        exact ih (by simp [hcur, hd]) seg hseg

theorem slash_notMem_split {path seg : String} (h : seg ∈ Text.split path "/") :
    '/' ∉ seg.toList := by
  obtain ⟨chars, hchars, rfl⟩ := List.mem_map.mp h
  rw [String.toList_ofList]
  exact notMem_splitAux (by simp) chars hchars

theorem split_below {base rel : String} (hbase : base ≠ "") :
    Text.split (below base rel) "/" = Text.split base "/" ++ Text.split rel "/" := by
  rw [below, if_neg hbase, Text.split, Text.split, Text.split, Text.splitChars, Text.splitChars,
    Text.splitChars, ← List.map_append]
  have hsep : "/".toList = ['/'] := rfl
  rw [String.toList_append, String.toList_append, hsep, List.append_assoc, List.singleton_append,
    Nearest.splitAux_append_sep]

theorem mem_foldl_posixStep {segs parts : List String} {seg : String}
    (h : seg ∈ parts.foldl posixStep segs) : seg ∈ segs ∨ seg ∈ parts := by
  induction parts generalizing segs with
  | nil => exact Or.inl h
  | cons part parts ih =>
      rcases ih h with h | h
      · unfold posixStep at h
        split at h
        · exact Or.inl h
        · split at h
          · rename_i hup
            split at h
            · rcases List.mem_append.mp h with h | h
              · exact Or.inl h
              · rw [List.mem_singleton.mp h, hup]
                exact Or.inr List.mem_cons_self
            · exact Or.inl (List.dropLast_subset _ h)
          · rcases List.mem_append.mp h with h | h
            · exact Or.inl h
            · rw [List.mem_singleton.mp h]
              exact Or.inr List.mem_cons_self
      · exact Or.inr (List.mem_cons_of_mem part h)

/-- A normalised base is its segments. -/
theorem posixSegments_of_normal {base : String} (h : posixNormalize base = base) :
    baseSegments base = posixSegments base := by
  unfold baseSegments
  by_cases hempty : base = ""
  · subst hempty
    rfl
  · have hne : posixSegments base ≠ [] := by
      intro hnil
      rw [posixNormalize, hnil] at h
      exact hempty h.symm
    rw [if_neg hempty]
    have hsplit := Text.split_join hne fun seg hseg =>
      slash_notMem_split ((mem_foldl_posixStep hseg).resolve_left (by simp))
    have htext : Text.join (posixSegments base) (String.singleton '/') = base := h
    rwa [htext] at hsplit

/-- The join is the POSIX one, for a normalised base and inside the tree. -/
theorem normalizeJoin_eq_posix {base rel : String} (hbase : posixNormalize base = base)
    (hinside : ".." ∉ posixSegments (below base rel)) :
    normalizeJoin base rel = posixNormalize (below base rel) := by
  rw [normalizeJoin_eq, posixNormalize, posixSegments_of_normal hbase]
  by_cases hempty : base = ""
  · subst hempty
    have hsegs : posixSegments "" = [] := rfl
    have hbelow : below "" rel = rel := rfl
    rw [hbelow] at hinside ⊢
    rw [hsegs, posixSegments, foldl_normalizeStep hinside]
  · have hsegs : posixSegments (below base rel)
        = (Text.split rel "/").foldl posixStep (posixSegments base) := by
      rw [posixSegments, split_below hempty, List.foldl_append]
      rfl
    rw [hsegs] at hinside ⊢
    rw [foldl_normalizeStep hinside]

/-! ### The law -/

namespace SourceModuleResolver

variable {R : SourceModuleResolver}

/-- Neither a Rust path nor a relative specifier. -/
def namesPackage (importingFile specifier : String) : Bool :=
  !(Text.endsWith importingFile ".rs" && !Text.startsWith specifier "."
      && !Text.startsWith specifier "@" && !Text.contains specifier "/")
    && !Text.startsWith specifier "."

theorem resolve_eq {importingFile specifier : String} (h : namesPackage importingFile specifier) :
    R.resolve importingFile specifier = (R.packageOf specifier).bind fun np =>
      if specifier = np.1 then R.entryOf np.2
      else R.probe (joinPath np.2.dir
        (String.ofList (specifier.toList.drop (np.1.length + 1)))) := by
  rw [namesPackage, Bool.and_eq_true, Bool.not_eq_true', Bool.not_eq_true'] at h
  rw [resolve, if_neg (by simp [h.1]), if_neg (by simp [h.2])]

/-- What lies under a package is looked for in its directory. -/
theorem resolve_sub {importingFile name sub : String} {pkg : Package}
    (h : namesPackage importingFile (name ++ "/" ++ sub))
    (hlongest : R.Longest (name ++ "/" ++ sub) name pkg) :
    R.resolve importingFile (name ++ "/" ++ sub) = R.probe (joinPath pkg.dir sub) := by
  have hlist : (name ++ "/" ++ sub).toList = name.toList ++ '/' :: sub.toList := by
    simp [String.toList_append]
  have hne : name ++ "/" ++ sub ≠ name := by
    intro heq
    have hlen := congrArg (fun s : String => s.toList.length) heq
    simp only [hlist, List.length_append, List.length_cons] at hlen
    omega
  have hdrop : (name ++ "/" ++ sub).toList.drop (name.length + 1) = sub.toList := by
    rw [hlist, ← String.length_toList]
    simp
  rw [resolve_eq h, packageOf_eq_some.mpr hlongest, Option.bind_some, if_neg hne, hdrop,
    String.ofList_toList]

/-- What a specifier that is no Rust path is resolved to. -/
structure SpecifierLaw (R : SourceModuleResolver) : Prop where
  loop : ∀ specifier, R.packageOfLoop specifier = R.packageOf specifier
  longest : ∀ specifier name pkg, R.packageOfLoop specifier = some (name, pkg)
    ↔ R.Longest specifier name pkg
  absent : ∀ specifier, R.packageOfLoop specifier = none
    ↔ ∀ name pkg, R.packages[name]? = some pkg → ¬ Above '/' name specifier
  binds : ∀ importingFile name sub pkg, namesPackage importingFile (name ++ "/" ++ sub) →
    R.Longest (name ++ "/" ++ sub) name pkg →
    R.resolve importingFile (name ++ "/" ++ sub) = R.probe (joinPath pkg.dir sub)
  introduces : ∀ base rel, ∃ kept added,
    normalizeJoin base rel = Text.join (kept ++ added) "/" ∧ kept <+: baseSegments base
      ∧ ∀ seg ∈ added, PlainSegment seg ∧ seg ∈ Text.split rel "/"
  posix : ∀ base rel, posixNormalize base = base → ".." ∉ posixSegments (below base rel) →
    normalizeJoin base rel = posixNormalize (below base rel)

/-- **The package is the longest match**, and a relative specifier is applied to the directory
as POSIX does where the directory is normalised. -/
theorem specifier_law (R : SourceModuleResolver) : R.SpecifierLaw where
  loop := R.packageOfLoop_eq
  longest specifier name pkg := by
    rw [packageOfLoop_eq]
    exact packageOf_eq_some
  absent specifier := by
    rw [packageOfLoop_eq]
    exact packageOf_eq_none
  binds importingFile name sub pkg h hlongest := resolve_sub h hlongest
  introduces base rel := by
    obtain ⟨kept, added, hfold, hkept, hadded⟩ :=
      foldl_normalizeStep_spec (baseSegments base) (Text.split rel "/")
    exact ⟨kept, added, by rw [normalizeJoin_eq, hfold], hkept, hadded⟩
  posix base rel hbase hinside := normalizeJoin_eq_posix hbase hinside

end SourceModuleResolver

/-- A base that is not normalised stays so. -/
theorem normalizeJoin_ne_posix : ¬ ∀ base rel, ".." ∉ posixSegments (below base rel) →
    normalizeJoin base rel = posixNormalize (below base rel) := by
  intro h
  exact absurd (h "a/./b" "./x" (by decide +kernel)) (by decide +kernel)

end Filigrio
