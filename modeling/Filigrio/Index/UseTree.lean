import Filigrio.Index.Driver
import Filigrio.Lib.SplitOnce

/-!
# Filigrio.Index.UseTree

What the Rust extractor makes of a `use` declaration: its argument is taken apart into the
entries it binds, and these become entries of the export table and `imports` edges.

The entries are what the declaration means, path by path and name by name, but for two forms
in a group: a `*` of its own, which is passed over, and `self`, which is taken for the name of
something in the module (`use_tree_iff`).
-/

namespace Filigrio.Index

/-! ### Taking the argument apart -/

/-- One decomposed entry of a `use` declaration. -/
inductive ParsedImport
  | named (specifier : Option String) (imported : String) («alias» : Option String)
  /-- A glob: no name is bound. -/
  | wildcard (specifier : String)
  deriving DecidableEq, Repr

/-- The argument of a `use` declaration as the grammar gives it: the kinds of its nodes, with
the texts and fields that are read. A list that is missing reads as one without items. -/
inductive UseNode
  /-- `identifier`, `type_identifier` or `scoped_identifier`. -/
  | path (text : String)
  | asClause (path «alias» : Option String)
  | wildcard (text : String)
  | scopedList (path : Option String) (items : List UseNode)
  | list (items : List UseNode)
  /-- Every other kind: a keyword that stands alone, a comment. -/
  | other (text : String)

/-- Split `a::b::c` into the module `a::b` and the name `c`. -/
def splitUse (full : String) («alias» : Option String) : ParsedImport :=
  match Text.rsplitOnce (Text.trim full) "::" with
  | some (spec, name) => .named (some (Text.trim spec)) (Text.trim name) «alias»
  | none => .named none (Text.trim full) «alias»

/-- Prefix an entry's module with the path of an enclosing list. -/
def ParsedImport.prepend (u : ParsedImport) (pre : Option String) : ParsedImport :=
  match pre with
  | none => u
  | some pre =>
      match u with
      | .named none imported «alias» => .named (some pre) imported «alias»
      | .named (some s) imported «alias» => .named (some (pre ++ "::" ++ s)) imported «alias»
      | .wildcard s => .wildcard (pre ++ "::" ++ s)

/-- The last segment of any other node's text. -/
def lastPathSegment (text : String) : Option String :=
  let last := Text.trim (match Text.rsplitOnce text "::" with
    | some (_, name) => name
    | none => text)
  if last = "" then none else some last

/-- The module of `a::b::*`. -/
def wildcardModule (text : String) : String :=
  Text.trim (Text.trimEndMatches
    (String.ofList (Text.trimEndChars (· = '*') text.toList)) "::")

mutual

/-- The entries that a `use` argument binds. -/
def imports : UseNode → List ParsedImport
  | .path text => [splitUse text none]
  | .asClause path «alias» =>
      match path with
      | some full => [splitUse full «alias»]
      | none => []
  | .wildcard text =>
      if wildcardModule text = "" then [] else [.wildcard (wildcardModule text)]
  | .scopedList path items => (importsAll items).map fun u => u.prepend path
  | .list items => importsAll items
  | .other text =>
      match lastPathSegment text with
      | some imported => [.named none imported none]
      | none => []

def importsAll : List UseNode → List ParsedImport
  | [] => []
  | item :: items => imports item ++ importsAll items

end

/-! ### What becomes of the entries -/

namespace ParsedImport

/-- The name that an entry binds. -/
def bound (imported : String) («alias» : Option String) : String := «alias».getD imported

/-- The export table entry of a `pub use`. -/
def exported : ParsedImport → Export
  | .named (some spec) imported «alias» => .reExport (bound imported «alias») spec imported
  | .named none imported «alias» => .local (bound imported «alias»)
  | .wildcard specifier => .star specifier

/-- The hints that an import carries. -/
def hints (specifier : Option String) (imported : String) («alias» : Option String) :
    BTreeMap String String :=
  BTreeMap.insertAll ∅ ((specifier.map fun spec => ("specifier", spec)).toList
    ++ («alias».map fun _ => ("imported", imported)).toList)

/-- The `imports` edge that brings a name into the file; a glob has none. -/
def edge (fileId : NodeId) : ParsedImport → Option Edge
  | .named specifier imported «alias» =>
      some
        { source := fileId
          relation := Filigrio.imports
          confidence := .extracted
          target := .symbol ⟨bound imported «alias», hints specifier imported «alias»⟩ }
  | .wildcard _ => none

end ParsedImport

namespace Driver

def emitUse (isPub : Bool) (d : Driver) (u : ParsedImport) : Driver :=
  { d with
    exports := d.exports ++ if isPub then [u.exported] else []
    edges := d.edges ++ (u.edge d.fileId).toList }

/-- The facts of one `use` declaration. -/
def useDeclaration (d : Driver) (arg : UseNode) (isPub : Bool) : Driver :=
  (imports arg).foldl (emitUse isPub) d

end Driver

/-! ### What a declaration means -/

/-- A segment of a path. -/
structure UseSeg where
  text : String
  ne_empty : text ≠ ""
  plain : ∀ c ∈ text.toList, c ≠ ':' ∧ c ≠ '*' ∧ Text.isWhite c = false

def segTexts (segs : List UseSeg) : List String := segs.map UseSeg.text

/-- A `use` tree. -/
inductive UseTree
  | path (init : List UseSeg) (last : UseSeg)
  | renamed (init : List UseSeg) (last name : UseSeg)
  | glob (segs : List UseSeg)
  | group (segs : List UseSeg) (items : List UseTree)

/-- One thing that a declaration brings in: a path under a name, or all of a module. -/
inductive UseBinding
  | name (path : List String) (bound : String)
  | glob (path : List String)
  deriving DecidableEq

/-- `self` on its own, within the path of an enclosing group. -/
def IsSelf (pre : List String) (init : List UseSeg) (last : UseSeg) : Prop :=
  pre ≠ [] ∧ init = [] ∧ last.text = "self"

instance decidableIsSelf (pre : List String) (init : List UseSeg) (last : UseSeg) :
    Decidable (IsSelf pre init last) := inferInstanceAs (Decidable (_ ∧ _ ∧ _))

mutual

/-- **What a tree brings in**, within the path of the enclosing groups: `self` is the module
that this path leads to. -/
def UseTree.bindings (pre : List String) : UseTree → List UseBinding
  | .path init last =>
      if IsSelf pre init last then [.name pre (pre.getLast?.getD "")]
      else [.name (pre ++ segTexts init ++ [last.text]) last.text]
  | .renamed init last name =>
      if IsSelf pre init last then [.name pre name.text]
      else [.name (pre ++ segTexts init ++ [last.text]) name.text]
  | .glob segs => [.glob (pre ++ segTexts segs)]
  | .group segs items => UseTree.bindingsAll (pre ++ segTexts segs) items

def UseTree.bindingsAll (pre : List String) : List UseTree → List UseBinding
  | [] => []
  | item :: items => item.bindings pre ++ UseTree.bindingsAll pre items

end

mutual

/-- The tree as the grammar gives it. -/
def UseTree.toNode : UseTree → UseNode
  | .path init last =>
      if init = [] ∧ last.text ∈ ["self", "super", "crate"] then .other last.text
      else .path (Text.join (segTexts (init ++ [last])) "::")
  | .renamed init last name =>
      .asClause (some (Text.join (segTexts (init ++ [last])) "::")) (some name.text)
  | .glob segs => .wildcard (if segs = [] then "*" else Text.join (segTexts segs) "::" ++ "::" ++ "*")
  | .group segs items =>
      if segs = [] then .list (UseTree.toNodes items)
      else .scopedList (some (Text.join (segTexts segs) "::")) (UseTree.toNodes items)

def UseTree.toNodes : List UseTree → List UseNode
  | [] => []
  | item :: items => item.toNode :: UseTree.toNodes items

end

mutual

/-- **The trees that are read as they are meant**: no `*` of its own, and no `self`. -/
def UseTree.ReadAsMeant (pre : List String) : UseTree → Prop
  | .path init last => ¬ IsSelf pre init last
  | .renamed init last _ => ¬ IsSelf pre init last
  | .glob segs => segs ≠ []
  | .group segs items => UseTree.AllReadAsMeant (pre ++ segTexts segs) items

def UseTree.AllReadAsMeant (pre : List String) : List UseTree → Prop
  | [] => True
  | item :: items => item.ReadAsMeant pre ∧ UseTree.AllReadAsMeant pre items

end

/-- The binding that an entry stands for. -/
def ParsedImport.asBinding : ParsedImport → UseBinding
  | .named specifier imported «alias» =>
      .name (((specifier.map fun spec => Text.split spec "::").getD []) ++ [imported])
        (bound imported «alias»)
  | .wildcard specifier => .glob (Text.split specifier "::")

/-- The binding that an `imports` edge stands for. -/
def edgeSays (e : Edge) : Option UseBinding :=
  match e.target with
  | .symbol r =>
      some (.name (((r.hints["specifier"]?.map fun spec => Text.split spec "::").getD [])
        ++ [r.hints["imported"]?.getD r.name]) r.name)
  | .node _ => none

/-- The binding that an entry of the export table stands for. -/
def exportSays : Export → UseBinding
  | .local name => .name [name] name
  | .reExport name specifier imported => .name (Text.split specifier "::" ++ [imported]) name
  | .star specifier => .glob (Text.split specifier "::")

/-! ### The texts -/

theorem join_singleton (s sep : String) : Text.join [s] sep = s := by
  rw [Text.join, String.intercalate_singleton]

theorem noColon (seg : UseSeg) : ':' ∉ seg.text.toList := fun h => (seg.plain _ h).1 rfl

theorem trim_seg (seg : UseSeg) : Text.trim seg.text = seg.text :=
  Text.trim_of_notWhite fun c hc => (seg.plain c hc).2.2

theorem chars_join {segs : List UseSeg} {c : Char} (h : c ∈ (Text.join (segTexts segs) "::").toList) :
    c = ':' ∨ c ≠ '*' ∧ Text.isWhite c = false := by
  rcases Text.mem_join h with h | ⟨s, hs, hc⟩
  · exact Or.inl (by simpa using h)
  · obtain ⟨seg, -, rfl⟩ := List.mem_map.mp hs
    exact Or.inr (seg.plain c hc).2

theorem trim_join (segs : List UseSeg) :
    Text.trim (Text.join (segTexts segs) "::") = Text.join (segTexts segs) "::" := by
  refine Text.trim_of_notWhite fun c hc => ?_
  rcases chars_join hc with rfl | h
  · decide
  · exact h.2

theorem join_ne_empty {segs : List UseSeg} (h : segs ≠ []) : Text.join (segTexts segs) "::" ≠ "" := by
  obtain ⟨init, last, rfl⟩ := (List.eq_nil_or_concat' segs).resolve_left h
  intro hempty
  have hlast : last.text.toList = [] := by
    cases init with
    | nil => rw [← join_singleton last.text "::"]; exact congrArg String.toList hempty
    | cons seg init =>
        have hjoin := congrArg String.toList hempty
        rw [segTexts, List.map_append, List.map_singleton, Text.join_concat (by simp),
          String.toList_append] at hjoin
        exact (List.append_eq_nil_iff.mp hjoin).2
  exact last.ne_empty (String.toList_injective hlast)

theorem splitUse_path (init : List UseSeg) (last : UseSeg) («alias» : Option String) :
    splitUse (Text.join (segTexts (init ++ [last])) "::") «alias»
      = .named (if init = [] then none else some (Text.join (segTexts init) "::"))
        last.text «alias» := by
  rw [splitUse, trim_join]
  have hsep : "::".toList = List.replicate (1 + 1) ':' := by decide
  cases init with
  | nil =>
      rw [List.nil_append, segTexts, List.map_singleton, join_singleton,
        Text.rsplitOnce_of_notMem hsep (noColon last)]
      rfl
  | cons seg init =>
      rw [segTexts, List.map_append, List.map_singleton, Text.join_concat (by simp),
        Text.rsplitOnce_append hsep _ (noColon last)]
      simp only [reduceCtorEq, if_false, trim_seg]
      rw [← segTexts, trim_join]

theorem lastPathSegment_seg (seg : UseSeg) : lastPathSegment seg.text = some seg.text := by
  have hsep : "::".toList = List.replicate (1 + 1) ':' := by decide
  rw [lastPathSegment, Text.rsplitOnce_of_notMem hsep (noColon seg)]
  simp only [trim_seg, if_neg seg.ne_empty]

theorem wildcardModule_star : wildcardModule "*" = "" := by decide +kernel

theorem wildcardModule_glob {segs : List UseSeg} (h : segs ≠ []) :
    wildcardModule (Text.join (segTexts segs) "::" ++ "::" ++ "*")
      = Text.join (segTexts segs) "::" := by
  have hstar : String.ofList (Text.trimEndChars (· = '*')
      (Text.join (segTexts segs) "::" ++ "::" ++ "*").toList)
      = Text.join (segTexts segs) "::" ++ "::" := by
    have hlist : (Text.join (segTexts segs) "::" ++ "::" ++ "*").toList.reverse
        = '*' :: ':' :: ':' :: (Text.join (segTexts segs) "::").toList.reverse := by
      simp
    rw [Text.trimEndChars, hlist, List.dropWhile_cons_of_pos (by decide),
      List.dropWhile_cons_of_neg (by decide)]
    refine String.toList_injective ?_
    simp
  have hends : Text.endsWith (Text.join (segTexts segs) "::") "::" = false := by
    obtain ⟨init, last, rfl⟩ := (List.eq_nil_or_concat' segs).resolve_left h
    have hnot : ∀ s : String, Text.endsWith (s ++ last.text) "::" = false := by
      intro s
      obtain ⟨cs, c, hc⟩ := (List.eq_nil_or_concat' last.text.toList).resolve_left
        fun hnil => last.ne_empty (String.toList_injective hnil)
      have hne : c ≠ ':' := (last.plain c (by rw [hc]; simp)).1
      rw [Text.endsWith, String.toList_append, hc]
      simp [List.isPrefixOf, hne.symm]
    cases init with
    | nil =>
        rw [List.nil_append, segTexts, List.map_singleton, join_singleton]
        simpa using hnot ""
    | cons seg init =>
        rw [segTexts, List.map_append, List.map_singleton, Text.join_concat (by simp)]
        exact hnot _
  rw [wildcardModule, hstar, Text.trimEndMatches_append (by decide) hends, trim_join]

/-! ### The entries -/

/-- An entry by the segments of its module. -/
inductive UseEntry
  | named (spec : List UseSeg) (imported : UseSeg) («alias» : Option String)
  | wildcard (segs : List UseSeg)

namespace UseEntry

def render : UseEntry → ParsedImport
  | .named spec imported «alias» =>
      .named (if spec = [] then none else some (Text.join (segTexts spec) "::")) imported.text «alias»
  | .wildcard segs => .wildcard (Text.join (segTexts segs) "::")

def within (pre : List UseSeg) : UseEntry → UseEntry
  | .named spec imported «alias» => .named (pre ++ spec) imported «alias»
  | .wildcard segs => .wildcard (pre ++ segs)

def binding : UseEntry → UseBinding
  | .named spec imported «alias» =>
      .name (segTexts spec ++ [imported.text]) («alias».getD imported.text)
  | .wildcard segs => .glob (segTexts segs)

/-- A glob is one of a module. -/
def Proper : UseEntry → Prop
  | .named _ _ _ => True
  | .wildcard segs => segs ≠ []

theorem render_within {pre : List UseSeg} (h : pre ≠ []) (e : UseEntry) (he : e.Proper) :
    (e.within pre).render = e.render.prepend (some (Text.join (segTexts pre) "::")) := by
  have hpre : segTexts pre ≠ [] := fun hnil => h (List.map_eq_nil_iff.mp hnil)
  have happend : ∀ segs : List UseSeg, segs ≠ [] → Text.join (segTexts (pre ++ segs)) "::"
      = Text.join (segTexts pre) "::" ++ "::" ++ Text.join (segTexts segs) "::" := by
    intro segs hsegs
    rw [segTexts, List.map_append]
    exact Text.join_append hpre (fun hnil => hsegs (List.map_eq_nil_iff.mp hnil)) _
  cases e with
  | named spec imported «alias» =>
      by_cases hspec : spec = []
      · subst hspec
        simp [within, render, ParsedImport.prepend, h]
      · have hne : pre ++ spec ≠ [] := by simp [h]
        simp only [within, render, if_neg hspec, if_neg hne, ParsedImport.prepend, happend spec hspec]
  | wildcard segs =>
      simp only [within, render, ParsedImport.prepend, happend segs he]

theorem split_spec {segs : List UseSeg} (h : segs ≠ []) :
    Text.split (Text.join (segTexts segs) "::") "::" = segTexts segs := by
  have hsep : "::".toList = ':' :: [':'] := rfl
  refine Text.split_join_of hsep
    (fun hnil => h (List.map_eq_nil_iff.mp hnil)) fun s hs => ?_
  obtain ⟨seg, -, rfl⟩ := List.mem_map.mp hs
  exact noColon seg

theorem asBinding_render {e : UseEntry} (he : e.Proper) : e.render.asBinding = e.binding := by
  cases e with
  | named spec imported «alias» =>
      by_cases hspec : spec = []
      · subst hspec
        rfl
      · simp only [render, if_neg hspec, ParsedImport.asBinding, Option.map_some, Option.getD_some,
          split_spec hspec]
        rfl
  | wildcard segs => simp only [render, ParsedImport.asBinding, split_spec he, binding]

end UseEntry

mutual

/-- The entries of a tree. -/
def UseTree.entries : UseTree → List UseEntry
  | .path init last => [.named init last none]
  | .renamed init last name => [.named init last (some name.text)]
  | .glob segs => if segs = [] then [] else [.wildcard segs]
  | .group segs items => (UseTree.entriesAll items).map (UseEntry.within segs)

def UseTree.entriesAll : List UseTree → List UseEntry
  | [] => []
  | item :: items => item.entries ++ UseTree.entriesAll items

end

mutual

theorem UseTree.proper_entries : ∀ (t : UseTree), ∀ e ∈ t.entries, e.Proper
  | .path init last, e, he | .renamed init last _, e, he => by
      rw [UseTree.entries, List.mem_singleton] at he
      rw [he]
      trivial
  | .glob segs, e, he => by
      rw [UseTree.entries] at he
      split at he
      · cases he
      · rename_i h
        rw [List.mem_singleton.mp he]
        exact h
  | .group segs items, e, he => by
      rw [UseTree.entries, List.mem_map] at he
      obtain ⟨e', he', rfl⟩ := he
      have hproper := UseTree.proper_entriesAll items e' he'
      cases e' with
      | named spec imported «alias» => trivial
      | wildcard segs' => exact List.append_ne_nil_of_right_ne_nil segs hproper

theorem UseTree.proper_entriesAll : ∀ (ts : List UseTree), ∀ e ∈ UseTree.entriesAll ts, e.Proper
  | [], e, he => by cases he
  | t :: ts, e, he => by
      rw [UseTree.entriesAll, List.mem_append] at he
      rcases he with he | he
      · exact UseTree.proper_entries t e he
      · exact UseTree.proper_entriesAll ts e he

end

mutual

/-- What is taken apart is the tree. -/
theorem imports_toNode : ∀ t : UseTree, imports t.toNode = t.entries.map UseEntry.render
  | .path init last => by
      rw [UseTree.toNode, UseTree.entries, List.map_singleton, UseEntry.render]
      split
      · rename_i h
        rw [imports, lastPathSegment_seg, h.1, if_pos rfl]
      · rw [imports, splitUse_path]
  | .renamed init last name => by
      rw [UseTree.toNode, UseTree.entries, List.map_singleton, UseEntry.render, imports]
      exact congrArg (fun u => [u]) (splitUse_path init last (some name.text))
  | .glob segs => by
      rw [UseTree.toNode, UseTree.entries, imports]
      by_cases h : segs = []
      · rw [if_pos h, if_pos h, wildcardModule_star, if_pos rfl, List.map_nil]
      · rw [if_neg h, if_neg h, wildcardModule_glob h, if_neg (join_ne_empty h), List.map_singleton,
          UseEntry.render]
  | .group segs items => by
      rw [UseTree.toNode, UseTree.entries, List.map_map]
      by_cases h : segs = []
      · rw [if_pos h, imports, importsAll_toNodes items]
        refine List.map_congr_left fun e _ => ?_
        rw [h, Function.comp_apply]
        cases e <;> rfl
      · rw [if_neg h, imports, importsAll_toNodes items, List.map_map]
        refine List.map_congr_left fun e he => ?_
        rw [Function.comp_apply, Function.comp_apply,
          UseEntry.render_within h e (UseTree.proper_entriesAll items e he)]

theorem importsAll_toNodes : ∀ ts : List UseTree,
    importsAll (UseTree.toNodes ts) = (UseTree.entriesAll ts).map UseEntry.render
  | [] => by rw [UseTree.toNodes, UseTree.entriesAll, importsAll, List.map_nil]
  | t :: ts => by
      rw [UseTree.toNodes, UseTree.entriesAll, importsAll, List.map_append, imports_toNode t,
        importsAll_toNodes ts]

end

/-! ### The entries against the meaning -/

theorem within_within (pre segs : List UseSeg) (e : UseEntry) :
    (e.within segs).within pre = e.within (pre ++ segs) := by
  cases e <;> simp only [UseEntry.within, List.append_assoc]

theorem within_nil (e : UseEntry) : e.within [] = e := by cases e <;> rfl

mutual

/-- No tree has more entries than it brings in. -/
theorem length_entries : ∀ (t : UseTree) (pre : List String), t.entries.length ≤ (t.bindings pre).length
  | .path init last, pre => by rw [UseTree.entries, UseTree.bindings]; split <;> simp
  | .renamed init last name, pre => by rw [UseTree.entries, UseTree.bindings]; split <;> simp
  | .glob segs, pre => by rw [UseTree.entries, UseTree.bindings]; split <;> simp
  | .group segs items, pre => by
      rw [UseTree.entries, UseTree.bindings, List.length_map]
      exact length_entriesAll items _

theorem length_entriesAll : ∀ (ts : List UseTree) (pre : List String),
    (UseTree.entriesAll ts).length ≤ (UseTree.bindingsAll pre ts).length
  | [], _ => le_rfl
  | t :: ts, pre => by
      rw [UseTree.entriesAll, UseTree.bindingsAll, List.length_append, List.length_append]
      exact Nat.add_le_add (length_entries t pre) (length_entriesAll ts pre)

end

/-- An entry of a path is the path's, unless it is `self`. -/
theorem path_binding_iff (pre init : List UseSeg) (last : UseSeg) (x y : String) :
    [UseBinding.name (segTexts (pre ++ init) ++ [last.text]) x]
        = (if IsSelf (segTexts pre) init last then [.name (segTexts pre) y]
          else [.name (segTexts pre ++ segTexts init ++ [last.text]) x])
      ↔ ¬ IsSelf (segTexts pre) init last := by
  have happend : segTexts (pre ++ init) = segTexts pre ++ segTexts init := List.map_append
  by_cases h : IsSelf (segTexts pre) init last
  · rw [if_pos h]
    refine iff_of_false (fun heq => ?_) (not_not_intro h)
    rw [h.2.1, List.append_nil] at heq
    have hpath := (UseBinding.name.inj (List.cons.inj heq).1).1
    have hlen := congrArg List.length hpath
    simp at hlen
  · rw [if_neg h, happend]
    exact iff_of_true rfl h

mutual

theorem entries_iff : ∀ (t : UseTree) (pre : List UseSeg),
    (t.entries.map fun e => (e.within pre).binding) = t.bindings (segTexts pre)
      ↔ t.ReadAsMeant (segTexts pre)
  | .path init last, pre => by
      rw [UseTree.entries, UseTree.bindings, UseTree.ReadAsMeant]
      exact path_binding_iff pre init last last.text _
  | .renamed init last name, pre => by
      rw [UseTree.entries, UseTree.bindings, UseTree.ReadAsMeant]
      exact path_binding_iff pre init last name.text name.text
  | .glob segs, pre => by
      rw [UseTree.entries, UseTree.bindings, UseTree.ReadAsMeant]
      by_cases h : segs = []
      · rw [if_pos h]
        exact iff_of_false (by simp) (not_not_intro h)
      · rw [if_neg h]
        refine iff_of_true ?_ h
        rw [List.map_singleton, UseEntry.within, UseEntry.binding, segTexts, List.map_append]
        rfl
  | .group segs items, pre => by
      rw [UseTree.entries, UseTree.bindings, UseTree.ReadAsMeant, List.map_map]
      have happend : segTexts pre ++ segTexts segs = segTexts (pre ++ segs) := List.map_append.symm
      have hwithin : ((fun e => (e.within pre).binding) ∘ UseEntry.within segs)
          = fun e => (e.within (pre ++ segs)).binding := by
        funext e
        rw [Function.comp_apply, within_within]
      rw [happend, hwithin]
      exact entriesAll_iff items (pre ++ segs)

/-- The entries of one item do not stand in for those of another. -/
theorem entriesAll_iff : ∀ (ts : List UseTree) (pre : List UseSeg),
    ((UseTree.entriesAll ts).map fun e => (e.within pre).binding)
        = UseTree.bindingsAll (segTexts pre) ts
      ↔ UseTree.AllReadAsMeant (segTexts pre) ts
  | [], _ => by
      rw [UseTree.entriesAll, UseTree.bindingsAll, UseTree.AllReadAsMeant]
      exact iff_of_true rfl trivial
  | t :: ts, pre => by
      rw [UseTree.entriesAll, UseTree.bindingsAll, UseTree.AllReadAsMeant, List.map_append,
        ← entries_iff t pre, ← entriesAll_iff ts pre]
      constructor
      · intro h
        have htotal := congrArg List.length h
        have hhead := length_entries t (segTexts pre)
        have htail := length_entriesAll ts (segTexts pre)
        simp only [List.length_append, List.length_map] at htotal
        exact List.append_inj h (by rw [List.length_map]; omega)
      · intro h
        rw [h.1, h.2]

end

/-! ### The facts of a declaration -/

theorem foldl_emitUse (isPub : Bool) (d : Driver) (us : List ParsedImport) :
    us.foldl (Driver.emitUse isPub) d
      = { d with
          exports := d.exports ++ if isPub then us.map ParsedImport.exported else []
          edges := d.edges ++ us.filterMap (ParsedImport.edge d.fileId) } := by
  induction us generalizing d with
  | nil => cases isPub <;> simp
  | cons u us ih =>
      rw [List.foldl_cons, ih, Driver.emitUse]
      cases isPub <;> cases hedge : u.edge d.fileId <;>
        simp [hedge, List.append_assoc]

theorem get_hints (specifier : Option String) (imported : String) («alias» : Option String) :
    (ParsedImport.hints specifier imported «alias»)["specifier"]? = specifier
    ∧ (ParsedImport.hints specifier imported «alias»)["imported"]?
      = «alias».map fun _ => imported := by
  cases specifier <;> cases «alias» <;> refine ⟨?_, ?_⟩ <;>
    simp only [ParsedImport.hints, Option.map_none, Option.map_some, Option.toList_none,
      Option.toList_some, List.nil_append, List.append_nil, List.cons_append, BTreeMap.insertAll,
      List.foldl_nil, List.foldl_cons, BTreeMap.get_insert, String.reduceEq, if_true, if_false,
      Std.ExtTreeMap.getElem?_empty]

/-- An edge says what its entry says. -/
theorem edgeSays_edge {fileId : NodeId} {u : ParsedImport} {e : Edge} (h : u.edge fileId = some e) :
    edgeSays e = some u.asBinding := by
  cases u with
  | wildcard s => cases h
  | named specifier imported «alias» =>
      cases h
      obtain ⟨hspecifier, himported⟩ := get_hints specifier imported «alias»
      rw [edgeSays]
      simp only [hspecifier, himported, ParsedImport.asBinding]
      cases «alias» <;> rfl

/-- So does an export, but for a local name that is renamed. -/
theorem exportSays_exported (u : ParsedImport) : exportSays u.exported = u.asBinding
    ↔ ∀ imported «alias», u = .named none imported (some «alias») → «alias» = imported := by
  cases u with
  | wildcard s => exact iff_of_true rfl fun _ _ h => by cases h
  | named specifier imported «alias» =>
      cases specifier with
      | some spec => exact iff_of_true rfl fun _ _ h => by cases h
      | none =>
          cases «alias» with
          | none => exact iff_of_true rfl fun _ _ h => by cases h
          | some name =>
              have hread : exportSays (ParsedImport.named none imported (some name)).exported
                  = .name [name] name := rfl
              have hmeans : (ParsedImport.named none imported (some name)).asBinding
                  = .name [imported] name := rfl
              rw [hread, hmeans]
              constructor
              · intro h imported' alias' heq
                cases heq
                exact (List.cons.inj (UseBinding.name.inj h).1).1
              · intro h
                rw [h imported name rfl]

/-- Whether a name is brought in. -/
def UseBinding.isName : UseBinding → Bool
  | .name _ _ => true
  | .glob _ => false

theorem edges_say (fileId : NodeId) (us : List ParsedImport) :
    (us.filterMap (ParsedImport.edge fileId)).map edgeSays
      = ((us.map ParsedImport.asBinding).filter UseBinding.isName).map some := by
  induction us with
  | nil => rfl
  | cons u us ih =>
      rw [List.map_cons, List.filter_cons]
      cases hedge : u.edge fileId with
      | none =>
          cases u with
          | named _ _ _ => cases hedge
          | wildcard s =>
              rw [List.filterMap_cons_none hedge, ih]
              rfl
      | some e =>
          rw [List.filterMap_cons_some hedge, List.map_cons, ih, edgeSays_edge hedge]
          cases u with
          | named _ _ _ => rfl
          | wildcard s => cases hedge

/-- **A `use` declaration brings in what it means** exactly when no group has a `*` of its own
or `self`. What is brought in is what its edges say and, of a `pub use`, its exports, but for
a name without a module that is renamed. -/
theorem use_tree_iff (t : UseTree) (d : Driver) (isPub : Bool) :
    ((imports t.toNode).map ParsedImport.asBinding = t.bindings [] ↔ t.ReadAsMeant [])
    ∧ ∃ edges exports,
        d.useDeclaration t.toNode isPub
          = { d with edges := d.edges ++ edges, exports := d.exports ++ exports }
        ∧ edges.map edgeSays
          = (((imports t.toNode).map ParsedImport.asBinding).filter UseBinding.isName).map some
        ∧ (isPub = false → exports = [])
        ∧ (isPub = true → (exports.map exportSays = (imports t.toNode).map ParsedImport.asBinding
          ↔ ∀ imported «alias», .named none imported (some «alias») ∈ imports t.toNode →
              «alias» = imported)) := by
  refine ⟨?_, (imports t.toNode).filterMap (ParsedImport.edge d.fileId),
    if isPub then (imports t.toNode).map ParsedImport.exported else [], ?_, edges_say _ _,
    fun h => ?_, fun h => ?_⟩
  · have hread : (imports t.toNode).map ParsedImport.asBinding
        = t.entries.map fun e => (e.within []).binding := by
      rw [imports_toNode, List.map_map]
      refine List.map_congr_left fun e he => ?_
      rw [Function.comp_apply, UseEntry.asBinding_render (t.proper_entries e he), within_nil]
    rw [hread]
    exact entries_iff t []
  · exact foldl_emitUse isPub d _
  · rw [h]
    rfl
  · rw [if_pos h, List.map_map, List.map_inj_left]
    constructor
    · intro hall imported name hmem
      exact (exportSays_exported _).mp (hall _ hmem) imported name rfl
    · intro hall u hu
      refine (exportSays_exported u).mpr fun imported name heq => ?_
      exact hall imported name (heq ▸ hu)

end Filigrio.Index
