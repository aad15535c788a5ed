import Filigrio.Ledger.Step
import Filigrio.Ledger.Sample

/-!
# Filigrio.Ledger.Run

Runs of the engine: from the empty state, one apply after another, each delta
merged onto the state it was computed against. `Reach` carries the source of the
last apply along, since the linked edges of a state are those of that source.
-/

namespace Filigrio

variable {C : Type}

/-- The arguments of one apply. -/
structure ApplyStep (C : Type) where
  changes : ChangeSet
  source : Source C
  scope : LinkScope
  timing : ClusterTiming

/-- One apply of a run. -/
def ApplyStep.run (st : Stages C) (ex : Extractor C) (s : GraphState) (a : ApplyStep C) :
    Except Error GraphDelta :=
  Engine.applyWith st s a.changes a.source ex a.scope a.timing

/-- The states a project passes through when every apply meets `P`. -/
inductive Reach (st : Stages C) (ex : Extractor C) (P : Source C → GraphState → ApplyStep C → Prop) :
    Source C → GraphState → Prop
  | empty (source : Source C) : Reach st ex P source GraphState.empty
  | apply {source : Source C} {s : GraphState} {a : ApplyStep C} {δ : GraphDelta} :
      Reach st ex P source s → P source s a → a.run st ex s = .ok δ →
      Reach st ex P a.source (merge s δ)

/-- No condition on the applies of a run. -/
def anyApply (_ : Source C) (_ : GraphState) (_ : ApplyStep C) : Prop := True

/-- Every apply of a run links globally. -/
def globalApply (_ : Source C) (_ : GraphState) (a : ApplyStep C) : Prop := a.scope = .global

variable {st : Stages C} {ex : Extractor C} {P : Source C → GraphState → ApplyStep C → Prop}
  {source : Source C} {s : GraphState}

theorem Reach.mono {Q : Source C → GraphState → ApplyStep C → Prop}
    (hPQ : ∀ source s a, P source s a → Q source s a) (h : Reach st ex P source s) :
    Reach st ex Q source s := by
  induction h with
  | empty source => exact .empty source
  | apply _ hP hrun ih => exact .apply ih (hPQ _ _ _ hP) hrun

namespace Ledger

/-- In every reachable state the nodes are those of a ledger and the overlay of
the workspace. -/
theorem exists_listed (hex : ex.PerFile) (hno : ex.NoOverlay) (h : Reach st ex P source s) :
    ∃ L, Listed ex L s := by
  induction h with
  | empty source => exact ⟨[], listed_empty ex⟩
  | apply _ _ hrun ih =>
      obtain ⟨L, hs⟩ := ih
      obtain ⟨fx, partition, hfx, rfl⟩ := applyWith_ok hrun
      obtain ⟨files, hf⟩ := frontExtract_ok hfx
      exact ⟨_, listed_step hf hex hs hno _ partition⟩

end Ledger

/-- In every reachable state the reverse index is canonical. -/
theorem exists_reverse_index (h : Reach st ex P source s) :
    ∃ l, s.reverse.refs = BTreeMap.index l := by
  induction h with
  | empty source => exact ⟨[], rfl⟩
  | @apply source s a δ _ _ _ ih =>
      obtain ⟨l, hl⟩ := ih
      have hmerge : (merge s δ).reverse.refs
          = mergeReverse s.reverse.refs δ.reverseDropped δ.reverseAdded := rfl
      exact ⟨_, by rw [hmerge, hl, mergeReverse_index]⟩

end Filigrio
