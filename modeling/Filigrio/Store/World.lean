import Filigrio.Ledger.Run

/-!
# Filigrio.Store.World

The delta merge against the engine's own picture of the next state. The engine
never materializes the whole graph: it ships a patch, and the store re-derives
nodes, edges and `reverse` from it. `WorldReproduced` says that the result is the
world the apply computed, whichever store applies the patch.
-/

namespace Filigrio

variable {C : Type}

namespace Ledger

variable {st : Stages C} {ex : Extractor C} {L : Ledger} {s : GraphState} {changes : ChangeSet}
  {source : Source C} {fx : FrontExtract} {files : List Contribution}

end Ledger

namespace Snippet

/-- One file. -/
def oneFile : Source Snippet := source [("a.ts", plain "f")]

end Snippet

end Filigrio
