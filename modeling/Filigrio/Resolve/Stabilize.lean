import Filigrio.Lib.Tally
import Filigrio.Core.Ports

/-!
# Filigrio.Resolve.Stabilize

Community ids over a re-clustering: a new group inherits the id of a prior community it
shares members with. The groups claim ids one after the other, the one with the largest
overlap first, each the best id that is not taken; the rest get the smallest unused
numbers.
-/

namespace Filigrio.Cluster

variable {n : ℕ} (nodes : Fin n → Node) (groups : List (List (Fin n))) (prior : Partition)

/-- A bookkeeping invariant of the clustering did not hold. -/
def poisonedBookkeeping (what : String) (key : ℕ) : Error :=
  .other ("clustering invariant violated: " ++ what ++ " has no entry for " ++ toString key)

/-- The prior community of each node, if any. -/
def priorOf (i : Fin n) : Option ℕ := prior.nodeCommunity[(nodes i).id]?

/-- The members of a group. -/
abbrev members (g : Fin groups.length) : List (Fin n) := groups.get g

/-- A group's overlap with each prior community id. -/
def overlaps (g : Fin groups.length) : BTreeMap ℕ ℕ :=
  BTreeMap.addAll ∅ (((members groups g).filterMap (priorOf nodes prior)).map fun cid => (cid, 1))

def bestOverlap (g : Fin groups.length) : ℕ := (overlaps nodes groups prior g).values.max?.getD 0

/-- The smallest member of a group; a group has one, and lists it first. -/
def firstMember (g : Fin groups.length) : ℕ := (members groups g).head?.elim 0 Fin.val

/-- `x` claims an id before `y`: its best overlap is larger, ties broken by the smallest
member. -/
def ClaimsFirst (x y : Fin groups.length) : Prop :=
  bestOverlap nodes groups prior y < bestOverlap nodes groups prior x
  ∨ (bestOverlap nodes groups prior x = bestOverlap nodes groups prior y
    ∧ firstMember groups x ≤ firstMember groups y)

instance : DecidableRel (ClaimsFirst nodes groups prior) :=
  fun _ _ => inferInstanceAs (Decidable (_ ∨ _))

/-- The order in which the groups claim prior ids. -/
def claimOrder : List (Fin groups.length) :=
  (List.finRange groups.length).insertionSort (ClaimsFirst nodes groups prior)

/-- Of two overlaps the first is the better: more members, ties to the smaller id. -/
def Better (a b : ℕ × ℕ) : Prop := b.2 < a.2 ∨ (a.2 = b.2 ∧ a.1 < b.1)

instance : DecidableRel Better := fun _ _ => inferInstanceAs (Decidable (_ ∨ _))

/-- One comparison of `max_by`: the later one stays unless it is worse. -/
def keepBetter (best : Option (ℕ × ℕ)) (a : ℕ × ℕ) : Option (ℕ × ℕ) :=
  match best with
  | none => some a
  | some b => if Better b a then some b else some a

/-- The best prior id with positive overlap that is not taken. -/
def pick (overlap : BTreeMap ℕ ℕ) (taken : Finset ℕ) : Option ℕ :=
  (((overlap.toList.filter fun p => p.1 ∉ taken).foldl keepBetter none).filter
    fun p => 0 < p.2).map Prod.fst

/-- The state of the claiming loop. -/
structure Claims (k : ℕ) where
  assigned : Fin k → Option ℕ
  taken : Finset ℕ

/-- One group claims. -/
def claim (st : Claims groups.length) (g : Fin groups.length) : Claims groups.length :=
  match pick (overlaps nodes groups prior g) st.taken with
  | none => st
  | some cid =>
      { assigned := Function.update st.assigned g (some cid), taken := insert cid st.taken }

/-- Claim prior ids, best match first. -/
def claims : Claims groups.length :=
  (claimOrder nodes groups prior).foldl (claim nodes groups prior)
    { assigned := fun _ => none, taken := ∅ }

/-- `while used.contains(counter) { counter += 1 }`, over at most `fuel` used numbers. -/
def skipUsed (used : Finset ℕ) : ℕ → ℕ → ℕ
  | 0, counter => counter
  | fuel + 1, counter => if counter ∈ used then skipUsed used fuel (counter + 1) else counter

/-- Fresh ids (smallest unused) for the groups that claimed none, in group order. -/
def fillSlots : List (Option ℕ) → Finset ℕ → ℕ → List (Option ℕ)
  | [], _, _ => []
  | some cid :: slots, used, counter => some cid :: fillSlots slots used counter
  | none :: slots, used, counter =>
      let fresh := skipUsed used used.card counter
      some fresh :: fillSlots slots (insert fresh used) fresh

/-- The id of each group in the end. -/
def assigned : List (Option ℕ) :=
  let st := claims nodes groups prior
  fillSlots ((List.finRange groups.length).map st.assigned) st.taken 0

/-- Inherited communities keep their prior label; new ones get a placeholder. -/
def labelOf (cid : ℕ) : String :=
  match prior.communities[cid]? with
  | some m => m.label
  | none => "Community " ++ toString cid

/-- The row of one community. -/
def metaOf (cohesion : Fin groups.length → ℕ) (cid : ℕ) (g : Fin groups.length) :
    CommunityMeta where
  id := cid
  label := labelOf prior cid
  size := (members groups g).length
  cohesionPermille := cohesion g

/-- Enter one group into the partition. -/
def materialize (cohesion : Fin groups.length → ℕ) (acc : Partition)
    (g : Fin groups.length) : Except Error Partition :=
  match (assigned nodes groups prior)[g.val]?.join with
  | none => .error (poisonedBookkeeping "assigned" g)
  | some cid => .ok
      { nodeCommunity := acc.nodeCommunity.insertAll
          ((members groups g).map fun i => ((nodes i).id, cid))
        communities := acc.communities.insert cid (metaOf groups prior cohesion cid g) }

/-- Assign each final community an id, inheriting a prior id by node overlap. -/
def stabilize (cohesion : Fin groups.length → ℕ) : Except Error Partition :=
  (List.finRange groups.length).foldlM (materialize nodes groups prior cohesion)
    { nodeCommunity := ∅, communities := ∅ }

end Filigrio.Cluster
