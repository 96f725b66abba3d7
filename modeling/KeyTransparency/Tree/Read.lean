/-
# Tree heads and inclusion proofs in responses

From `src/tree/read.rs` the head that goes with a response, and from
`TraversalSession::finalize` in `src/tree/walker.rs` the inclusion proof: the size
of the freshest auditor head is an extra boundary of it.
-/

import KeyTransparency.Tree.Basic
import KeyTransparency.Tree.Log

namespace KeyTransparency

namespace Tree

/-- `max_by_key`: the last of the accepted heads of the greatest size. -/
def maxByTreeSize : List AcceptedAuditorHead → Option AcceptedAuditorHead
  | [] => none
  | head :: heads =>
    match maxByTreeSize heads with
    | none => some head
    | some best => if best.treeSize < head.treeSize then some head else some best

def freshestAuditor (t : Tree) : Option AcceptedAuditorHead :=
  maxByTreeSize (t.auditors.map Prod.snd)

/-- `get_full_tree_head`, for the size a client says it has seen last. -/
def getFullTreeHead (t : Tree) (last : Option ℕ) : FullTreeHead :=
  if last.getD 0 = t.treeSize ∧ 0 < t.treeSize then ⟨.same, none, none⟩
  else ⟨.updated, t.latest, t.freshestAuditor.map fun ath =>
    ⟨ath.treeSize, ath.timestamp, ath.signature⟩⟩

/-- The boundaries of `finalize`: the greatest size of an accepted auditor head. -/
def boundaries (t : Tree) : List ℕ :=
  (t.auditors.map fun a => a.2.treeSize).max?.toList

/-- The inclusion proof of `finalize`. -/
def inclusionProof (P : Primitives) (t : Tree) (visited : List ℕ) (treeSize consistencyLast : ℕ) :
    Result (List Octets) :=
  LogTree.getBatchProofForNodes P t.store visited treeSize consistencyLast t.boundaries

/-- The boundary is the size of the freshest head. -/
theorem boundaries_eq (t : Tree) :
    t.boundaries = (t.freshestAuditor.map AcceptedAuditorHead.treeSize).toList := by
  have key : ∀ heads : List AcceptedAuditorHead,
      (heads.map AcceptedAuditorHead.treeSize).max? =
        (maxByTreeSize heads).map AcceptedAuditorHead.treeSize := by
    intro heads
    induction heads with
    | nil => rfl
    | cons head heads ih =>
      rw [List.map_cons, List.max?_cons, ih, maxByTreeSize]
      cases maxByTreeSize heads with
      | none => rfl
      | some best =>
        simp only [Option.map_some, Option.elim]
        split_ifs with h
        · rw [Option.map_some, Nat.max_eq_left h.le]
        · rw [Option.map_some, Nat.max_eq_right (Nat.not_lt.1 h)]
  rw [boundaries, freshestAuditor, ← key, List.map_map]
  rfl

end Tree

end KeyTransparency
