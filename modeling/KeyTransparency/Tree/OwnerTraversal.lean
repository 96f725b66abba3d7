/-
# Answering the owner of a label

The two requests of a label's owner, from `src/tree/monitor.rs`, and their walks from
`src/tree/traversal.rs`.  An owner that begins to monitor is shown the greatest version at
its start and at the entries left of it on the way to the root, as far as these are
unexpired; the first expired one ends the walk without being visited.  An owner that goes
on monitoring is shown the ladders of the distinguished entries right of its start.
-/

import KeyTransparency.Tree.Traversal

namespace KeyTransparency

open BinaryLadder LogMath

structure OwnerInitRequest where
  last : Option ℕ
  label : Octets
  start : ℕ
deriving DecidableEq, Repr

namespace Tree

variable (P : Primitives) (t : Tree)

/-! ### The first walk -/

/-- The loop over the entries of an owner's first walk, with the greatest versions so far. -/
def ownerInitLoop (history : List (ℕ × ℕ)) (rightmostTs : U64) :
    List ℕ → List (Option ℕ) → TraversalSession → Result (List (Option ℕ) × TraversalSession)
  | [], versions, session => .ok (versions, session)
  | node :: nodes, versions, session => do
    let ts ← LogTree.getTimestamp t.store node
    if t.isExpired rightmostTs ts then return (versions, session)
    else do
      let ver := t.getMaxVersionAt history node
      ensure (∀ prev ∈ versions.getLast?.join, ∀ v ∈ ver, v ≤ prev)
        "Owner-init greatest versions are not monotonic"
      let session ← session.visit P t node (ownerLadder ver) none
      ownerInitLoop history rightmostTs nodes (versions ++ [ver]) session

def traverseOwnerInit (treeSize : ℕ) (label : Octets) (start last : ℕ) :
    Result (CombinedTreeProof × List BinaryLadderStep × List ℕ) := do
  let history := t.store.history label
  let rightmostTs ← LogTree.getTimestamp t.store (treeSize - 1)
  let session ← (TraversalSession.new label).visitFrontier t treeSize
  let (versions, session) ← ownerInitLoop P t history rightmostTs (ownerInitList start treeSize) []
    session
  let proof ← session.finalize P t treeSize last
  return (proof, session.ladder, versions.filterMap id)

def ownerInit (req : OwnerInitRequest) : Result OwnerInitResponse := do
  let treeSize ← t.monitoredTreeSize
  if treeSize ≤ req.start then
    .error (.kt (.invalidArgument
      s!"Start position {req.start} outside tree of size {treeSize}"))
  else do
    let (proof, binaryLadder, greatestVersions) ← traverseOwnerInit P t treeSize req.label req.start
      (req.last.getD 0)
    return ⟨some (t.getFullTreeHead req.last), greatestVersions, binaryLadder, some proof⟩

/-! ### The later walks -/

/-- The loop over the actions of an owner's walk.  An action's target does not say whether
the label is there, so that its ladder is looked up again. -/
def ownerActionsLoop (history : List (ℕ × ℕ)) :
    List (ℕ × Option ℕ) → TraversalSession → Result TraversalSession
  | [], session => .ok session
  | (node, none) :: actions, session => do
    let session ← session.visitTimestampOnly t node
    ownerActionsLoop history actions session
  | (node, some _) :: actions, session => do
    let session ← session.visit P t node (ownerLadder (t.getMaxVersionAt history node)) none
    ownerActionsLoop history actions session

def traverseOwnerMonitor (treeSize : ℕ) (label : Octets) (entries : List MonitorMapEntry)
    (start last : ℕ) : Result (CombinedTreeProof × List BinaryLadderStep) := do
  let history := t.store.history label
  let rightmostTs ← LogTree.getTimestamp t.store (treeSize - 1)
  let session ← (TraversalSession.new label).visitFrontier t treeSize
  let session ← visitContactEntries P t treeSize rightmostTs entries.reverse session fun _ => none
  let actions ← t.ownerWalkActions history start treeSize t.config.reasonableMonitoringWindow 65
    (root treeSize) 0 rightmostTs
  let session ← ownerActionsLoop P t history actions session
  let proof ← session.finalize P t treeSize last
  return (proof, session.ladder)

def ownerMonitor (req : OwnerMonitorRequest) : Result OwnerMonitorResponse := do
  let treeSize ← t.monitoredTreeSize
  validateMonitorEntries treeSize req.entries none
  if treeSize ≤ req.start then
    .error (.kt (.invalidArgument
      s!"Start position {req.start} outside tree of size {treeSize}"))
  else if req.greatestVersion.any fun claimed =>
      ((t.store.history req.label).getLast?.map Prod.fst).all (· < claimed) then
    .error (.kt (.invalidArgument "greatest_version exceeds the label's actual greatest version"))
  else do
    let (proof, binaryLadder) ← traverseOwnerMonitor P t treeSize req.label req.entries req.start
      (req.last.getD 0)
    return ⟨some (t.getFullTreeHead req.last), some proof, binaryLadder⟩

end Tree

end KeyTransparency
