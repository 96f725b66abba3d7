/-
# Verifying log tree proofs

`LogVerifier` and `LogAccumulator` of `src/client/verifier.rs`.  The recursion of
`recursive_hash` over node ids is `MerkleLog.reconstruct` over coordinates
(`recursiveHash_node`): it descends into the nodes above a provided leaf, takes a
retained value where there is one and the next proof element elsewhere.

The source keeps the provided leaves sorted and finds one by binary search; here
they are looked up.
-/

import KeyTransparency.Crypto.Hash
import KeyTransparency.Library.MerkleLog.Peaks
import KeyTransparency.Tree.LogMath

namespace KeyTransparency

open LogMath

/-- A map from node ids to values. -/
abbrev NodeMap := ℕ → Option Octets

namespace LogVerifier

variable (P : Primitives)

/-- The climb of `is_ancestor` from a node towards the root. -/
def climbsTo (nodeId treeSize : ℕ) : ℕ → ℕ → Result Bool
  | 0, _ => .error .diverge
  | fuel + 1, curr =>
    if curr = nodeId then .ok true
    else if curr = merkleRoot treeSize then .ok false
    else climbsTo nodeId treeSize fuel (parent curr treeSize)

/-- Whether a provided leaf lies below a node. -/
def isAncestor (nodeId treeSize : ℕ) : List (ℕ × Octets) → Result Bool
  | [] => .ok false
  | leaf :: leaves => do
    if ← climbsTo nodeId treeSize 128 leaf.1 then return true
    else isAncestor nodeId treeSize leaves

/-- `record`: captures the value of a wanted node. -/
def record (wanted : List ℕ) (captured : NodeMap) (id : ℕ) (val : Octets) : NodeMap :=
  if id ∈ wanted then Function.update captured id (some val) else captured

/-- The value of a node that is not above a provided leaf: the retained one,
mirroring the server's omission rule, else the next proof element. -/
def nextValue (retained : NodeMap) (nodeId : ℕ) (proofIter : List Octets) :
    Result (Octets × List Octets) :=
  match retained nodeId, proofIter with
  | some val, proofIter => .ok (val, proofIter)
  | none, val :: proofIter => .ok (val, proofIter)
  | none, [] => fail s!"Ran out of proof elements at node {nodeId}"

/-- The value of a node, the proof elements left and the captured values. -/
def recursiveHash (treeSize : ℕ) (providedLeaves : List (ℕ × Octets)) (retained : NodeMap)
    (wanted : List ℕ) : ℕ → ℕ → List Octets → NodeMap → Result (Octets × List Octets × NodeMap)
  | 0, _, _, _ => .error .diverge
  | fuel + 1, nodeId, proofIter, captured =>
    match providedLeaves.lookup nodeId with
    | some val => .ok (val, proofIter, record wanted captured nodeId val)
    | none => do
      if ← isAncestor nodeId treeSize providedLeaves then
        if isLeaf nodeId then fail s!"Leaf node {nodeId} missing"
        else
          let l := leftChild nodeId
          let r ← rightChild nodeId treeSize
          let (lHash, proofIter, captured) ←
            recursiveHash treeSize providedLeaves retained wanted fuel l proofIter captured
          if l = r then return (lHash, proofIter, record wanted captured nodeId lHash)
          else
            let (rHash, proofIter, captured) ←
              recursiveHash treeSize providedLeaves retained wanted fuel r proofIter captured
            let val := logParentValue P lHash (isLeaf l) rHash (isLeaf r)
            return (val, proofIter, record wanted captured nodeId val)
      else
        let (val, proofIter) ← nextValue retained nodeId proofIter
        return (val, proofIter, record wanted captured nodeId val)

def calculateRootCapturing (nodeIndices : List ℕ) (nodeHashes : List Octets) (treeSize : ℕ)
    (proofElements : List Octets) (retained : NodeMap) (wanted : List ℕ) :
    Result (Octets × NodeMap) := do
  ensure (nodeIndices.length = nodeHashes.length) "Mismatch between indices and hashes length"
  if treeSize = 0 then return (Octets.zeros 32, fun _ => none)
  else
    let nodes := (nodeIndices.zip nodeHashes).map fun n => (n.1 * 2, n.2)
    let (rootHash, proofIter, captured) ←
      recursiveHash P treeSize nodes retained wanted 64 (merkleRoot treeSize) proofElements
        fun _ => none
    ensure (proofIter = []) "Unused inclusion proof elements"
    return (rootHash, captured)

def calculateRoot (nodeIndices : List ℕ) (nodeHashes : List Octets) (treeSize : ℕ)
    (proofElements : List Octets) : Result Octets := do
  let (root, _) ← calculateRootCapturing P nodeIndices nodeHashes treeSize proofElements
    (fun _ => none) []
  return root

end LogVerifier

/-! ### Accumulators -/

/-- The peaks of a log: their levels and values, from left to right. -/
structure LogAccumulator where
  treeSize : ℕ
  peaks : List (ℕ × Octets)

namespace LogAccumulator

variable (P : Primitives)

def new : LogAccumulator := ⟨0, []⟩

def fromPeaks (treeSize : ℕ) (values : List Octets) : Result LogAccumulator := do
  let roots := getRoots treeSize
  ensure (roots.length = values.length)
    s!"Expected {roots.length} peaks for tree size {treeSize}, got {values.length}"
  return ⟨treeSize, (roots.zip values).map fun p => (level p.1, p.2)⟩

/-- The merging loop of `append_leaf`, on the peaks from right to left. -/
def mergePeaks : List (ℕ × Octets) → List (ℕ × Octets)
  | [] => []
  | [p] => [p]
  | (rh, r) :: (lh, l) :: peaks =>
    if lh = rh then mergePeaks ((lh + 1, logParentValue P l (lh == 0) r (rh == 0)) :: peaks)
    else (rh, r) :: (lh, l) :: peaks
termination_by peaks => peaks.length

def appendLeaf (acc : LogAccumulator) (leaf : Octets) : LogAccumulator :=
  ⟨acc.treeSize + 1, (mergePeaks P ((0, leaf) :: acc.peaks.reverse)).reverse⟩

/-- The values of the peaks folded from the right. -/
def foldPeaks : List (ℕ × Octets) → Octets → Octets
  | [], acc => acc
  | (h, v) :: peaks, acc => foldPeaks peaks (logParentValue P v (h == 0) acc false)

def calculateRoot (acc : LogAccumulator) : Result Octets :=
  if acc.treeSize = 0 then .ok (Octets.zeros 32)
  else
    match acc.peaks.reverse with
    | [] => .error (.panic "called `Option::unwrap()` on a `None` value")
    | p :: peaks => .ok (foldPeaks P peaks p.2)

/-- `LogVerifier::accumulator_from_peaks`. -/
def accumulatorFromPeaks (treeSize : ℕ) (peaks : List Octets) : Result Octets := do
  let acc ← fromPeaks treeSize peaks
  calculateRoot P acc

end LogAccumulator

end KeyTransparency
