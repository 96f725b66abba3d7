/-
# The log tree

`src/tree/log.rs`.  Leaves are stored in chunks of eight, keyed by the id of the
node above them; the nodes of levels one to three inside a chunk are recomputed
when it is read, and higher nodes are recombined from their children.  A node
that is complete in its chunk is returned as it is, whatever tree size was asked
for (`resolveNode`).
-/

import KeyTransparency.Crypto.Hash
import KeyTransparency.Store
import KeyTransparency.Tree.LogMath

namespace KeyTransparency

open LogMath

/-! ### Chunks -/

/-- A chunk: its root id and its fifteen slots, leaves in the even ones. -/
structure NodeChunk where
  chunkRootId : ℕ
  nodes : ℕ → Option Octets

namespace NodeChunk

/-- One assignment of `recompute_intermediates`: slot `i` from the slots at
distance `d`. -/
def recomputeSlot (P : Primitives) (ids : List ℕ) (nodes : ℕ → Option Octets) (i d : ℕ) :
    ℕ → Option Octets :=
  match nodes (i - d), nodes (i + d) with
  | some l, some r =>
    Function.update nodes i (some (logParentValue P l (isLeaf (ids.getD (i - d) 0)) r
      (isLeaf (ids.getD (i + d) 0))))
  | _, _ => nodes

def recomputeIntermediates (P : Primitives) (nodes : ℕ → Option Octets) (ids : List ℕ) :
    ℕ → Option Octets :=
  let nodes := [1, 5, 9, 13].foldl (fun ns i => recomputeSlot P ids ns i 1) nodes
  let nodes := [3, 11].foldl (fun ns i => recomputeSlot P ids ns i 2) nodes
  recomputeSlot P ids nodes 7 4

/-- The leaves of a stored chunk: 32 octets each, up to the first that is cut. -/
def parseLeaves (bytes : Octets) (i : ℕ) : Option Octets :=
  if i < 15 ∧ i % 2 = 0 ∧ 16 * i + 32 ≤ bytes.length then some ((bytes.drop (16 * i)).take 32)
  else none

def new (P : Primitives) (chunkRoot : ℕ) (data : Option Octets) : NodeChunk :=
  match data with
  | some bytes => ⟨chunkRoot, recomputeIntermediates P (parseLeaves bytes) (chunkLayout chunkRoot)⟩
  | none => ⟨chunkRoot, fun _ => none⟩

/-- The slots from `i` on in steps of two, up to the first that is empty. -/
def serializeFrom (nodes : ℕ → Option Octets) : ℕ → ℕ → Octets
  | 0, _ => []
  | fuel + 1, i =>
    match nodes i with
    | some val => val ++ serializeFrom nodes fuel (i + 2)
    | none => []

def serialize (c : NodeChunk) : Octets := serializeFrom c.nodes 8 0

/-- `id_map`: the slot of a node id. -/
def slot (c : NodeChunk) (nodeId : ℕ) : Option ℕ :=
  if nodeId ∈ chunkLayout c.chunkRootId then some ((chunkLayout c.chunkRootId).idxOf nodeId)
  else none

def setValue (c : NodeChunk) (nodeId : ℕ) (val : Octets) : Result NodeChunk := do
  let idx ← okOr (c.slot nodeId) "Node ID not in chunk"
  ensure (idx % 2 = 0) "Cannot set intermediate node directly"
  return { c with nodes := Function.update c.nodes idx (some val) }

def getValue (c : NodeChunk) (nodeId : ℕ) : Option Octets := (c.slot nodeId).bind c.nodes

def recompute (P : Primitives) (c : NodeChunk) : NodeChunk :=
  { c with nodes := recomputeIntermediates P c.nodes (chunkLayout c.chunkRootId) }

end NodeChunk

/-! ### Reading -/

namespace LogTree

variable (P : Primitives) (s : Store)

/-- `resolve_node_simple`. -/
def resolveNode : ℕ → ℕ → ℕ → Result Octets
  | 0, _, _ => .error .diverge
  | fuel + 1, nodeId, treeSize =>
    match (s.log (chunkId nodeId)).bind fun data =>
        (NodeChunk.new P (chunkId nodeId) (some data)).getValue nodeId with
    | some val => .ok val
    | none =>
      if isLeaf nodeId then fail s!"Missing leaf node {nodeId}"
      else do
        let left := leftChild nodeId
        let right ← rightChild nodeId treeSize
        if left = right then resolveNode fuel left treeSize
        else do
          let lVal ← resolveNode fuel left treeSize
          let rVal ← resolveNode fuel right treeSize
          return logParentValue P lVal (isLeaf left) rVal (isLeaf right)

def getRoot (treeSize : ℕ) : Result Octets :=
  if treeSize = 0 then .ok (Octets.zeros 32) else resolveNode P s 64 (merkleRoot treeSize) treeSize

def getTimestamp (logIndex : ℕ) : Result U64 :=
  okOr (s.timestamp logIndex) s!"Timestamp not found for log index {logIndex}"

def getPrefixRoot (logIndex : ℕ) : Result Octets :=
  okOr (s.prefixRoot logIndex) s!"Prefix Root not found for log index {logIndex}"

def getPrefixPtr (logIndex : ℕ) : Result ℕ :=
  okOr (s.prefixPtr logIndex) s!"Prefix Ptr not found for log index {logIndex}"

def getNextPrefixVersion : ℕ := s.nextPrefixVersion.getD 0

/-! ### Appending -/

/-- The chunk of an entry of `batch_append`, read from the store when the batch has
not touched it yet. -/
def loadChunk (cid : ℕ) (chunkCache : List (ℕ × NodeChunk)) : Db NodeChunk :=
  match chunkCache.lookup cid with
  | some c => pure c
  | none => do
    let data ← Db.read fun s => .ok (s.log cid)
    return NodeChunk.new P cid data

/-- One entry of `batch_append`: the leaf goes into its chunk. -/
def appendEntry (logIndex : ℕ) (entry : U64 × Octets) (chunkCache : List (ℕ × NodeChunk)) :
    Db (List (ℕ × NodeChunk)) := do
  let nodeId := logIndex * 2
  let leafHash := logLeafValue P entry.1 entry.2
  let cid := chunkId nodeId
  let chunk ← loadChunk P cid chunkCache
  let chunk ← Db.ofResult (chunk.setValue nodeId leafHash)
  Db.write fun s => { s with timestamp := Function.update s.timestamp logIndex (some entry.1) }
  Db.write fun s => { s with prefixRoot := Function.update s.prefixRoot logIndex (some entry.2) }
  return (cid, chunk) :: chunkCache.filter fun c => c.1 != cid

def appendEntries : ℕ → List (U64 × Octets) → List (ℕ × NodeChunk) → Db (List (ℕ × NodeChunk))
  | _, [], chunkCache => return chunkCache
  | logIndex, entry :: entries, chunkCache => do
    let chunkCache ← appendEntry P logIndex entry chunkCache
    appendEntries (logIndex + 1) entries chunkCache

def batchAppend (startTreeSize : ℕ) (entries : List (U64 × Octets)) : Db Octets := do
  let chunkCache ← appendEntries P startTreeSize entries []
  let batch := chunkCache.map fun c => ((c.2.recompute P).chunkRootId, (c.2.recompute P).serialize)
  Db.write fun s => { s with log := Store.putAll batch s.log }
  Db.read fun s => getRoot P s (startTreeSize + entries.length)

/-! ### Proofs -/

def getConsistencyProof (m n : ℕ) : Result (List Octets) :=
  if m = 0 ∨ n ≤ m then fail s!"Invalid consistency proof parameters: m={m}, n={n}"
  else do
    let nodeIds ← consistencyProof m n
    nodeIds.mapM fun id => resolveNode P s 64 id n

/-- `recursive_needed`. -/
def recursiveNeeded (skeleton retained : List ℕ) : ℕ → ℕ → ℕ → Result (List ℕ)
  | 0, _, _ => .error .diverge
  | fuel + 1, nodeId, treeSize =>
    if nodeId ∈ retained ∧ nodeId ∉ skeleton then .ok []
    else if nodeId ∉ skeleton then .ok [nodeId]
    else if isLeaf nodeId then .ok []
    else do
      let l := leftChild nodeId
      let r ← rightChild nodeId treeSize
      if l = r then recursiveNeeded skeleton retained fuel l treeSize
      else do
        let leftRes ← recursiveNeeded skeleton retained fuel l treeSize
        let rightRes ← recursiveNeeded skeleton retained fuel r treeSize
        return leftRes ++ rightRes

/-- The ancestors a path climbs through, up to the root. -/
def climb (rootId treeSize : ℕ) : ℕ → ℕ → List ℕ
  | 0, _ => []
  | fuel + 1, curr =>
    if curr = rootId then []
    else parent curr treeSize :: climb rootId treeSize fuel (parent curr treeSize)

/-- The nodes the proof descends into: the given leaves and what is above them,
and what is above the last leaf of each boundary. -/
def skeleton (leafIndices boundaries : List ℕ) (treeSize : ℕ) : List ℕ :=
  leafIndices.flatMap (fun idx => idx * 2 :: climb (merkleRoot treeSize) treeSize 64 (idx * 2)) ++
    boundaries.flatMap fun boundary =>
      if boundary = 0 ∨ treeSize < boundary then []
      else climb (merkleRoot treeSize) treeSize 64 ((boundary - 1) * 2)

def getBatchProofForNodes (leafIndices : List ℕ) (treeSize lastSize : ℕ) (boundaries : List ℕ) :
    Result (List Octets) := do
  let retained := if 0 < lastSize ∧ lastSize ≤ treeSize then getRoots lastSize else []
  let neededIds ← recursiveNeeded (skeleton leafIndices boundaries treeSize) retained 64
    (merkleRoot treeSize) treeSize
  neededIds.mapM fun id => resolveNode P s 64 id treeSize

end LogTree

end KeyTransparency
