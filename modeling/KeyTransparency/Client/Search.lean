/-
# Verifying searches

`verify_search_response` of `src/client/core.rs`.  A search for the greatest version
verifies the ladder of every entry of the frontier; a search for a fixed version
walks down the implicit binary search tree (`simulate_fixed_search`).  One turn of
the walk is `fixedStep`.
-/

import KeyTransparency.Client.Head
import KeyTransparency.Client.Ladder
import KeyTransparency.Tree.DirectPath

namespace KeyTransparency

open BinaryLadder LogMath

/-- What the verification of an entry's ladder changes. -/
structure SearchState where
  reader : ProofReader
  ladders : Ladders
  entryRoots : NodeMap

namespace KtClient

variable (P : Primitives)

/-! ### The beginning and the end of every operation -/

/-- The clock check of an updated head. -/
def checkUpdatedBounds (c : KtClient) (env : Env) (fthIsUpdated : Bool) (timestamp : Option U64) :
    Result Unit :=
  match fthIsUpdated, timestamp with
  | true, some headTs =>
    (c.checkTimestampBounds env headTs).context "TreeHead timestamp out of bounds"
  | _, _ => .ok ()

/-- The end of a replay: the proof must be used up, and what was read from it must
stand for the root of the head. -/
def finishAndCommit (c : KtClient) (fth : FullTreeHead) (treeSize : ℕ) (timestamp : Option U64)
    (fthIsUpdated : Bool) (proof : CombinedTreeProof) (reader : ProofReader) (entryRoots : NodeMap)
    (extraWanted : List ℕ) : Result (List LeafData × NodeMap × KtClient) := do
  let leafData ← reader.finish entryRoots
  let inclusion ← okOr proof.inclusion "Missing inclusion proof"
  let (captured, c) ← c.verifyHeadAndCommit P fth treeSize timestamp fthIsUpdated
    (leafData.map Prod.fst) (leafData.map fun d => logLeafValue P d.2.1 d.2.2) inclusion.elements
    extraWanted
  return (leafData, captured, c)

/-! ### Searches for the greatest version -/

/-- Verifies the next prefix proof as the search ladder of an entry. -/
def verifyEntryLadder (c : KtClient) (label : Octets) (targetVersion : ℕ)
    (binaryLadder : List BinaryLadderStep) (targetCommitment : Octets) (greatest isRightmost : Bool)
    (entry : ℕ) (s : SearchState) : Result (Ordering × SearchState) := do
  let (pp, reader) ← s.reader.prefixProof
  let (root, relation, ladders) ← (c.verifyLadderProof P label pp targetVersion binaryLadder
    targetCommitment greatest isRightmost s.ladders).context
      s!"Ladder verification failed at entry {entry}"
  let entryRoots ← ProofReader.recordEntryRoot s.entryRoots entry root
  return (relation, ⟨reader, ladders, entryRoots⟩)

/-- The loop over the frontier: returns the first entry with the claimed version. -/
def greatestWalk (c : KtClient) (label : Octets) (targetVersion : ℕ)
    (binaryLadder : List BinaryLadderStep) (targetCommitment : Octets) (rightmost : ℕ) :
    List ℕ → Option ℕ → SearchState → Result (Option ℕ × SearchState)
  | [], firstEqual, s => .ok (firstEqual, s)
  | entry :: entries, firstEqual, s => do
    let (relation, s) ← c.verifyEntryLadder P label targetVersion binaryLadder targetCommitment true
      (entry == rightmost) entry s
    greatestWalk c label targetVersion binaryLadder targetCommitment rightmost entries
      (if relation = .eq ∧ firstEqual = none then some entry else firstEqual) s

/-! ### Searches for a fixed version -/

/-- Whether an entry has outlived the maximum lifetime. -/
def isExpired (maximumLifetime : Option ℕ) (rightmostTs ts : U64) : Bool :=
  maximumLifetime.any fun ml => ml ≤ rightmostTs.val - ts.val

structure FixedWalk extends SearchState where
  /-- The timestamps on both sides of the current entry. -/
  bounds : U64 × U64
  parentDist : Bool
  expiredOnPath : Bool
  encounteredExpired : Bool
  /-- The entries left of the current path, and whether they are unexpired and
  distinguished. -/
  leftPath : List (ℕ × Bool)
  inspected : List (ℕ × Ordering)

/-- One turn of the loop of `simulate_fixed_search`. -/
def fixedStep (c : KtClient) (label : Octets) (treeSize targetVersion : ℕ)
    (binaryLadder : List BinaryLadderStep) (targetCommitment : Octets) (rightmostTs : U64)
    (curr : ℕ) (w : FixedWalk) : Result (Walk × FixedWalk) := do
  let (ts, reader) ← w.reader.timestamp curr
  let isDist := w.parentDist &&
    decide (c.config.reasonableMonitoringWindow ≤ w.bounds.2.val - w.bounds.1.val)
  let rightChild := if isLeaf curr then none else ibstRightChild curr treeSize
  let w := { w with reader := reader }
  if isExpired c.config.maximumLifetime rightmostTs ts then
    let w := { w with encounteredExpired := true, expiredOnPath := true }
    match rightChild with
    | some rc => return (.goto rc, { w with
        leftPath := w.leftPath ++ [(curr, false)], bounds := (ts, w.bounds.2), parentDist := isDist })
    | none => return (.stop, w)
  else
    let (relation, s) ← c.verifyEntryLadder P label targetVersion binaryLadder targetCommitment
      false false curr w.toSearchState
    let w := { w with toSearchState := s, inspected := w.inspected ++ [(curr, relation)] }
    match relation with
    | .lt =>
      match rightChild with
      | some rc => return (.goto rc, { w with
          leftPath := w.leftPath ++ [(curr, isDist)], bounds := (ts, w.bounds.2),
          parentDist := isDist })
      | none => return (.stop, w)
    | .gt =>
      if isLeaf curr then return (.stop, w)
      else return (.goto (leftChild curr), { w with
        bounds := (w.bounds.1, ts), parentDist := isDist })
    | .eq =>
      if w.expiredOnPath = false ∨ isDist ∨ w.leftPath.any Prod.snd then
        return (.terminal curr, w)
      else fail "Requested version of the label is expired"

/-- The loop of `simulate_fixed_search`, and the entry it ends at. -/
def fixedLoop (c : KtClient) (label : Octets) (treeSize targetVersion : ℕ)
    (binaryLadder : List BinaryLadderStep) (targetCommitment : Octets) (rightmostTs : U64) :
    ℕ → ℕ → FixedWalk → Result (Option ℕ × FixedWalk)
  | 0, _, _ => .error .diverge
  | fuel + 1, curr, w => do
    let (turn, w) ← c.fixedStep P label treeSize targetVersion binaryLadder targetCommitment
      rightmostTs curr w
    match turn with
    | .goto entry =>
      fixedLoop c label treeSize targetVersion binaryLadder targetCommitment rightmostTs fuel entry w
    | .stop => return (none, w)
    | .terminal entry => return (some entry, w)

/-- Step 6, where no inspected entry has the version as its greatest one: it must be
included in the leftmost entry with a greater one. -/
def fixedLookup (c : KtClient) (label : Octets) (targetVersion : ℕ)
    (binaryLadder : List BinaryLadderStep) (targetCommitment : Octets) (w : FixedWalk) :
    Result (ℕ × SearchState) := do
  let identified ← okOr ((w.inspected.filter (·.2 = .gt)).map Prod.fst).min?
    "Requested version of the label does not exist"
  ensure (w.encounteredExpired → w.leftPath.any fun p => p.1 < identified ∧ p.2)
    "Requested version of the label is expired"
  let (pp, reader) ← w.reader.prefixProof
  let (root, included, ladders) ← (c.verifySingleLookup P label pp targetVersion binaryLadder
    targetCommitment w.ladders).context s!"Target-version lookup failed at entry {identified}"
  let entryRoots ← ProofReader.recordEntryRoot w.entryRoots identified root
  ensure (included = true) "Requested version of the label does not exist"
  return (identified, ⟨reader, ladders, entryRoots⟩)

def simulateFixedSearch (c : KtClient) (label : Octets) (treeSize targetVersion : ℕ)
    (binaryLadder : List BinaryLadderStep) (targetCommitment : Octets) (s : SearchState) :
    Result (ℕ × SearchState) := do
  let (rightmostTs, reader) ← s.reader.timestamp (treeSize - 1)
  let (terminal, w) ← c.fixedLoop P label treeSize targetVersion binaryLadder targetCommitment
    rightmostTs 65 (root treeSize)
    ⟨{ s with reader := reader }, (0, rightmostTs), true, false, false, [], []⟩
  match terminal with
  | some entry => return (entry, w.toSearchState)
  | none => c.fixedLookup P label targetVersion binaryLadder targetCommitment w

/-! ### The response -/

/-- The part of a search that depends on its kind: the terminal entry, and what was
read on the way. -/
def searchWalk (c : KtClient) (label : Octets) (requestedVersion : Option ℕ)
    (treeSize targetVersion : ℕ) (binaryLadder : List BinaryLadderStep) (targetCommitment : Octets)
    (s : SearchState) : Result (ℕ × SearchState) :=
  match requestedVersion with
  | none => do
    let rightmost ← (getFrontier treeSize).getLast?.elim
      (.error (.panic "called `Option::unwrap()` on a `None` value")) .ok
    let (firstEqual, s) ← c.greatestWalk P label targetVersion binaryLadder targetCommitment
      rightmost (getFrontier treeSize) none s
    return (firstEqual.getD rightmost, s)
  | some _ => c.simulateFixedSearch P label treeSize targetVersion binaryLadder targetCommitment s

/-- An obligation that a verified search leaves behind, with the material of its
ladders. -/
structure Verified where
  terminal : ℕ
  targetVersion : ℕ
  ladders : Ladders
  leafData : List LeafData

/-- `verify_search_response` up to the commit of the new state. -/
def verifySearch (c : KtClient) (env : Env) (label : Octets) (requestedVersion : Option ℕ)
    (resp : SearchResponse) : Result (Verified × KtClient) := do
  let fth ← okOr resp.fullTreeHead "Missing FullTreeHead"
  let proof ← okOr resp.search "Missing CombinedTreeProof"
  let (treeSize, timestamp, fthIsUpdated) ← c.treeSizeForFth env fth
  ensure (treeSize ≠ 0) "Server returned empty tree for search"
  let value ← okOr resp.value "Missing UpdateValue"
  let targetVersion ← okOr (requestedVersion.or resp.version)
    "Greatest-version search response missing TreeSearchResponse.version"
  let base := if requestedVersion = none then baseBinaryLadder targetVersion else []
  ensure (requestedVersion = none → resp.binaryLadder.length = base.length)
    s!"Binary ladder length mismatch: got {resp.binaryLadder.length}, expected {base.length} for target v={targetVersion}"
  let targetCommitment ← (commit P label targetVersion value.value none resp.opening).context
    "Commitment computation failed"
  c.checkUpdatedBounds env fthIsUpdated timestamp
  let reader ← (ProofReader.new proof).timestamps (getFrontier treeSize)
  let (terminal, s) ← c.searchWalk P label requestedVersion treeSize targetVersion
    resp.binaryLadder targetCommitment ⟨reader, .new base, fun _ => none⟩
  ensure (resp.binaryLadder.length = s.ladders.wireIndex.length)
    s!"Binary ladder has {resp.binaryLadder.length} steps but only {s.ladders.wireIndex.length} versions were looked up"
  let (leafData, _, c) ← c.finishAndCommit P fth treeSize timestamp fthIsUpdated proof s.reader
    s.entryRoots []
  return (⟨terminal, targetVersion, s.ladders, leafData⟩, c)

/-- The terminal entry enters the monitoring map, and the material of the ladders the
retained one. -/
def retain (c : KtClient) (label : Octets) (v : Verified) : KtClient :=
  { c with
    versionMaterial := fun l version =>
      match l == label, v.ladders.material version, v.ladders.vrfCache version with
      | true, some comm, some out => some (out, comm)
      | _, _, _ => c.versionMaterial l version
    monitoringMap := Function.update c.monitoringMap label
      ((c.monitoringMap label).insert v.terminal v.targetVersion) }

/-- The new head is committed before the state is saved, the obligation is entered
after. -/
def verifySearchResponse (c : KtClient) (env : Env) (label : Octets) (requestedVersion : Option ℕ)
    (resp : SearchResponse) : Result Unit × KtClient :=
  match c.verifySearch P env label requestedVersion resp with
  | .error e => (.error e, c)
  | .ok (v, c) =>
    match env.saveState c with
    | .error e => (.error e, c)
    | .ok _ => (.ok (), c.retain label v)

end KtClient

end KeyTransparency
