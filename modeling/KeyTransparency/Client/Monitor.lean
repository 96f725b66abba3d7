/-
# Verifying monitoring

Contact monitoring, owner monitoring and the walk over the distinguished heads, from
`src/client/core.rs`.  `replay_contact_ladders` takes the obligations of a label from
right to left: each is dropped, moved to an ancestor whose ladder shows its version,
or left where it is.
-/

import KeyTransparency.Client.Search
import KeyTransparency.Tree.DirectPath

namespace KeyTransparency

open BinaryLadder LogMath

/-- The state of the walk from the root towards an obligation. -/
structure AncestorWalk where
  reader : ProofReader
  /-- The timestamps on both sides of the current entry. -/
  bounds : U64 × U64
  parentDist : Bool
  /-- The ancestors found to be distinguished. -/
  ancestorDist : ℕ → Bool
  curr : ℕ

/-- What replaying the obligations of a label changes. -/
structure ContactWalk where
  reader : ProofReader
  entryRoots : NodeMap
  newMap : OrderedMap ℕ
  ladderTargets : ℕ → Option ℕ

namespace KtClient

variable (P : Primitives)

/-! ### Contact monitoring -/

/-- The walk from the root to an obligation, up to the first ancestor that is not
distinguished. -/
def ancestorLoop (treeSize rmw pos : ℕ) : ℕ → AncestorWalk → Result AncestorWalk
  | 0, _ => .error .diverge
  | fuel + 1, a =>
    if a.curr = pos then .ok a
    else do
      let (ts, reader) ← a.reader.timestamp a.curr
      let dist := a.parentDist && decide (rmw ≤ a.bounds.2.val - a.bounds.1.val)
      let a := { a with
        reader := reader, ancestorDist := Function.update a.ancestorDist a.curr dist }
      if dist = false then return { a with parentDist := false }
      else if pos < a.curr then
        ancestorLoop treeSize rmw pos fuel { a with
          bounds := (a.bounds.1, ts), curr := leftChild a.curr }
      else
        let a := { a with bounds := (ts, a.bounds.2) }
        match ibstRightChild a.curr treeSize with
        | some rc => ancestorLoop treeSize rmw pos fuel { a with curr := rc }
        | none => return a

/-- The ladders along the ancestors of an obligation; returns the last entry whose
ladder was verified, unless a later obligation has been there. -/
def climbLadders (material : ℕ → Option (Octets × Option Octets)) (pos ver : ℕ) :
    List ℕ → Option ℕ → ContactWalk → Result (Option ℕ × ContactWalk)
  | [], movedTo, w => .ok (movedTo, w)
  | e :: list, _, w =>
    match w.ladderTargets e with
    | some t => do
      ensure (ver < t) s!"Entry {e} already covered by a ladder with non-greater target {t}"
      return (none, { w with newMap := w.newMap.erase pos })
    | none => do
      let (_, reader) ← w.reader.timestamp e
      let (pp, reader) ← reader.prefixProof
      let root ← (verifyMonitoringLadder P material pp ver).context
        s!"Monitoring ladder failed at entry {e}"
      let entryRoots ← ProofReader.recordEntryRoot w.entryRoots e root
      climbLadders material pos ver list (some e) { w with
        reader := reader, entryRoots := entryRoots
        ladderTargets := Function.update w.ladderTargets e (some ver) }

/-- One turn of the loop of `replay_contact_ladders`. -/
def replayObligation (material : ℕ → Option (Octets × Option Octets)) (treeSize rmw : ℕ)
    (rightmostTs : U64) (pos ver : ℕ) (w : ContactWalk) : Result ContactWalk := do
  let a ← ancestorLoop treeSize rmw pos 65
    ⟨w.reader, (0, rightmostTs), true, fun _ => false, root treeSize⟩
  let w := { w with reader := a.reader }
  if a.parentDist ∧ a.curr = pos ∧ rmw ≤ a.bounds.2.val - a.bounds.1.val then
    return { w with newMap := w.newMap.erase pos }
  else
    let (movedTo, w) ← climbLadders P material pos ver (contactList pos treeSize a.ancestorDist)
      none w
    match movedTo with
    | some newpos =>
      let newMap := w.newMap.erase pos
      if a.ancestorDist newpos then return { w with newMap := newMap }
      else return { w with newMap := newMap.insert newpos ver }
    | none => return w

def replayObligations (material : ℕ → Option (Octets × Option Octets)) (treeSize rmw : ℕ)
    (rightmostTs : U64) : List (ℕ × ℕ) → ContactWalk → Result ContactWalk
  | [], w => .ok w
  | (pos, ver) :: entries, w => do
    let w ← replayObligation P material treeSize rmw rightmostTs pos ver w
    replayObligations material treeSize rmw rightmostTs entries w

/-- Returns the updated map, the reader and the roots of the walked entries. -/
def replayContactLadders (material : ℕ → Option (Octets × Option Octets)) (map : OrderedMap ℕ)
    (treeSize rmw : ℕ) (reader : ProofReader) (entryRoots : NodeMap) : Result ContactWalk := do
  let (rightmostTs, reader) ← reader.timestamp (treeSize - 1)
  replayObligations P material treeSize rmw rightmostTs map.entries.reverse
    ⟨reader, entryRoots, map, fun _ => none⟩

/-- `verify_contact_monitor`: the entries read, and the client after it. -/
def verifyContactMonitor (c : KtClient) (env : Env) (label : Octets) (map : OrderedMap ℕ)
    (resp : ContactMonitorResponse) : Result (List LeafData × KtClient) := do
  let fth ← okOr resp.fullTreeHead "Missing FullTreeHead"
  let proof ← okOr resp.monitor "Missing monitor proof"
  let (treeSize, timestamp, fthIsUpdated) ← c.treeSizeForFth env fth
  ensure (treeSize ≠ 0) "Cannot monitor an empty tree"
  c.checkUpdatedBounds env fthIsUpdated timestamp
  let reader ← (ProofReader.new proof).timestamps (getFrontier treeSize)
  let (_, reader) ← reader.timestamp (treeSize - 1)
  let w ← replayContactLadders P (c.versionMaterial label) map treeSize
    c.config.reasonableMonitoringWindow reader fun _ => none
  let (leafData, _, c) ← c.finishAndCommit P fth treeSize timestamp fthIsUpdated proof w.reader
    w.entryRoots []
  return (leafData, { c with
    monitoringMap := Function.update c.monitoringMap label w.newMap })

/-- The request of `contact_monitor`, when there is anything to monitor. -/
def contactMonitorRequest (c : KtClient) (label : Octets) : Result ContactMonitorRequest := do
  let map := c.monitoringMap label
  ensure (map.entries ≠ []) "No monitoring obligations recorded for this label"
  return ⟨c.state.map TrustedState.treeSize, label, map.entries.map fun e => ⟨e.1, e.2⟩⟩

/-! ### Owner monitoring -/

/-- The loop over the entries of `owner_init_list`: the ladders in it, with the last
version seen and the number of entries at which the label existed. -/
def ownerInitWalk (c : KtClient) (label : Octets) (binaryLadder : List BinaryLadderStep)
    (rightmostTs : U64) : List ℕ → Option ℕ → ℕ → SearchState → Result (ℕ × SearchState)
  | [], _, countExisting, s => .ok (countExisting, s)
  | node :: nodes, prevVer, countExisting, s => do
    let (ts, reader) ← s.reader.timestamp node
    if isExpired c.config.maximumLifetime rightmostTs ts then
      return (countExisting, { s with reader := reader })
    else
      let (pp, reader) ← reader.prefixProof
      let (root, greatest, ladders) ← (c.verifyOwnerLadder P label pp binaryLadder
        s.ladders).context s!"Owner-init ladder failed at entry {node}"
      ensure (∀ p ∈ prevVer, ∀ t ∈ greatest, t ≤ p) "Owner-init versions are not monotonic"
      let entryRoots ← ProofReader.recordEntryRoot s.entryRoots node root
      ownerInitWalk c label binaryLadder rightmostTs nodes (greatest.or prevVer)
        (countExisting + if greatest.isSome then 1 else 0) ⟨reader, ladders, entryRoots⟩

/-- `verify_owner_init`: the entries read, and the client after it. -/
def verifyOwnerInit (c : KtClient) (env : Env) (label : Octets) (start : ℕ)
    (resp : OwnerInitResponse) : Result (List LeafData × KtClient) := do
  let fth ← okOr resp.fullTreeHead "Missing FullTreeHead"
  let proof ← okOr resp.init "Missing init proof"
  let (treeSize, timestamp, fthIsUpdated) ← c.treeSizeForFth env fth
  ensure (treeSize ≠ 0 ∧ start < treeSize) "Invalid start position for owner init"
  c.checkUpdatedBounds env fthIsUpdated timestamp
  ensure (resp.greatestVersions.IsChain (· ≥ ·)) "greatest_versions are not in descending order"
  let reader ← (ProofReader.new proof).timestamps (getFrontier treeSize)
  let (rightmostTs, reader) ← reader.timestamp (treeSize - 1)
  let (countExisting, s) ← c.ownerInitWalk P label resp.binaryLadder rightmostTs
    (ownerInitList start treeSize) none 0 ⟨reader, .new [], fun _ => none⟩
  ensure (countExisting = resp.greatestVersions.length)
    s!"greatest_versions count {resp.greatestVersions.length} != {countExisting} entries where the label existed"
  ensure (resp.binaryLadder.length = s.ladders.wireIndex.length)
    "Owner-init binary ladder has unused steps"
  let (leafData, _, c) ← c.finishAndCommit P fth treeSize timestamp fthIsUpdated proof s.reader
    s.entryRoots []
  return (leafData, c)

/-- `replay_owner_walk`, where a child that is not there has nothing to replay. -/
def replayOwnerWalk (c : KtClient) (label : Octets) (start treeSize rmw : ℕ) (bound : ℕ)
    (binaryLadder : List BinaryLadderStep) :
    ℕ → ℕ → U64 → U64 → SearchState → Result SearchState
  | 0, _, _, _, _ => .error .diverge
  | fuel + 1, node, leftTs, rightTs, s =>
    if rightTs.val - leftTs.val < rmw then .ok s
    else do
      let (nodeTs, reader) ← s.reader.timestamp node
      let s := { s with reader := reader }
      let walkRight := fun s => (if isLeaf node then none else ibstRightChild node treeSize).elim
        (.ok s) fun rc =>
          replayOwnerWalk c label start treeSize rmw bound binaryLadder fuel rc nodeTs rightTs s
      if node ≤ start then walkRight s
      else
        let s ← (if isLeaf node then .ok s else replayOwnerWalk c label start treeSize rmw bound
          binaryLadder fuel (leftChild node) leftTs nodeTs s)
        let (pp, reader) ← s.reader.prefixProof
        let (root, greatest, ladders) ← (c.verifyOwnerLadder P label pp binaryLadder
          s.ladders).context s!"Owner-monitor ladder failed at entry {node}"
        ensure (∀ g ∈ greatest, g ≤ bound)
          s!"Unexpected version {greatest.getD 0} exceeds advertised greatest {bound}"
        let entryRoots ← ProofReader.recordEntryRoot s.entryRoots node root
        walkRight ⟨reader, ladders, entryRoots⟩

/-- `verify_owner_monitor`: the entries read, and the client after it. -/
def verifyOwnerMonitor (c : KtClient) (env : Env) (label : Octets) (map : OrderedMap ℕ)
    (start : ℕ) (greatestVersion : Option ℕ) (resp : OwnerMonitorResponse) :
    Result (List LeafData × KtClient) := do
  let fth ← okOr resp.fullTreeHead "Missing FullTreeHead"
  let proof ← okOr resp.monitor "Missing monitor proof"
  let (treeSize, timestamp, fthIsUpdated) ← c.treeSizeForFth env fth
  ensure (treeSize ≠ 0) "Cannot monitor an empty tree"
  c.checkUpdatedBounds env fthIsUpdated timestamp
  let bound := greatestVersion.getD maxVersion
  let rmw := c.config.reasonableMonitoringWindow
  let reader ← (ProofReader.new proof).timestamps (getFrontier treeSize)
  let (rightmostTs, reader) ← reader.timestamp (treeSize - 1)
  let w ← replayContactLadders P (c.versionMaterial label) map treeSize rmw reader fun _ => none
  let s ← c.replayOwnerWalk P label start treeSize rmw bound resp.binaryLadder 65 (root treeSize) 0
    rightmostTs ⟨w.reader, .new [], w.entryRoots⟩
  ensure (resp.binaryLadder.length = s.ladders.wireIndex.length ∨ s.ladders.wireIndex = [])
    "Owner-monitor binary ladder step count mismatch"
  let (leafData, _, c) ← c.finishAndCommit P fth treeSize timestamp fthIsUpdated proof s.reader
    s.entryRoots []
  return (leafData, c)

/-! ### Distinguished heads -/

/-- The loop of `verify_distinguished` over its stack of entries, each with the
timestamps on both sides; the walked entries are returned. -/
def distinguishedLoop (treeSize rmw : ℕ) (stop : Option ℕ) : ℕ → List (ℕ × U64 × U64) → List ℕ →
    ProofReader → Result (List ℕ × ProofReader)
  | 0, _, _, _ => .error .diverge
  | _ + 1, [], walked, reader => .ok (walked, reader)
  | fuel + 1, (curr, lo, hi) :: stack, walked, reader =>
    if hi.val - lo.val < rmw then distinguishedLoop treeSize rmw stop fuel stack walked reader
    else do
      let (ts, reader) ← reader.timestamp curr
      let left := if isLeaf curr = false ∧ ∀ s ∈ stop, s < curr then
        [(leftChild curr, lo, ts)] else []
      let right := if isLeaf curr then [] else
        ((ibstRightChild curr treeSize).map fun rc => (rc, ts, hi)).toList
      distinguishedLoop treeSize rmw stop fuel (right ++ left ++ stack) (walked ++ [curr]) reader

/-- A walked entry with its peaks, when all of them were captured. -/
def distinguishedEntry (leafData : List LeafData) (captured : NodeMap) (p : ℕ) :
    Option DistinguishedEntry := do
  let data ← leafData.lookup p
  let peaks ← (getRoots (p + 1)).mapM captured
  return ⟨data.1, data.2, peaks⟩

/-- `verify_distinguished`: the entries read, and the client after it.  Every entry is
pushed once, so that twice the size of the tree bounds the turns of the loop. -/
def verifyDistinguished (c : KtClient) (env : Env) (stop : Option ℕ)
    (resp : DistinguishedResponse) : Result (List LeafData × KtClient) := do
  let fth ← okOr resp.fullTreeHead "Missing FullTreeHead"
  let proof ← okOr resp.distinguished "Missing distinguished proof"
  let (treeSize, timestamp, fthIsUpdated) ← c.treeSizeForFth env fth
  ensure (treeSize ≠ 0) "Empty tree"
  c.checkUpdatedBounds env fthIsUpdated timestamp
  let rightmostTs ← okOr timestamp "Missing head timestamp"
  let reader ← (ProofReader.new proof).timestamps (getFrontier treeSize)
  let (walked, reader) ← distinguishedLoop treeSize c.config.reasonableMonitoringWindow stop
    (2 * treeSize + 2) [(root treeSize, 0, rightmostTs)] [] reader
  let (leafData, captured, c) ← c.finishAndCommit P fth treeSize timestamp fthIsUpdated proof reader
    (fun _ => none) (walked.flatMap fun p => getRoots (p + 1))
  return (leafData, { c with
    distinguishedEntries := .collect (walked.filterMap fun p =>
      (distinguishedEntry leafData captured p).map (p, ·)) })

/-- `distinguished_roots`: the log roots at the retained distinguished heads, oldest
first. -/
def distinguishedRoots (c : KtClient) : Result (List (ℕ × Octets)) :=
  c.distinguishedEntries.entries.mapM fun e => do
    let acc ← LogAccumulator.accumulatorFromPeaks P (e.1 + 1) e.2.peaks
    return (e.1, acc)

end KtClient

end KeyTransparency
