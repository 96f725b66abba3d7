/-
# Verifying ladders

The ladder verifiers of `src/client/core.rs`.  `decode_search_ladder` replays the
generation of a ladder against the results of a prefix proof and finds which version
each result is about; the verifiers then check every lookup and that all of them
stand for one prefix root.

The maps that a search fills are threaded through as `Ladders`.  The wire index maps
versions to the slots `0, 1, 2, …` in the order of their first lookup, so that it is
the list of these versions.
-/

import KeyTransparency.Client.PrefixVerifier
import KeyTransparency.Client.ProofReader
import KeyTransparency.Tree.BinaryLadder

namespace KeyTransparency

open BinaryLadder

structure DecodedLookup where
  version : ℕ
  inclusion : Bool
deriving DecidableEq, Repr

namespace DecodedLookup

/-- `finish`: all results must be taken. -/
def decodeFinish (results : List PrefixSearchResult) (idx : ℕ) : Result (List DecodedLookup) := do
  ensure (idx = results.length)
    s!"PrefixProof has {results.length} results but the ladder only requires {idx}"
  return []

/-- `probe!`: whether the next result is an inclusion. -/
def probe (results : List PrefixSearchResult) (idx : ℕ) : Result Bool := do
  let r ← okOr results[idx]? "PrefixProof has fewer results than its ladder requires"
  return r.resultType = 1

/-- The binary search between the bounds. -/
def decodeBisect (results : List PrefixSearchResult) (target : ℕ) :
    ℕ → ℕ → ℕ → ℕ → Result (List DecodedLookup)
  | 0, _, _, _ => .error .diverge
  | fuel + 1, lower, upper, idx =>
    if lower + 1 < upper then do
      let v := lower + (upper - lower) / 2
      let inc ← probe results idx
      let rest ← (
        if inc then
          if target < v then decodeFinish results (idx + 1)
          else decodeBisect results target fuel v upper (idx + 1)
        else if v ≤ target then decodeFinish results (idx + 1)
        else decodeBisect results target fuel lower v (idx + 1))
      return ⟨v, inc⟩ :: rest
    else decodeFinish results idx

/-- The loop over the powers of two minus one. -/
def decodePowers (results : List PrefixSearchResult) (target : ℕ) :
    ℕ → ℕ → Option ℕ → ℕ → Result (List DecodedLookup)
  | 0, _, _, _ => .error .diverge
  | fuel + 1, k, lastIncluded, idx => do
    let v := ladderValue k
    let inc ← probe results idx
    let rest ← (
      if inc then
        if target < v ∨ v = maxVersion then decodeFinish results (idx + 1)
        else decodePowers results target fuel (k + 1) (some v) (idx + 1)
      else if v ≤ target then decodeFinish results (idx + 1)
      else
        match lastIncluded with
        | some l => decodeBisect results target 32 l v (idx + 1)
        | none => .error (.panic "internal error: entered unreachable code"))
    return ⟨v, inc⟩ :: rest

end DecodedLookup

/-- Replays the ladder generation, reading each probe's outcome from the type of the
next result. -/
def decodeSearchLadder (results : List PrefixSearchResult) (target : ℕ) :
    Result (List DecodedLookup) :=
  DecodedLookup.decodePowers results target 33 0 none 0

/-- What the ladders of one response share. -/
structure Ladders where
  /-- The versions looked up, by their slot on the wire. -/
  wireIndex : List ℕ
  vrfCache : ℕ → Option Octets
  /-- The commitments of the versions shown to exist. -/
  material : ℕ → Option (Option Octets)

namespace Ladders

def new (wireIndex : List ℕ) : Ladders := ⟨wireIndex, fun _ => none, fun _ => none⟩

/-- `wire_index.entry(v).or_insert(next_slot)`. -/
def slot (wireIndex : List ℕ) (v : ℕ) : ℕ × List ℕ :=
  if v ∈ wireIndex then (wireIndex.idxOf v, wireIndex) else (wireIndex.length, wireIndex ++ [v])

end Ladders

/-- All results of a proof must stand for one root. -/
def agreeingRoot (computedRoot : Option Octets) (root : Octets) (msg : String) :
    Result (Option Octets) := do
  ensure (∀ prev ∈ computedRoot, prev = root) msg
  return some root

/-- `hex::encode`. -/
def hexEncode (bytes : Octets) : String :=
  String.join (bytes.map fun b =>
    String.ofList [Nat.digitChar (b / 16 % 16), Nat.digitChar (b % 16)])

/-- The state of the loop over the lookups of one proof. -/
structure LadderFold where
  relation : Ordering
  elementsOffset : ℕ
  computedRoot : Option Octets
  ladders : Ladders

namespace KtClient

variable (P : Primitives)

/-- The step of the wire ladder that belongs to a version, and the VRF output, which
is verified once. -/
def ladderStep (c : KtClient) (vrfInput : Result Octets) (vrfMsg : String)
    (binaryLadder : List BinaryLadderStep) (v : ℕ) (s : Ladders) :
    Result (BinaryLadderStep × Octets × Ladders) := do
  let wireIndex := (Ladders.slot s.wireIndex v).2
  let step ← okOr binaryLadder[(Ladders.slot s.wireIndex v).1]? s!"Ladder step missing for v={v}"
  match s.vrfCache v with
  | some out => return (step, out, { s with wireIndex := wireIndex })
  | none =>
    let input ← vrfInput
    let out ← (P.ecvrfVerify c.config.cipherSuite c.vrfPk input step.proof).context vrfMsg
    return (step, out, { s with
      wireIndex := wireIndex, vrfCache := Function.update s.vrfCache v (some out) })

/-- How the entry's greatest version relates to the target, after a lookup. -/
def lookupRelation (targetVersion : ℕ) (greatest isRightmost : Bool) (lk : DecodedLookup)
    (relation : Ordering) : Result Ordering :=
  if lk.inclusion ∧ targetVersion < lk.version then
    if greatest then
      fail s!"Inclusion proof for v={lk.version} contradicts claimed greatest version {targetVersion}"
    else .ok .gt
  else if lk.inclusion = false ∧ lk.version ≤ targetVersion then
    if greatest ∧ isRightmost then
      fail s!"Non-inclusion proof for v={lk.version} at the rightmost entry contradicts claimed greatest version {targetVersion}"
    else .ok .lt
  else .ok relation

/-- The commitment a lookup is verified with.  The one of the target version is
recomputed from the value. -/
def lookupCommitment (targetVersion : ℕ) (targetCommitment : Octets) (greatest : Bool)
    (lk : DecodedLookup) (step : BinaryLadderStep) : Result (Option Octets) :=
  if lk.inclusion then
    if lk.version = targetVersion then do
      ensure (∀ serverComm ∈ step.commitment, serverComm = targetCommitment)
        "Target-version commitment mismatch: server-supplied does not open to provided value"
      return some targetCommitment
    else do
      let comm ← okOr step.commitment
        s!"Inclusion result for v={lk.version} but binary ladder has no commitment"
      return some comm
  else do
    ensure (¬ (greatest ∧ step.commitment.isSome ∧ targetVersion < lk.version))
      s!"Commitment provided for non-existent v={lk.version}"
    return none

/-- One turn of the loop of `verify_ladder_proof`. -/
def verifyLookup (c : KtClient) (label : Octets) (pp : PrefixProof) (targetVersion : ℕ)
    (binaryLadder : List BinaryLadderStep) (targetCommitment : Octets) (greatest isRightmost : Bool)
    (j : ℕ) (lk : DecodedLookup) (s : LadderFold) : Result LadderFold := do
  let relation ← lookupRelation targetVersion greatest isRightmost lk s.relation
  let (step, out, ladders) ← c.ladderStep P
    ((constructVrfInput label lk.version).context "VRF input construction failed")
    s!"Binary ladder VRF verify failed at v={lk.version}" binaryLadder lk.version s.ladders
  let commitment ← lookupCommitment targetVersion targetCommitment greatest lk step
  let material := if lk.inclusion then
    Function.update ladders.material lk.version (some commitment) else ladders.material
  let (root, consumed) ← PrefixVerifier.computeRootFromResult P pp j out commitment s.elementsOffset
  let computedRoot ← agreeingRoot s.computedRoot root
    s!"PrefixProof results disagree on prefix-tree root: {hexEncode root} vs {hexEncode (s.computedRoot.getD [])}"
  return ⟨relation, s.elementsOffset + consumed, computedRoot, { ladders with material := material }⟩

def verifyLookups (c : KtClient) (label : Octets) (pp : PrefixProof) (targetVersion : ℕ)
    (binaryLadder : List BinaryLadderStep) (targetCommitment : Octets)
    (greatest isRightmost : Bool) : ℕ → List DecodedLookup → LadderFold → Result LadderFold
  | _, [], s => .ok s
  | j, lk :: decoded, s => do
    let s ← c.verifyLookup P label pp targetVersion binaryLadder targetCommitment greatest
      isRightmost j lk s
    verifyLookups c label pp targetVersion binaryLadder targetCommitment greatest isRightmost
      (j + 1) decoded s

/-- Verifies one search binary ladder: the VRF of every lookup, the commitment rules
and that the results agree on a root.  Returns the prefix root and how the entry's
greatest version relates to the target. -/
def verifyLadderProof (c : KtClient) (label : Octets) (pp : PrefixProof) (targetVersion : ℕ)
    (binaryLadder : List BinaryLadderStep) (targetCommitment : Octets) (greatest isRightmost : Bool)
    (ladders : Ladders) : Result (Octets × Ordering × Ladders) := do
  let decoded ← (decodeSearchLadder pp.results targetVersion).context "Ladder decode failed"
  let s ← c.verifyLookups P label pp targetVersion binaryLadder targetCommitment greatest
    isRightmost 0 decoded ⟨.eq, 0, none, ladders⟩
  ensure (s.elementsOffset = pp.elements.length)
    s!"PrefixProof: {pp.elements.length - s.elementsOffset} unused proof elements"
  ensure (greatest ∧ isRightmost → decoded.map DecodedLookup.version = baseBinaryLadder targetVersion)
    s!"Rightmost entry ladder incomplete: expected full base ladder for v={targetVersion}"
  let root ← okOr s.computedRoot "PrefixProof contained no results"
  return (root, s.relation, s.ladders)

/-- The lookup of the target version alone: the root, and whether it is included. -/
def verifySingleLookup (c : KtClient) (label : Octets) (pp : PrefixProof) (version : ℕ)
    (binaryLadder : List BinaryLadderStep) (targetCommitment : Octets) (ladders : Ladders) :
    Result (Octets × Bool × Ladders) := do
  ensure (pp.results.length = 1)
    s!"Expected a single-lookup PrefixProof, got {pp.results.length} results"
  let inclusion := pp.results.head?.any (·.resultType = 1)
  let (_, out, ladders) ← c.ladderStep P (constructVrfInput label version)
    s!"VRF verify failed at v={version}" binaryLadder version ladders
  let commitment := if inclusion then some targetCommitment else none
  let (root, consumed) ← PrefixVerifier.computeRootFromResult P pp 0 out commitment 0
  ensure (consumed = pp.elements.length) "Single-lookup PrefixProof has unused elements"
  return (root, inclusion, ladders)

/-! ### Monitoring ladders -/

/-- One turn of the loop of `verify_monitoring_ladder`. -/
def verifyMonitoringLookup (material : ℕ → Option (Octets × Option Octets)) (pp : PrefixProof)
    (j v elementsOffset : ℕ) (computedRoot : Option Octets) : Result (ℕ × Option Octets) := do
  ensure (pp.results[j]?.any (·.resultType = 1))
    s!"Monitoring lookup for v={v} is not an inclusion proof"
  let (vrfOutput, commitment) ← okOr (material v) s!"No retained material for v={v}"
  let commitment ← okOr commitment s!"No retained commitment for v={v}"
  let (root, consumed) ←
    PrefixVerifier.computeRootFromResult P pp j vrfOutput (some commitment) elementsOffset
  let computedRoot ← agreeingRoot computedRoot root
    "Monitoring ladder results disagree on prefix-tree root"
  return (elementsOffset + consumed, computedRoot)

def verifyMonitoringLookups (material : ℕ → Option (Octets × Option Octets)) (pp : PrefixProof) :
    ℕ → List ℕ → ℕ → Option Octets → Result (ℕ × Option Octets)
  | _, [], elementsOffset, computedRoot => .ok (elementsOffset, computedRoot)
  | j, v :: versions, elementsOffset, computedRoot => do
    let (elementsOffset, computedRoot) ←
      verifyMonitoringLookup P material pp j v elementsOffset computedRoot
    verifyMonitoringLookups material pp (j + 1) versions elementsOffset computedRoot

/-- Every lookup of a monitoring ladder must show inclusion, with the VRF outputs and
commitments retained from earlier searches. -/
def verifyMonitoringLadder (material : ℕ → Option (Octets × Option Octets)) (pp : PrefixProof)
    (target : ℕ) : Result Octets := do
  let versions := monitoringBinaryLadder target []
  ensure (pp.results.length = versions.length)
    s!"Monitoring ladder has {pp.results.length} results, expected {versions.length}"
  let (elementsOffset, computedRoot) ← verifyMonitoringLookups P material pp 0 versions 0 none
  ensure (elementsOffset = pp.elements.length) "Monitoring ladder has unused proof elements"
  okOr computedRoot "Monitoring ladder contained no results"

/-! ### Owner ladders -/

/-- The greatest version a full ladder shows, found by trying the targets it can have
been made for. -/
def ownerGreatest (results : List PrefixSearchResult) : Option ℕ :=
  if results.length = 1 ∧ results.head?.any (·.resultType ≠ 1) then none
  else
    ((List.range (results.length + 1)).findSome? fun cand =>
      match decodeSearchLadder results cand with
      | .ok d =>
        if d.length = results.length then
          some ((d.filter DecodedLookup.inclusion).map DecodedLookup.version).max?
        else none
      | .error _ => none).join

/-- One turn of the loop of `verify_owner_ladder`. -/
def verifyOwnerLookup (c : KtClient) (label : Octets) (pp : PrefixProof) (greatest : Option ℕ)
    (binaryLadder : List BinaryLadderStep) (j : ℕ) (lk : DecodedLookup) (elementsOffset : ℕ)
    (computedRoot : Option Octets) (ladders : Ladders) :
    Result (ℕ × Option Octets × Ladders) := do
  ensure (¬ (lk.inclusion ∧ ∀ g ∈ greatest, g < lk.version))
    s!"Owner ladder shows v={lk.version} beyond the claimed greatest"
  let (step, out, ladders) ← c.ladderStep P (constructVrfInput label lk.version)
    s!"Owner ladder VRF verify failed at v={lk.version}" binaryLadder lk.version ladders
  ensure (lk.inclusion → step.commitment.isSome)
    s!"Inclusion for v={lk.version} but ladder has no commitment"
  let commitment := if lk.inclusion then step.commitment else none
  let (root, consumed) ← PrefixVerifier.computeRootFromResult P pp j out commitment elementsOffset
  let computedRoot ← agreeingRoot computedRoot root
    "Owner ladder results disagree on prefix-tree root"
  return (elementsOffset + consumed, computedRoot, ladders)

def verifyOwnerLookups (c : KtClient) (label : Octets) (pp : PrefixProof) (greatest : Option ℕ)
    (binaryLadder : List BinaryLadderStep) : ℕ → List DecodedLookup → ℕ → Option Octets → Ladders →
      Result (ℕ × Option Octets × Ladders)
  | _, [], elementsOffset, computedRoot, ladders => .ok (elementsOffset, computedRoot, ladders)
  | j, lk :: decoded, elementsOffset, computedRoot, ladders => do
    let (elementsOffset, computedRoot, ladders) ← c.verifyOwnerLookup P label pp greatest
      binaryLadder j lk elementsOffset computedRoot ladders
    verifyOwnerLookups c label pp greatest binaryLadder (j + 1) decoded elementsOffset computedRoot
      ladders

/-- Verifies a full search ladder whose target is the entry's own greatest version.
Returns the entry's prefix root and its greatest existing version. -/
def verifyOwnerLadder (c : KtClient) (label : Octets) (pp : PrefixProof)
    (binaryLadder : List BinaryLadderStep) (ladders : Ladders) :
    Result (Octets × Option ℕ × Ladders) := do
  let greatest := ownerGreatest pp.results
  let target := greatest.getD 0
  let decoded ← decodeSearchLadder pp.results target
  ensure (decoded.length = pp.results.length)
    s!"Owner ladder does not match target version {target}"
  let (elementsOffset, computedRoot, ladders) ← c.verifyOwnerLookups P label pp greatest
    binaryLadder 0 decoded 0 none ladders
  ensure (elementsOffset = pp.elements.length) "Owner ladder has unused proof elements"
  let root ← okOr computedRoot "Owner ladder contained no results"
  return (root, greatest, ladders)

end KtClient

end KeyTransparency
