/-
# Verifying credentials

`verify_credential`, `credential_terminal` and `verify_credential_update` of
`src/client/core.rs`, which check a credential and its update against the retained
distinguished heads alone.  The first two share their walk over the frontier of the
credential's view (`frontierWalk`).
-/

import KeyTransparency.Client.Monitor

namespace KeyTransparency

open BinaryLadder LogMath LogVerifier

/-- The loop over a frontier, where a step verifies the ladder of an entry: the first
entry whose greatest version is the target. -/
def frontierWalk {σ : Type} (step : ℕ → σ → Result (Ordering × σ)) :
    List ℕ → Option ℕ → σ → Result (Option ℕ × σ)
  | [], firstEqual, s => .ok (firstEqual, s)
  | entry :: entries, firstEqual, s => do
    let (relation, s) ← step entry s
    frontierWalk step entries (if relation = .eq ∧ firstEqual = none then some entry else firstEqual) s

/-- `frontier.last().unwrap()`. -/
def rightmostOf (frontier : List ℕ) : Result ℕ :=
  frontier.getLast?.elim (.error (.panic "called `Option::unwrap()` on a `None` value")) .ok

namespace KtClient

variable (P : Primitives)

/-! ### The terminal entry -/

/-- Verifies the next prefix proof as the ladder of an entry, whose root is not used. -/
def terminalStep (c : KtClient) (cred : Credential) (targetCommitment : Octets) (rightmost entry : ℕ)
    (s : ProofReader × Ladders) : Result (Ordering × ProofReader × Ladders) := do
  let (pp, reader) ← s.1.prefixProof
  let (_, relation, ladders) ← c.verifyLadderProof P cred.label pp cred.version cred.binaryLadder
    targetCommitment true (entry == rightmost) s.2
  return (relation, reader, ladders)

/-- The terminal entry of a provisional credential's search: the leftmost one of its
frontier with the greatest version. -/
def credentialTerminal (c : KtClient) (cred : Credential) : Result ℕ := do
  let th ← okOr cred.treeHead "Provisional credential missing TreeHead"
  let proof ← okOr cred.search "Provisional credential missing search proof"
  let value ← okOr cred.value "Missing credential value"
  let targetCommitment ← commit P cred.label cred.version value.value none cred.opening
  let reader ← (ProofReader.new proof).timestamps (getFrontier th.treeSize)
  let rightmost ← rightmostOf (getFrontier th.treeSize)
  let (firstEqual, _) ← frontierWalk (c.terminalStep P cred targetCommitment rightmost)
    (getFrontier th.treeSize) none (reader, .new (baseBinaryLadder cred.version))
  return firstEqual.getD rightmost

/-! ### Credentials -/

/-- Verifies the next prefix proof as the ladder of an entry of the provisional view. -/
def credentialStep (c : KtClient) (cred : Credential) (targetCommitment : Octets) (rightmost entry : ℕ)
    (s : SearchState) : Result (Ordering × SearchState) := do
  let (pp, reader) ← s.reader.prefixProof
  let (root, relation, ladders) ← (c.verifyLadderProof P cred.label pp cred.version cred.binaryLadder
    targetCommitment true (entry == rightmost) s.ladders).context
      s!"Credential ladder verification failed at entry {entry}"
  let entryRoots ← ProofReader.recordEntryRoot s.entryRoots entry root
  return (relation, ⟨reader, ladders, entryRoots⟩)

/-- A ladder of the anchor itself. -/
def verifyStandard (c : KtClient) (cred : Credential) (anchor : DistinguishedEntry)
    (targetCommitment : Octets) : Result Unit := do
  let pp ← okOr cred.distinguished "Standard credential missing distinguished PrefixProof"
  let (root, _, ladders) ← (c.verifyLadderProof P cred.label pp cred.version cred.binaryLadder
    targetCommitment true true (.new [])).context "Credential ladder verification failed"
  ensure (cred.binaryLadder.length = ladders.wireIndex.length)
    "Credential binary ladder has unused steps"
  ensure (root = anchor.root) "Credential does not bind to the retained distinguished entry"

/-- A search for the greatest version over a view that extends the anchor, verified
without touching any of the client's own state. -/
def verifyProvisional (c : KtClient) (cred : Credential) (anchor : DistinguishedEntry)
    (targetCommitment : Octets) : Result Unit := do
  let th ← okOr cred.treeHead "Provisional credential missing TreeHead"
  let proof ← okOr cred.search "Provisional credential missing search proof"
  -- step 1
  ensure (cred.position < th.treeSize) "Provisional view does not extend past the anchor"
  ensure (cred.binaryLadder.length = (baseBinaryLadder cred.version).length)
    "Credential binary ladder length mismatch"
  -- step 2
  let reader ← (ProofReader.new proof).timestamps (getFrontier th.treeSize)
  let rightmost ← rightmostOf (getFrontier th.treeSize)
  let (firstEqual, s) ← frontierWalk (c.credentialStep P cred targetCommitment rightmost)
    (getFrontier th.treeSize) none ⟨reader, .new (baseBinaryLadder cred.version), fun _ => none⟩
  ensure (cred.position < firstEqual.getD rightmost)
    "Provisional credential for a version already covered by the anchor"
  -- step 3
  let leafData ← s.reader.finish s.entryRoots
  let inclusion ← okOr proof.inclusion "Missing inclusion proof"
  let (candidateRoot, _) ← (calculateRootCapturing P (leafData.map Prod.fst)
    (leafData.map fun d => logLeafValue P d.2.1 d.2.2) th.treeSize inclusion.elements
    (fun id => ((getRoots (cred.position + 1)).zip anchor.peaks).lookup id) []).context
      "Provisional view reconstruction failed"
  -- step 4
  (c.verifyTreeHeadSignature P th th.treeSize candidateRoot).context
    "Provisional TreeHead signature verification failed"

def verifyCredential (c : KtClient) (cred : Credential) : Result Unit := do
  let anchor ← okOr (c.distinguishedEntries.get cred.position)
    "Credential anchors to an unknown distinguished log entry"
  let value ← okOr cred.value "Missing credential value"
  let targetCommitment ← (commit P cred.label cred.version value.value none cred.opening).context
    "Commitment computation failed"
  if cred.credentialType = .standard then c.verifyStandard P cred anchor targetCommitment
  else if cred.credentialType ≠ .provisional then fail "Unknown credential type"
  else c.verifyProvisional P cred anchor targetCommitment

/-! ### Credential updates -/

/-- The material of the versions up to the credential's, recovered from the credential
itself: the target's commitment from its value and opening, each lower version's from
the credential's own binary ladder. -/
def credentialMaterial (c : KtClient) (cred : Credential) (targetCommitment : Octets) :
    List (BinaryLadderStep × ℕ) → (ℕ → Option (Octets × Option Octets)) →
      Result (ℕ → Option (Octets × Option Octets))
  | [], material => .ok material
  | (step, v) :: steps, material =>
    if cred.version < v then c.credentialMaterial cred targetCommitment steps material
    else do
      let vrfInput ← constructVrfInput cred.label v
      let vrfOutput ← P.ecvrfVerify c.config.cipherSuite c.vrfPk vrfInput step.proof
      let comm ← (
        if v = cred.version then pure targetCommitment
        else okOr step.commitment s!"Credential ladder missing commitment for v={v}")
      c.credentialMaterial cred targetCommitment steps
        (Function.update material v (some (vrfOutput, some comm)))

/-- The monitoring ladders along the ancestors of the terminal entry. -/
def updateLadders (material : ℕ → Option (Octets × Option Octets)) (version : ℕ) :
    List ℕ → ProofReader → NodeMap → Result (ProofReader × NodeMap)
  | [], reader, entryRoots => .ok (reader, entryRoots)
  | e :: list, reader, entryRoots => do
    let (_, reader) ← reader.timestamp e
    let (pp, reader) ← reader.prefixProof
    let root ← (verifyMonitoringLadder P material pp version).context
      s!"CredentialUpdate ladder failed at entry {e}"
    let entryRoots ← ProofReader.recordEntryRoot entryRoots e root
    updateLadders material version list reader entryRoots

/-- The first retained distinguished entry right of a terminal entry. -/
def firstRight (c : KtClient) (terminal : ℕ) : Option ℕ :=
  ((c.distinguishedEntries.entries.map Prod.fst).filter (terminal < ·)).min?

/-- `verify_credential_update`, whose walk to the terminal entry is `ancestorLoop`: it
goes on below distinguished entries only. -/
def verifyCredentialUpdate (c : KtClient) (cred : Credential) (update : CredentialUpdate) :
    Result Unit := do
  let terminal ← c.credentialTerminal P cred
  -- step 1
  let anchor ← okOr (c.distinguishedEntries.get update.position)
    "CredentialUpdate anchors to an unknown distinguished log entry"
  -- step 2
  ensure (c.firstRight terminal = some update.position)
    "CredentialUpdate position is not the first distinguished entry right of the search terminal"
  let proof ← okOr update.monitor "Missing monitor proof"
  let treeSize := update.position + 1
  let value ← okOr cred.value "Missing credential value"
  let targetCommitment ← commit P cred.label cred.version value.value none cred.opening
  let material ← c.credentialMaterial P cred targetCommitment
    (cred.binaryLadder.zip (baseBinaryLadder cred.version)) fun _ => none
  -- step 3
  let rmw := c.config.reasonableMonitoringWindow
  let reader ← (ProofReader.new proof).timestamps (getFrontier treeSize)
  let (rightmostTs, reader) ← reader.timestamp (treeSize - 1)
  let a ← ancestorLoop treeSize rmw terminal 65
    ⟨reader, (0, rightmostTs), true, fun _ => false, root treeSize⟩
  let (reader, entryRoots) ← updateLadders P material cred.version
    (contactList terminal treeSize a.ancestorDist) a.reader fun _ => none
  -- step 4
  let leafData ← reader.finish entryRoots
  let inclusion ← okOr proof.inclusion "Missing inclusion proof"
  let (candidateRoot, _) ← (calculateRootCapturing P (leafData.map Prod.fst)
    (leafData.map fun d => logLeafValue P d.2.1 d.2.2) treeSize inclusion.elements (fun _ => none)
    []).context "CredentialUpdate view reconstruction failed"
  let anchorRoot ← LogAccumulator.accumulatorFromPeaks P treeSize anchor.peaks
  ensure (candidateRoot = anchorRoot)
    "CredentialUpdate does not reconstruct the retained distinguished root"

end KtClient

end KeyTransparency
