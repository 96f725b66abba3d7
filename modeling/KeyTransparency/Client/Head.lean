/-
# Verifying tree heads

The part of `src/client/core.rs` that every verified operation ends with: the
checks on the tree head and the auditor's head, the reconstruction of the log root
from what was kept, and the commit of the new state.
-/

import KeyTransparency.Client.State

namespace KeyTransparency

open LogMath

namespace KtClient

variable (P : Primitives)

def checkTimestampBounds (c : KtClient) (env : Env) (ts : U64) : Result Unit := do
  let now := env.now.getD ts
  ensure (ts.val ≤ saturatingAdd now.val c.config.maxAhead)
    "Tree head timestamp is too far ahead of local clock"
  ensure (now.val ≤ saturatingAdd ts.val c.config.maxBehind)
    "Tree head timestamp is too far behind local clock"

/-- The tree size of a head, its timestamp, and whether it is an updated one. -/
def treeSizeForFth (c : KtClient) (env : Env) (fth : FullTreeHead) :
    Result (ℕ × Option U64 × Bool) :=
  match fth.headType with
  | .same => do
    let prev ← okOr c.state
      "Server returned head_type=SAME but client has no previous tree head"
    (c.checkTimestampBounds env prev.timestamp).context
      "Retained tree head is stale (head_type=SAME)"
    return (prev.treeSize, some prev.timestamp, false)
  | .updated => do
    let th ← okOr fth.treeHead "FullTreeHead.head_type=updated but TreeHead is missing"
    match c.state with
    | some prev =>
      ensure (prev.treeSize < th.treeSize)
        s!"Updated head does not advance the tree: {th.treeSize} <= {prev.treeSize}"
    | none => pure ()
    return (th.treeSize, some (asU64 th.timestamp), true)
  | .reserved => fail "Unknown FullTreeHeadType: 0"
  | .unknown n => fail s!"Unknown FullTreeHeadType: {n}"

/-- The loop over the signatures of a head; any of them may match. -/
def verifyAnySignature (pk tbs : Octets) : Fault → List Signature → Result Unit
  | lastErr, [] => .error lastErr
  | _, sig :: sigs =>
    match P.verifyData pk tbs sig.signature with
    | .ok _ => .ok ()
    | .error e => verifyAnySignature pk tbs e sigs

def verifyTreeHeadSignature (c : KtClient) (th : TreeHead) (treeSize : ℕ) (rootHash : Octets) :
    Result Unit := do
  ensure (th.treeSize = treeSize) "TreeHead.tree_size mismatch"
  ensure (th.signatures ≠ []) "TreeHead has no signatures"
  let tbs ← (constructTreeHeadTbsPublic c.config treeSize rootHash).context
    "TreeHeadTBS construction failed"
  verifyAnySignature P c.sigPk tbs (.err "No matching TreeHead signature") th.signatures

/-- The log root at the auditor's size: the root itself, or the one of the captured
peaks. -/
def auditorRoot (auditorSize treeSize : ℕ) (candidateRoot : Octets) (captured : NodeMap) :
    Result Octets :=
  if auditorSize = treeSize then .ok candidateRoot
  else do
    let peaks ← okOr ((getRoots auditorSize).mapM captured)
      "Proof lacks the data to derive the root at the auditor's tree size"
    LogAccumulator.accumulatorFromPeaks P auditorSize peaks

def verifyAuditorTreeHead (c : KtClient) (fth : FullTreeHead) (th : TreeHead) (treeSize : ℕ)
    (candidateRoot : Octets) (captured : NodeMap) : Result (ℕ × U64) := do
  let ath ← okOr fth.auditorTreeHead "Missing AuditorTreeHead in third-party-auditing mode"
  ensure (∀ prev ∈ c.auditorHead, c.config.auditorStartPos ≤ prev.1)
    "Auditor started after the previously verified auditor position"
  let rightmostTs := asU64 th.timestamp
  let auditorTs := asU64 ath.timestamp
  ensure (auditorTs.val ≤ rightmostTs.val) "Auditor timestamp is ahead of the rightmost log entry"
  ensure (rightmostTs.val - auditorTs.val ≤ c.config.maxAuditorLag)
    "Auditor tree head exceeds max_auditor_lag"
  ensure (ath.treeSize ≤ th.treeSize) "Auditor tree size exceeds the log's tree size"
  let auditorRoot ← auditorRoot P ath.treeSize treeSize candidateRoot captured
  let tbs ← (constructAuditorTreeHeadTbsPublic c.config ath.treeSize auditorTs auditorRoot).context
    "AuditorTreeHeadTBS construction failed"
  let apkBytes ← okOr c.config.auditorPublicKey "No auditor public key configured"
  let apk ← (serviceVerifyingKey P apkBytes).context "Invalid auditor public key"
  (P.verifyData apk tbs ath.signature).context "Auditor signature verification failed"
  return (ath.treeSize, auditorTs)

/-- The nodes whose values `verify_head_and_commit` captures. -/
def wantedNodes (c : KtClient) (fth : FullTreeHead) (treeSize : ℕ) (extraWanted : List ℕ) :
    List ℕ :=
  getRoots treeSize ++ extraWanted ++
    match fth.auditorTreeHead with
    | some ath =>
      if c.config.mode = deploymentModeThirdPartyAuditing ∧ 0 < ath.treeSize ∧
          ath.treeSize < treeSize then
        getRoots ath.treeSize
      else []
    | none => []

/-- The shared tail of every verified operation: reconstructs the log root with the
retained subtrees, verifies the signatures and commits the new state. -/
def verifyHeadAndCommit (c : KtClient) (fth : FullTreeHead) (treeSize : ℕ)
    (timestamp : Option U64) (fthIsUpdated : Bool) (positions : List ℕ) (leafHashes : List Octets)
    (inclusionElements : List Octets) (extraWanted : List ℕ) : Result (NodeMap × KtClient) := do
  let (candidateRoot, captured) ← (LogVerifier.calculateRootCapturing P positions leafHashes treeSize
    inclusionElements c.retainedSubtrees (c.wantedNodes fth treeSize extraWanted)).context
    "Log tree root reconstruction failed"
  if fthIsUpdated then
    let th ← okOr fth.treeHead "FullTreeHead.head_type=updated but TreeHead is missing"
    (c.verifyTreeHeadSignature P th treeSize candidateRoot).context
      "TreeHead signature verification failed"
    let auditorHead ←
      if c.config.mode = deploymentModeThirdPartyAuditing then do
        let head ← (c.verifyAuditorTreeHead P fth th treeSize candidateRoot captured).context
          "AuditorTreeHead verification failed"
        pure (some head)
      else pure c.auditorHead
    return (captured, { c with
      auditorHead := auditorHead
      retainedHead := some th
      state := some ⟨treeSize, candidateRoot, timestamp.getD 0⟩
      retainedSubtrees := fun id => if id ∈ getRoots treeSize then captured id else none })
  else
    let prev ← okOr c.state "SAME head without previous state"
    ensure (candidateRoot = prev.rootHash)
      "SAME head but proofs do not reconstruct the retained root"
    return (captured, c)

end KtClient

end KeyTransparency
