/-
# The auditor

`KtAuditor` of `src/client/auditor.rs`: it replays the server's audit records into an
accumulator of the log and signs the size it has come to.  The records before one that
it rejects stay processed.
-/

import KeyTransparency.Client.LogVerifier
import KeyTransparency.Client.Transition
import KeyTransparency.Crypto.Signing

namespace KeyTransparency

structure KtAuditor where
  signer : Octets
  logAccumulator : LogAccumulator
  prefixRoot : Octets
  lastTimestamp : U64
  config : PublicConfig

namespace KtAuditor

variable (P : Primitives)

def new (signer : Octets) (config : PublicConfig) : KtAuditor :=
  ⟨signer, .new, Octets.zeros 32, 0, config⟩

/-- `bootstrap`, on what the server's `audit_bootstrap` returns: the size of the head, which
the auditor adopts with the peaks, the prefix root and the timestamp beside it. -/
def bootstrap (a : KtAuditor) (resp : AuditBootstrapResponse) : Result (ℕ × KtAuditor) := do
  let th ← okOr resp.treeHead "Missing TreeHead"
  let acc ← LogAccumulator.fromPeaks th.treeSize resp.logPeaks
  let root ← acc.calculateRoot P
  let tbs ← constructTreeHeadTbsPublic a.config th.treeSize root
  let serverPk ← serviceVerifyingKey P a.config.serverSigPk
  let sig ← okOr th.signatures.head? "TreeHead has no signatures"
  (P.verifyData serverPk tbs sig.signature).context "Operator tree head signature verification failed"
  return (th.treeSize, { a with
    logAccumulator := acc
    prefixRoot := resp.prefixRoot
    lastTimestamp := resp.timestamp })

/-- The windows of a list are sorted by VRF output. -/
def checkSorted : List PrefixLeaf → Result Unit
  | a :: b :: leaves => do
    ensure (¬ b.vrfOutput ≤ a.vrfOutput) "Audit leaves are not sorted ascending without duplicates"
    checkSorted (b :: leaves)
  | _ => .ok ()

/-- The kinds of the results of the leaves added. -/
def checkAdded (removedKeys : List Octets) : List (PrefixLeaf × PrefixSearchResult) → Result Unit
  | [] => .ok ()
  | (leaf, result) :: added => do
    ensure (leaf.vrfOutput ∈ removedKeys ∨ result.resultType ≠ 1)
      "Added leaf has an inclusion result but is not being removed"
    checkAdded removedKeys added

/-- The kinds of the results of the leaves removed. -/
def checkRemoved : List PrefixSearchResult → Result Unit
  | [] => .ok ()
  | result :: removed => do
    ensure (result.resultType = 1) "Removed leaf lacks an inclusion result"
    checkRemoved removed

/-- The checks on a record before its transition; its proof. -/
def checkUpdate (a : KtAuditor) (update : AuditorUpdate) : Result PrefixProof := do
  ensure (a.lastTimestamp ≤ update.timestamp) "Time regression detected"
  checkSorted update.added
  checkSorted update.removed
  let proof ← okOr update.proof "Missing prefix proof"
  ensure (proof.results.length = update.added.length + update.removed.length)
    "Audit proof result count mismatch"
  let removedKeys := update.removed.map PrefixLeaf.vrfOutput
  checkAdded removedKeys (update.added.zip proof.results)
  checkRemoved (proof.results.drop update.added.length)
  return proof

def processUpdate (a : KtAuditor) (update : AuditorUpdate) : Result KtAuditor := do
  let proof ← a.checkUpdate update
  let newPrefixRoot ← (PrefixTransitioner.verifyAndTransition P a.prefixRoot update.added update.removed
    proof).context "Prefix tree transition verification failed"
  let leafHash := logLeafValue P update.timestamp newPrefixRoot
  return { a with
    logAccumulator := a.logAccumulator.appendLeaf P leafHash
    prefixRoot := newPrefixRoot
    lastTimestamp := update.timestamp }

/-- The loop over the records. -/
def processUpdates (a : KtAuditor) : List AuditorUpdate → Result Unit × KtAuditor
  | [] => (.ok (), a)
  | update :: updates =>
    match a.processUpdate P update with
    | .ok a => processUpdates a updates
    | .error e => (.error e, a)

/-- The head that the auditor signs. -/
def signHead (a : KtAuditor) : Result AuditorTreeHead := do
  let newLogRoot ← a.logAccumulator.calculateRoot P
  let treeSize := a.logAccumulator.treeSize
  let tbs ← constructAuditorTreeHeadTbsPublic a.config treeSize a.lastTimestamp newLogRoot
  return ⟨treeSize, asI64 a.lastTimestamp, P.signData a.signer tbs⟩

/-- `process_and_sign`, on what the server's `audit` returns from the auditor's size on; the
head goes to its `set_auditor_head`. -/
def processAndSign (a : KtAuditor) (audit : ℕ → ℕ → Result (List AuditorUpdate × Bool))
    (setAuditorHead : AuditorTreeHead → Result Unit) : Result Unit × KtAuditor :=
  match audit a.logAccumulator.treeSize 10 with
  | .error e => (.error e, a)
  | .ok ([], _) => (.ok (), a)
  | .ok (updates, _) =>
    match a.processUpdates P updates with
    | (.error e, a) => (.error e, a)
    | (.ok (), a) => (a.signHead P >>= setAuditorHead, a)

end KtAuditor

end KeyTransparency
