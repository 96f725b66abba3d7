/-
# Auditing

`src/tree/audit.rs`: what the server hands to an auditor, and the auditor heads it
accepts.  The auditor keys are a map in the source; here they are a list in the
order the map is gone through, and a head is kept under the key itself rather
than under its hexadecimal name.
-/

import KeyTransparency.Tree.Basic
import KeyTransparency.Tree.Log

namespace KeyTransparency

namespace Tree

variable (P : Primitives)

/-- The blobs of `audit`, from an index on. -/
def auditUpdates (s : Store) : ℕ → ℕ → Result (List AuditorUpdate)
  | _, 0 => .ok []
  | i, count + 1 => do
    let update ← okOr (s.auditBlob i) s!"Missing audit blob for log index {i}"
    let updates ← auditUpdates s (i + 1) count
    return update :: updates

def audit (t : Tree) (start limit : ℕ) : Result (List AuditorUpdate × Bool) := do
  ensure (start ≤ t.treeSize) "Auditing cannot start past end of tree"
  if start = t.treeSize then return ([], false)
  else
    let last := min (start + limit) t.treeSize
    let updates ← auditUpdates t.store start (last - start)
    return (updates, decide (last < t.treeSize))

/-- `audit_bootstrap`: what an auditor needs to start at the current size. -/
def auditBootstrap (t : Tree) : Result AuditBootstrapResponse := do
  let th ← okOr t.latest "Empty tree"
  let logPeaks ← (LogMath.getRoots th.treeSize).mapM fun node =>
    LogTree.resolveNode P t.store 64 node th.treeSize
  let prefixRoot ← LogTree.getPrefixRoot t.store (th.treeSize - 1)
  let timestamp ← LogTree.getTimestamp t.store (th.treeSize - 1)
  return ⟨some th, logPeaks, prefixRoot, timestamp⟩

/-- The loop over the auditor keys: the first one under which the signature of the
head verifies. -/
def matchAuditor (config : PrivateConfig) (head : AuditorTreeHead) (rootHash : Octets) :
    List (Octets × Octets) → Result (Option Octets)
  | [] => .ok none
  | (auditorPk, key) :: keys => do
    let tbs ← constructAuditorTreeHeadTbs P config auditorPk head.treeSize (asU64 head.timestamp)
      rootHash
    match P.verifyData key tbs head.signature with
    | .ok _ => return some auditorPk
    | .error _ => matchAuditor config head rootHash keys

/-- The rewind check against the head accepted before. -/
def checkRegression (head : AuditorTreeHead) : Option AcceptedAuditorHead → Result Unit
  | none => .ok ()
  | some existing => do
    ensure (existing.treeSize ≤ head.treeSize)
      s!"Auditor tree size regression: {head.treeSize} < {existing.treeSize}"
    ensure (existing.timestamp ≤ head.timestamp)
      s!"Auditor timestamp regression: {head.timestamp} < {existing.timestamp}"

def setAuditorHead (t : Tree) (head : AuditorTreeHead) (auditorKeys : List (Octets × Octets)) :
    Result Tree := do
  ensure (head.treeSize ≤ t.treeSize) "Auditor tree head is ahead of service tree head"
  let rootHash ← LogTree.getRoot P t.store head.treeSize
  let verified ← matchAuditor P t.config head rootHash auditorKeys
  let auditor ← okOr verified "Failed to verify auditor signature"
  checkRegression head (t.auditors.lookup auditor)
  let consistency ←
    if head.treeSize < t.treeSize then
      LogTree.getConsistencyProof P t.store head.treeSize t.treeSize
    else .ok []
  let accepted : AcceptedAuditorHead :=
    ⟨head.treeSize, head.timestamp, head.signature, rootHash, consistency⟩
  return { t with auditors := (auditor, accepted) :: t.auditors.filter fun a => a.1 != auditor }

end Tree

end KeyTransparency
