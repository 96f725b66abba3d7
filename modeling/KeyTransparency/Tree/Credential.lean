/-
# Issuing credentials

`get_credential` and `get_credential_update` of `src/tree/credential.rs`.  A credential
is standard when a distinguished entry holds the label's last version, and otherwise a
search for the greatest version that starts from the last distinguished entry.
-/

import KeyTransparency.Tree.Traversal

namespace KeyTransparency

open BinaryLadder

namespace Tree

variable (P : Primitives) (t : Tree)

/-- The most recent distinguished entry that holds an update. -/
def standardNode (targetPtr : ℕ) : List ℕ → Result (Option ℕ)
  | [] => .ok none
  | nodeIdx :: nodes => do
    let logPtr ← LogTree.getPrefixPtr t.store nodeIdx
    if targetPtr ≤ logPtr then return some nodeIdx else standardNode targetPtr nodes

/-- The steps of a standard credential's ladder; the target's commitment is recomputed
from the value. -/
def credentialSteps (label : Octets) (targetVer : ℕ) (ladderResults : List (ℕ × Option Octets)) :
    Result (List BinaryLadderStep) :=
  ladderResults.mapM fun (ver, comm) => do
    let (_, vrfProof) ← t.config.vrfProve P label ver
    return ⟨vrfProof, if ver = targetVer then none else comm⟩

def getCredential (req : GetCredentialRequest) : Result Credential :=
  let treeSize := t.treeSize
  if treeSize = 0 then fail "Log is empty"
  else do
    let labelHistory := t.store.history req.label
    let targetVer ← okOr (labelHistory.getLast?.map Prod.fst) "Key not found"
    let targetPtr ← ((labelHistory.find? fun h => h.1 = targetVer).map Prod.snd).elim
      (.error (.panic "called `Option::unwrap()` on a `None` value")) .ok
    let distinguishedNodes ← t.findDistinguishedNodes treeSize
    let standard ← t.standardNode targetPtr distinguishedNodes.reverse
    let (value, opening) ← t.extractValueAndOpening labelHistory targetVer
    match standard with
    | some distNode => do
      let n ← okOr (t.getMaxVersionAt labelHistory distNode)
        "Label absent at its own distinguished entry"
      let prefixPtr ← LogTree.getPrefixPtr t.store distNode
      let (prefixProof, ladderResults) ← t.generateLadderProof P prefixPtr req.label
        (searchBinaryLadder targetVer n [] [])
      let steps ← t.credentialSteps P req.label targetVer ladderResults
      return {
        label := req.label
        version := targetVer
        opening := opening
        value := some value
        binaryLadder := steps
        position := distNode
        credentialType := .standard
        distinguished := some prefixProof
        treeHead := none
        search := none }
    | none => do
      let position ← okOr distinguishedNodes.getLast?
        "No distinguished log entry to anchor a credential"
      let result ← t.traverseGreatestSearch P treeSize req.label (position + 1)
      return {
        label := req.label
        version := result.greatestVersion
        opening := result.opening
        value := result.value
        binaryLadder := result.binaryLadder
        position := position
        credentialType := .provisional
        distinguished := none
        treeHead := t.latest
        search := some result.combinedProof }

/-- The monitor proof is computed against the tree as it was with the distinguished
entry as its last. -/
def getCredentialUpdate (req : GetCredentialUpdateRequest) : Result CredentialUpdate :=
  let treeSize := t.treeSize
  if treeSize = 0 then fail "Log is empty"
  else do
    let distinguished ← t.findDistinguishedNodes treeSize
    let position ← okOr (distinguished.find? (req.terminalPosition < ·))
      "No distinguished log entry to the right of the terminal entry yet"
    let monitor ← t.traverseContactMonitoring P (position + 1) req.label
      [⟨req.terminalPosition, req.terminalVersion⟩] 0
    return ⟨position, some monitor⟩

end Tree

end KeyTransparency
