/-
# Gathering the proof of a walk

`TraversalSession` of `src/tree/walker.rs`: a walk over the log notes the entries it
visits, the ladders it proves and the steps of the binary ladder, each in the order in
which the verifier will ask for it; `finalize` makes the combined proof of them.  With it
what a walk reads of a label, from `src/tree/read.rs`.

The prefix tree's cache is left out: it changes no answer (`searchLoop_answers`).
-/

import KeyTransparency.Tree.Frontier
import KeyTransparency.Tree.Write

namespace KeyTransparency

namespace Tree

/-! ### Reading a label -/

/-- None when no version of the label existed in the entry's prefix tree. -/
def getMaxVersionAt (t : Tree) (labelHistory : List (ℕ × ℕ)) (logPos : ℕ) : Option ℕ :=
  let logPrefixPtr := (t.store.prefixPtr logPos).getD 0
  ((labelHistory.filter fun h => h.2 ≤ logPrefixPtr).map Prod.fst).max?

/-- The value of a version and its opening. -/
def extractValueAndOpening (t : Tree) (history : List (ℕ × ℕ)) (ver : ℕ) :
    Result (UpdateValue × Octets) :=
  match (history.find? fun h => h.1 = ver).map Prod.snd with
  | some p =>
    match t.store.opening p with
    | some op => .ok (⟨(t.store.value p).getD []⟩, op)
    | none => .error (.kt .unavailable)
  | none => .error (.kt .unavailable)

variable (P : Primitives)

/-- One turn of the loop of `generate_ladder_proof`. -/
def ladderLookup (t : Tree) (prefixPtr : ℕ) (label : Octets) (v : ℕ) : Result (ℕ × ProofResult) := do
  let (idx, _) ← t.config.vrfProve P label v
  let (res, _) ← PrefixTree.searchForProof P dropAll t.store prefixPtr idx Nodes.cold
  return (v, res)

/-- The proof for the versions and, for each of them, the commitment when it is
included. -/
def generateLadderProof (t : Tree) (prefixPtr : ℕ) (label : Octets) (versions : List ℕ) :
    Result (PrefixProof × List (ℕ × Option Octets)) := do
  let found ← versions.mapM (t.ladderLookup P prefixPtr label)
  return (⟨found.map fun e => e.2.searchResult, found.flatMap fun e => e.2.inclusionProof⟩,
    found.map fun e => (e.1, e.2.commitment))

end Tree

structure TraversalSession where
  label : Octets
  tsOrder : List ℕ
  timestamps : ℕ → Option U64
  prefixProofs : List (ℕ × PrefixProof)
  availableRoots : ℕ → Option Octets
  /-- One step for each version, with its version. -/
  binaryLadder : List (ℕ × BinaryLadderStep)
  foundValue : Option UpdateValue
  foundOpening : Octets

namespace TraversalSession

variable (P : Primitives) (t : Tree)

def new (label : Octets) : TraversalSession :=
  ⟨label, [], fun _ => none, [], fun _ => none, [], none, []⟩

def addNode (s : TraversalSession) (idx : ℕ) (ts : U64) : TraversalSession :=
  if idx ∈ s.tsOrder then s
  else { s with
    tsOrder := s.tsOrder ++ [idx], timestamps := Function.update s.timestamps idx (some ts) }

def addProof (s : TraversalSession) (idx : ℕ) (proof : PrefixProof) : TraversalSession :=
  { s with prefixProofs := s.prefixProofs ++ [(idx, proof)] }

/-- Entries touched without a proof surface their prefix root instead. -/
def visitTimestampOnly (nodeIdx : ℕ) (s : TraversalSession) : Result TraversalSession := do
  let ts ← LogTree.getTimestamp t.store nodeIdx
  let s := s.addNode nodeIdx ts
  match LogTree.getPrefixRoot t.store nodeIdx with
  | .ok root => return { s with
      availableRoots := Function.update s.availableRoots nodeIdx
        (some ((s.availableRoots nodeIdx).getD root)) }
  | .error _ => return s

def visitAll : List ℕ → TraversalSession → Result TraversalSession
  | [], s => .ok s
  | node :: nodes, s => do
    let s ← visitTimestampOnly t node s
    visitAll nodes s

def visitFrontier (treeSize : ℕ) (s : TraversalSession) : Result TraversalSession :=
  visitAll t (LogMath.getFrontier treeSize) s

/-- The step of a version that was looked up before takes over the commitment, if it
has none. -/
def fillStep (ver : ℕ) (commitment : Option Octets) (e : ℕ × BinaryLadderStep) :
    ℕ × BinaryLadderStep :=
  if e.1 = ver ∧ e.2.commitment = none then (e.1, { e.2 with commitment := commitment }) else e

/-- One turn of the loop over the results of a ladder.  The commitment of the target
version is recomputed from its opening and value. -/
def addStep (extractTarget : Option ℕ) (result : ℕ × Option Octets) (s : TraversalSession) :
    Result TraversalSession :=
  let commitment := if extractTarget = some result.1 then none else result.2
  if result.1 ∈ s.binaryLadder.map Prod.fst then
    .ok { s with binaryLadder := s.binaryLadder.map (fillStep result.1 commitment) }
  else do
    let (_, vrfProof) ← t.config.vrfProve P s.label result.1
    return { s with binaryLadder := s.binaryLadder ++ [(result.1, ⟨vrfProof, commitment⟩)] }

def addSteps (extractTarget : Option ℕ) :
    List (ℕ × Option Octets) → TraversalSession → Result TraversalSession
  | [], s => .ok s
  | result :: results, s => do
    let s ← addStep P t extractTarget result s
    addSteps extractTarget results s

/-- Visits an entry with the ladder of the versions, and fetches the value and the
opening of the version to extract. -/
def visit (nodeIdx : ℕ) (versionsToProve : List ℕ) (extractTarget : Option ℕ)
    (s : TraversalSession) : Result TraversalSession := do
  let ts ← LogTree.getTimestamp t.store nodeIdx
  let s := s.addNode nodeIdx ts
  let prefixPtr ← LogTree.getPrefixPtr t.store nodeIdx
  let (proof, results) ← t.generateLadderProof P prefixPtr s.label versionsToProve
  let s ← addSteps P t extractTarget results (s.addProof nodeIdx proof)
  match extractTarget with
  | none => return s
  | some targetVer => do
    let (value, opening) ← t.extractValueAndOpening (t.store.history s.label) targetVer
    return { s with foundValue := some value, foundOpening := opening }

/-- The combined proof: timestamps and proofs in the order of the visits, and the
prefix roots of the entries without a proof from left to right. -/
def finalize (s : TraversalSession) (treeSize consistencyLast : ℕ) : Result CombinedTreeProof := do
  let rootless := (s.tsOrder.filter fun idx => idx ∉ s.prefixProofs.map Prod.fst).mergeSort (· ≤ ·)
  let elements ← t.inclusionProof P (s.tsOrder.mergeSort (· ≤ ·)) treeSize consistencyLast
  return ⟨s.tsOrder.filterMap s.timestamps, s.prefixProofs.map Prod.snd,
    rootless.filterMap s.availableRoots, some ⟨elements⟩⟩

/-- The steps of the binary ladder, without their versions. -/
def ladder (s : TraversalSession) : List BinaryLadderStep := s.binaryLadder.map Prod.snd

end TraversalSession

end KeyTransparency
