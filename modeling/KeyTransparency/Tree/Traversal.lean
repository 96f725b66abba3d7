/-
# Answering searches and contact monitoring

The walks of `src/tree/traversal.rs` over the log and the requests that they answer,
from `src/tree/read.rs` and `src/tree/monitor.rs`.  One turn of the loop of
`traverse_fixed_search` is `fixedSearchStep`.
-/

import KeyTransparency.Tree.BinaryLadder
import KeyTransparency.Tree.DirectPath
import KeyTransparency.Tree.Distinguished
import KeyTransparency.Tree.Walker

namespace KeyTransparency

open BinaryLadder LogMath

structure SearchResultData where
  combinedProof : CombinedTreeProof
  binaryLadder : List BinaryLadderStep
  value : Option UpdateValue
  opening : Octets
  greatestVersion : ℕ

/-- The state of the walk of a search for a fixed version. -/
structure FixedSearch where
  session : TraversalSession
  expiredOnPath : Bool
  encounteredExpired : Bool
  leftPath : List (ℕ × U64)
  inspected : List (ℕ × Option ℕ)

/-- The state of the walk from the root towards an entry to monitor. -/
structure ContactAncestors where
  session : TraversalSession
  bounds : U64 × U64
  parentDist : Bool
  ancestorDist : ℕ → Bool
  curr : ℕ

namespace Tree

variable (P : Primitives) (t : Tree)

/-! ### Searches for the greatest version -/

/-- The ladder that shows how an entry's greatest version relates to the target; an
absent label yields a single non-inclusion lookup. -/
def searchLadder (target : ℕ) (n : Option ℕ) : List ℕ :=
  match n with
  | some n => searchBinaryLadder target n [] []
  | none => [0]

/-- The ladder of an entry that an owner starts from, targeting the entry's own greatest
version. -/
def ownerLadder (ver : Option ℕ) : List ℕ :=
  match ver with
  | some t => searchBinaryLadder t t [] []
  | none => [0]

/-- The loop over the frontier. -/
def greatestSearchLoop (labelHistory : List (ℕ × ℕ)) (target rightmost : ℕ) :
    List ℕ → TraversalSession → Result TraversalSession
  | [], session => .ok session
  | node :: nodes, session => do
    let session ← session.visit P t node (searchLadder target (t.getMaxVersionAt labelHistory node))
      (if node = rightmost then some target else none)
    greatestSearchLoop labelHistory target rightmost nodes session

def traverseGreatestSearch (treeSize : ℕ) (label : Octets) (consistencyLast : ℕ) :
    Result SearchResultData := do
  let labelHistory := t.store.history label
  let session ← (TraversalSession.new label).visitFrontier t treeSize
  let frontier := getFrontier treeSize
  let rightmost ← frontier.getLast?.elim
    (.error (.panic "called `Option::unwrap()` on a `None` value")) .ok
  -- every entry's ladder targets the claimed greatest version
  let target ← (t.getMaxVersionAt labelHistory rightmost).elim (.error (.kt .unavailable)) .ok
  let session ← greatestSearchLoop P t labelHistory target rightmost frontier session
  let proof ← session.finalize P t treeSize consistencyLast
  return ⟨proof, session.ladder, session.foundValue, session.foundOpening, target⟩

/-! ### Searches for a fixed version -/

def isExpired (rightmostTs ts : U64) : Bool :=
  t.config.maximumLifetime.any fun ml => ml ≤ rightmostTs.val - ts.val

def isUnexpiredDistinguished (rightmostTs : U64) (distinguished : List ℕ) (node : ℕ) (ts : U64) :
    Bool :=
  decide (node ∈ distinguished) && !t.isExpired rightmostTs ts

/-- One turn of the loop of `traverse_fixed_search`. -/
def fixedSearchStep (treeSize targetVer : ℕ) (labelHistory : List (ℕ × ℕ)) (rightmostTs : U64)
    (distinguished : List ℕ) (curr : ℕ) (w : FixedSearch) : Result (Walk × FixedSearch) := do
  let ts ← LogTree.getTimestamp t.store curr
  let rightChild := if isLeaf curr then none else ibstRightChild curr treeSize
  if t.isExpired rightmostTs ts then
    let session ← w.session.visitTimestampOnly t curr
    let w := { w with session := session, encounteredExpired := true, expiredOnPath := true }
    match rightChild with
    | some rc => return (.goto rc, { w with leftPath := w.leftPath ++ [(curr, ts)] })
    | none => return (.stop, w)
  else
    let n := t.getMaxVersionAt labelHistory curr
    let session ← w.session.visit P t curr (searchLadder targetVer n)
      (if n = some targetVer then some targetVer else none)
    let w := { w with session := session, inspected := w.inspected ++ [(curr, n)] }
    if n.all (· < targetVer) then
      match rightChild with
      | some rc => return (.goto rc, { w with leftPath := w.leftPath ++ [(curr, ts)] })
      | none => return (.stop, w)
    else if n.any (targetVer < ·) then
      if isLeaf curr then return (.stop, w) else return (.goto (leftChild curr), w)
    else if w.expiredOnPath = false ∨ t.isUnexpiredDistinguished rightmostTs distinguished curr ts ∨
        w.leftPath.any fun p => t.isUnexpiredDistinguished rightmostTs distinguished p.1 p.2 then
      return (.terminal curr, w)
    else .error (.kt .expired)

/-- The loop; the height of the tree bounds its turns. -/
def fixedSearchLoop (treeSize targetVer : ℕ) (labelHistory : List (ℕ × ℕ)) (rightmostTs : U64)
    (distinguished : List ℕ) : ℕ → ℕ → FixedSearch → Result (Bool × FixedSearch)
  | 0, _, _ => .error .diverge
  | fuel + 1, curr, w => do
    let (turn, w) ← fixedSearchStep P t treeSize targetVer labelHistory rightmostTs distinguished
      curr w
    match turn with
    | .goto entry =>
      fixedSearchLoop treeSize targetVer labelHistory rightmostTs distinguished fuel entry w
    | .stop => return (false, w)
    | .terminal _ => return (true, w)

/-- Whether an unexpired distinguished entry lies left of an entry. -/
def unexpiredDistinguishedLeft (rightmostTs : U64) (identified : ℕ) : List ℕ → Result Bool
  | [] => .ok false
  | d :: distinguished =>
    if identified ≤ d then .ok false
    else do
      let ts ← LogTree.getTimestamp t.store d
      if t.isExpired rightmostTs ts then
        unexpiredDistinguishedLeft rightmostTs identified distinguished
      else return true

/-- Step 6, where no entry has the version as its greatest one. -/
def fixedSearchLookup (targetVer : ℕ) (rightmostTs : U64) (distinguished : List ℕ)
    (w : FixedSearch) : Result TraversalSession := do
  let identified ← ((w.inspected.filter fun e => e.2.any (targetVer < ·)).map Prod.fst).min?.elim
    (.error (.kt .unavailable)) .ok
  let left ← (
    if w.encounteredExpired then
      t.unexpiredDistinguishedLeft rightmostTs identified distinguished
    else pure true)
  if left = false then .error (.kt .expired)
  else
    let session ← w.session.visit P t identified [targetVer] (some targetVer)
    if session.foundValue = none then .error (.kt .unavailable) else return session

def traverseFixedSearch (treeSize : ℕ) (label : Octets) (targetVer consistencyLast : ℕ) :
    Result SearchResultData := do
  let labelHistory := t.store.history label
  let rightmostTs ← LogTree.getTimestamp t.store (treeSize - 1)
  let distinguished ← t.findDistinguishedNodes treeSize
  let session ← (TraversalSession.new label).visitFrontier t treeSize
  let (success, w) ← fixedSearchLoop P t treeSize targetVer labelHistory rightmostTs distinguished 65
    (root treeSize) ⟨session, false, false, [], []⟩
  let session ← (
    if success then pure w.session
    else fixedSearchLookup P t targetVer rightmostTs distinguished w)
  let proof ← session.finalize P t treeSize consistencyLast
  return ⟨proof, session.ladder, session.foundValue, session.foundOpening, targetVer⟩

/-! ### Searches -/

def search (req : SearchRequest) : Result SearchResponse :=
  if t.treeSize = 0 then
    .ok ⟨some (t.getFullTreeHead none), none, [], none, [], some ⟨[], [], [], none⟩⟩
  else do
    let last := req.last.getD 0
    let data ← (
      match req.version with
      | some targetVer => traverseFixedSearch P t t.treeSize req.label targetVer last
      | none => traverseGreatestSearch P t t.treeSize req.label last)
    return ⟨some (t.getFullTreeHead req.last),
      if req.version = none then some data.greatestVersion else none,
      data.opening, data.value, data.binaryLadder, some data.combinedProof⟩

/-! ### Contact monitoring -/

/-- The timestamps from the root to the parent of an entry, stopping once a
non-distinguished entry is established. -/
def contactAncestorsLoop (treeSize pos : ℕ) : ℕ → ContactAncestors → Result ContactAncestors
  | 0, _ => .error .diverge
  | fuel + 1, a =>
    if a.curr = pos then .ok a
    else do
      let session ← a.session.visitTimestampOnly t a.curr
      let ts ← LogTree.getTimestamp t.store a.curr
      let dist := a.parentDist &&
        decide (t.config.reasonableMonitoringWindow ≤ a.bounds.2.val - a.bounds.1.val)
      let a := { a with
        session := session, ancestorDist := Function.update a.ancestorDist a.curr dist }
      if dist = false then return { a with parentDist := false }
      else if pos < a.curr then
        contactAncestorsLoop treeSize pos fuel { a with
          bounds := (a.bounds.1, ts), curr := leftChild a.curr }
      else
        let a := { a with bounds := (ts, a.bounds.2) }
        match ibstRightChild a.curr treeSize with
        | some rc => contactAncestorsLoop treeSize pos fuel { a with curr := rc }
        | none => return a

/-- The ladders of an entry to monitor, up to the first that another one has. -/
def contactLadders (version : ℕ) :
    List ℕ → TraversalSession → (ℕ → Option ℕ) → Result (TraversalSession × (ℕ → Option ℕ))
  | [], session, ladderTargets => .ok (session, ladderTargets)
  | e :: list, session, ladderTargets =>
    if ladderTargets e ≠ none then .ok (session, ladderTargets)
    else do
      let session ← session.visit P t e (monitoringBinaryLadder version []) none
      contactLadders version list session (Function.update ladderTargets e (some version))

/-- One turn of the loop of `visit_contact_entries`. -/
def visitContactEntry (treeSize : ℕ) (rightmostTs : U64) (entry : MonitorMapEntry)
    (session : TraversalSession) (ladderTargets : ℕ → Option ℕ) :
    Result (TraversalSession × (ℕ → Option ℕ)) := do
  let pos := entry.position
  let a ← contactAncestorsLoop t treeSize pos 65
    ⟨session, (0, rightmostTs), true, fun _ => false, root treeSize⟩
  if a.parentDist ∧ a.curr = pos ∧
      t.config.reasonableMonitoringWindow ≤ a.bounds.2.val - a.bounds.1.val then
    return (a.session, ladderTargets)
  else
    contactLadders P t entry.version (contactList pos treeSize a.ancestorDist) a.session ladderTargets

/-- The entries of the request from right to left. -/
def visitContactEntries (treeSize : ℕ) (rightmostTs : U64) :
    List MonitorMapEntry → TraversalSession → (ℕ → Option ℕ) → Result TraversalSession
  | [], session, _ => .ok session
  | entry :: entries, session, ladderTargets => do
    let (session, ladderTargets) ← visitContactEntry P t treeSize rightmostTs entry session
      ladderTargets
    visitContactEntries treeSize rightmostTs entries session ladderTargets

def traverseContactMonitoring (treeSize : ℕ) (label : Octets) (entries : List MonitorMapEntry)
    (last : ℕ) : Result CombinedTreeProof := do
  let session ← (TraversalSession.new label).visitFrontier t treeSize
  let rightmostTs ← LogTree.getTimestamp t.store (treeSize - 1)
  let session ← visitContactEntries P t treeSize rightmostTs entries.reverse session fun _ => none
  session.finalize P t treeSize last

/-! ### Owner monitoring -/

/-- `owner_walk_actions`: the entries in the order of the walk.  Without a target only the
timestamp of an entry is read; with one its ladder. -/
def ownerWalkActions (history : List (ℕ × ℕ)) (start treeSize rmw : ℕ) :
    ℕ → ℕ → U64 → U64 → Result (List (ℕ × Option ℕ))
  | 0, _, _, _ => .error .diverge
  | fuel + 1, node, leftTs, rightTs =>
    if rightTs.val - leftTs.val < rmw then .ok []
    else do
      let nodeTs ← LogTree.getTimestamp t.store node
      let rightChild := if isLeaf node then none else ibstRightChild node treeSize
      if node ≤ start then do
        let right ← rightChild.elim (.ok []) fun rc =>
          ownerWalkActions history start treeSize rmw fuel rc nodeTs rightTs
        return (node, none) :: right
      else do
        let left ← (if isLeaf node then .ok []
          else ownerWalkActions history start treeSize rmw fuel (leftChild node) leftTs nodeTs)
        let right ← rightChild.elim (.ok []) fun rc =>
          ownerWalkActions history start treeSize rmw fuel rc nodeTs rightTs
        return (node, none) :: left ++ (node, some ((t.getMaxVersionAt history node).getD 0)) :: right

def monitoredTreeSize : Result ℕ :=
  if t.treeSize = 0 then .error (.kt (.invalidArgument "Cannot monitor an empty tree"))
  else .ok t.treeSize

/-- The loop of `validate_monitor_entries`. -/
def validateMonitorEntries (treeSize : ℕ) : List MonitorMapEntry → Option ℕ → Result Unit
  | [], _ => .ok ()
  | entry :: entries, prev =>
    if treeSize ≤ entry.position then
      .error (.kt (.invalidArgument
        s!"Entry position {entry.position} outside tree of size {treeSize}"))
    else if prev.any (entry.position ≤ ·) then
      .error (.kt (.invalidArgument
        "Entries must be sorted ascending by position without duplicates"))
    else validateMonitorEntries treeSize entries (some entry.position)

def contactMonitor (req : ContactMonitorRequest) : Result ContactMonitorResponse := do
  let treeSize ← t.monitoredTreeSize
  validateMonitorEntries treeSize req.entries none
  let proof ← traverseContactMonitoring P t treeSize req.label req.entries (req.last.getD 0)
  return ⟨some (t.getFullTreeHead req.last), some proof⟩

end Tree

end KeyTransparency
