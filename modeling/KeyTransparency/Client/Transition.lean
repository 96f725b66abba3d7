/-
# Verifying prefix tree transitions

`PartialPrefixTree` and `PrefixTransitioner` of `src/client/verifier.rs`: an auditor
rebuilds the prefix root before an epoch from the paths of its keys, and derives the
one after it.

The map of nodes is a list with one entry for each of its keys.  An element offset is at
most the number of elements, so that adding a depth to it does not overflow.
-/

import KeyTransparency.Crypto.PrefixPath
import KeyTransparency.Fault
import KeyTransparency.Proto

namespace KeyTransparency

/-! ### The partial tree -/

/-- A view of the prefix tree by its known nodes.  They are named by their level and
their path, its bits masked below the level. -/
structure PartialPrefixTree where
  nodes : List ((ℕ × Octets) × Octets)

namespace PartialPrefixTree

variable (P : Primitives)

def new : PartialPrefixTree := ⟨[]⟩

def masked (key : Octets) (level : ℕ) : Octets :=
  let full := level / 8
  (List.range 32).map fun j =>
    if j < full then key.getD j 0
    else if j = full ∧ level % 8 ≠ 0 then key.getD j 0 &&& (0xff <<< (8 - level % 8)) % 256
    else 0

def withBit (path : Octets) (level bit : ℕ) : Octets :=
  if bit = 1 then path.modify (level / 8) fun b => b ||| 1 <<< (7 - level % 8) else path

def get (t : PartialPrefixTree) (level : ℕ) (path : Octets) : Option Octets :=
  t.nodes.lookup (level, path)

/-- `HashMap::insert`. -/
def put (t : PartialPrefixTree) (level : ℕ) (path value : Octets) : PartialPrefixTree :=
  ⟨((level, path), value) :: t.nodes.filter fun n => n.1 != (level, path)⟩

def insert (t : PartialPrefixTree) (level : ℕ) (path value : Octets) : Result PartialPrefixTree :=
  match t.get level path with
  | some prev =>
    if prev ≠ value then fail s!"Batch proof paths disagree at level {level}"
    else .ok (t.put level path value)
  | none => .ok (t.put level path value)

def removeLeaf (t : PartialPrefixTree) (key : Octets) : PartialPrefixTree :=
  ⟨t.nodes.filter fun n => n.1 != (256, masked key 256)⟩

def setLeaf (t : PartialPrefixTree) (key value : Octets) : PartialPrefixTree :=
  t.put 256 (masked key 256) value

def hasDescendant (t : PartialPrefixTree) (level : ℕ) (path : Octets) : Bool :=
  t.nodes.any fun n => level < n.1.1 && masked n.1.2 level == path

/-- The recursion of `resolve`, for as many levels as there are below. -/
def resolveLoop (t : PartialPrefixTree) : ℕ → ℕ → Octets → Octets
  | 0, level, path => (t.get level path).getD zeroValue
  | fuel + 1, level, path =>
    match t.get level path with
    | some v => v
    | none =>
      if !t.hasDescendant level path then zeroValue
      else
        let l := resolveLoop t fuel (level + 1) (withBit path level 0)
        let r := resolveLoop t fuel (level + 1) (withBit path level 1)
        parentHash P l r

def resolve (t : PartialPrefixTree) (level : ℕ) (path : Octets) : Octets :=
  resolveLoop P t (256 - level) level path

def root (t : PartialPrefixTree) : Octets := resolve P t 0 (Octets.zeros 32)

end PartialPrefixTree

/-! ### Transitions -/

/-- An element of a key's path that spans another key of the batch: its level and path,
and the value that the other key's own path has to give. -/
structure Covering where
  level : ℕ
  path : Octets
  element : Octets
deriving DecidableEq

/-- A leaf of a batch, and whether it is one of those removed. -/
structure BatchItem where
  leaf : PrefixLeaf
  isRemoved : Bool
deriving DecidableEq

namespace PrefixTransitioner

open PartialPrefixTree

variable (P : Primitives)

/-- `added.iter().chain(removed.iter())`. -/
def batchItems (added removed : List PrefixLeaf) : List BatchItem :=
  added.map (⟨·, false⟩) ++ removed.map (⟨·, true⟩)

/-- What a key has in the old tree, by its result. -/
def placeTerminal (removedKeys : List Octets) (item : BatchItem) (result : PrefixSearchResult)
    (tree : PartialPrefixTree) : Result PartialPrefixTree :=
  let key := item.leaf.vrfOutput
  match result.resultType with
  | 1 =>
    if item.isRemoved then .ok (tree.setLeaf key (leafHash P key item.leaf.commitment))
    else do
      -- an added key with an inclusion result must be re-added
      ensure (key ∈ removedKeys) "Inclusion result for an added key that is not being removed"
      return tree
  | 2 => do
    let leaf ← okOr result.leaf "NonInclusionLeaf result missing leaf"
    ensure (leaf.vrfOutput ≠ key) "NonInclusionLeaf carries the searched key itself"
    if leaf.vrfOutput.length < 32 then .error (.panic "range end index out of range for slice")
    else return tree.setLeaf leaf.vrfOutput (leafHash P leaf.vrfOutput leaf.commitment)
  | 3 => .ok tree
  | _ => fail "Unknown PrefixSearchResult.result_type"

/-- The path beside a key's at a level. -/
def siblingPath (key : Octets) (k : ℕ) : Octets :=
  withBit (masked key k) k (getBit key k ^^^ 1)

/-- Whether a path spans another key of the batch. -/
def coversBatchKey (key : Octets) (k : ℕ) : List Octets → Result Bool
  | [] => .ok false
  | other :: batchKeys =>
    if other = key then coversBatchKey key k batchKeys
    else if 8 * other.length < k + 1 then .error (.panic "index out of bounds")
    else if masked other (k + 1) = siblingPath key k then .ok true
    else coversBatchKey key k batchKeys

/-- The elements beside a key's path, from a level on. -/
def placeElements (batchKeys : List Octets) (key : Octets) :
    ℕ → List Octets → PartialPrefixTree × List Covering → Result (PartialPrefixTree × List Covering)
  | _, [], st => .ok st
  | k, element :: elements, (tree, covering) => do
    if ← coversBatchKey key k batchKeys then
      placeElements batchKeys key (k + 1) elements
        (tree, covering ++ [⟨k + 1, siblingPath key k, element⟩])
    else
      let tree ← tree.insert (k + 1) (siblingPath key k) element
      placeElements batchKeys key (k + 1) elements (tree, covering)

/-- One turn of the loop over the batch; `elements` are those that are left. -/
def placeItem (batchKeys removedKeys : List Octets) (item : BatchItem) (result : PrefixSearchResult)
    (elements : List Octets) (st : PartialPrefixTree × List Covering) :
    Result (PartialPrefixTree × List Covering) := do
  let key := item.leaf.vrfOutput
  ensure (key.length = 32) "VRF output must be 32 bytes"
  let depth := result.depth
  ensure (depth ≤ 256) "Result depth exceeds tree height"
  ensure (depth ≤ elements.length) "Batch proof has insufficient elements"
  let tree ← placeTerminal P removedKeys item result st.1
  placeElements batchKeys key 0 (elements.take depth) (tree, st.2)

/-- The loop over the batch: the tree, the covering elements and the elements left. -/
def placeAll (batchKeys removedKeys : List Octets) :
    List (BatchItem × PrefixSearchResult) → List Octets → PartialPrefixTree × List Covering →
      Result ((PartialPrefixTree × List Covering) × List Octets)
  | [], elements, st => .ok (st, elements)
  | (item, result) :: items, elements, st => do
    let st ← placeItem P batchKeys removedKeys item result elements st
    placeAll batchKeys removedKeys items (elements.drop result.depth) st

/-- The loop over the covering elements. -/
def checkCovering (tree : PartialPrefixTree) : List Covering → Result Unit
  | [] => .ok ()
  | c :: covering => do
    ensure (resolve P tree c.level c.path = c.element)
      s!"Covering proof element disagrees with per-key data at level {c.level}"
    checkCovering tree covering

/-- The tree with the additions and removals of the batch. -/
def transition (tree : PartialPrefixTree) (added removed : List PrefixLeaf) : PartialPrefixTree :=
  added.foldl (fun tree item => tree.setLeaf item.vrfOutput (leafHash P item.vrfOutput item.commitment))
    (removed.foldl (fun tree item => tree.removeLeaf item.vrfOutput) tree)

def verifyAndTransition (oldRoot : Octets) (added removed : List PrefixLeaf) (proof : PrefixProof) :
    Result Octets := do
  ensure (proof.results.length = added.length + removed.length)
    s!"Batch proof has {proof.results.length} results for {added.length} added and {removed.length} removed leaves"
  let removedKeys := removed.map PrefixLeaf.vrfOutput
  let items := batchItems added removed
  let batchKeys := items.map fun item => item.leaf.vrfOutput
  let ((tree, covering), rest) ←
    placeAll P batchKeys removedKeys (items.zip proof.results) proof.elements (.new, [])
  ensure (rest = []) "Batch proof has unused elements"
  checkCovering P tree covering
  let computedOld := tree.root P
  let oldIsEmpty := ∀ b ∈ oldRoot, b = 0
  ensure (computedOld = oldRoot ∨ (oldIsEmpty ∧ computedOld = zeroValue)) "Old prefix root mismatch"
  return (transition P tree added removed).root P

end PrefixTransitioner

end KeyTransparency
