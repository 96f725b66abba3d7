/-
# Committing a batch

`apply_batch` and `refresh_head_timestamp` of `src/tree/write.rs`.  A batch inserts
its updates into the prefix tree, appends one entry to the log, records what an
auditor needs and what the labels' histories are, and stores the new head last: each
of these is an operation of its own on the store.

The prefix tree's cache is left out: it changes no answer (`searchLoop_answers`).
-/

import KeyTransparency.Tree.Prefix
import KeyTransparency.Tree.Read
import Mathlib.Data.List.Sort

namespace KeyTransparency

/-- An update with what was computed for it: its version, its place in the prefix tree
and its commitment. -/
structure PreUpdateData where
  label : Octets
  value : Octets
  last : ℕ
  version : ℕ
  index : Octets
  vrfProof : Octets
  commitment : Octets
  opening : Octets
deriving DecidableEq

structure PostUpdateData where
  treeHead : FullTreeHead
  searchResult : PrefixSearch

namespace Tree

variable (P : Primitives)

/-! ### Versions -/

/-- The version that the next update of a label gets, from its history and from what
the batch has assigned already. -/
def nextVersion (history : List (ℕ × ℕ)) (overlay : Option ℕ) : ℕ :=
  let currentVer := overlay.getD ((history.getLast?.map Prod.fst).getD 0)
  if history = [] ∧ overlay = none then 0 else currentVer + 1

/-- The loop over the updates of a batch: those that have the version the batch
assigns, and an error in the place of each other. -/
def assignVersions : List PreUpdateData → (Octets → Option ℕ) → Db (List (Result PreUpdateData))
  | [], _ => return []
  | update :: updates, overlay => do
    let history ← Db.read fun s => .ok (s.history update.label)
    let nextVer := nextVersion history (overlay update.label)
    if update.version ≠ nextVer then
      let slots ← assignVersions updates overlay
      return fail s!"Version assignment raced: precomputed {update.version} but batch assigns {nextVer}" ::
        slots
    else
      let slots ← assignVersions updates (Function.update overlay update.label (some nextVer))
      return .ok update :: slots

/-- The results of a batch: the errors, and for the other updates the new head and
where they were inserted. -/
def fillSlots (treeHead : FullTreeHead) :
    List (Result PreUpdateData) → List PrefixSearch → List (Result PostUpdateData)
  | [], _ => []
  | .error e :: slots, found => .error e :: fillSlots treeHead slots found
  | .ok _ :: slots, result :: found => .ok ⟨treeHead, result⟩ :: fillSlots treeHead slots found
  | .ok _ :: slots, [] =>
    fail "update slot left unresolved by apply_batch" :: fillSlots treeHead slots []

/-! ### The record for auditors -/

/-- A cache that keeps nothing. -/
def dropAll : Eviction := fun _ _ => true

def prefixLeafOf (entry : Octets × Octets) : PrefixLeaf := ⟨entry.1, entry.2⟩

/-- The searches in the tree before the batch, by key, and what they show: the keys
added, and the leaves that they replace. -/
def auditorUpdate (s : Store) (currentLogPtr : Option ℕ) (auditKeys : List (Octets × Octets))
    (timestamp : U64) : Result AuditorUpdate :=
  match currentLogPtr with
  | none =>
    -- genesis: every search in the empty previous tree is a non-inclusion
    .ok ⟨timestamp, auditKeys.map prefixLeafOf, [],
      some ⟨auditKeys.map fun _ => ⟨3, none, 0⟩, []⟩⟩
  | some ptr => do
    let found ← auditKeys.mapM fun key => do
      let r ← PrefixTree.searchForProof P dropAll s ptr key.1 Nodes.cold
      return (key, r.1)
    let removed := found.filter fun e => e.2.commitment.isSome
    return ⟨timestamp, auditKeys.map prefixLeafOf,
      removed.map fun e => ⟨e.1.1, e.2.commitment.getD []⟩,
      some ⟨found.map (fun e => e.2.searchResult) ++ removed.map fun e => e.2.searchResult,
        found.flatMap (fun e => e.2.inclusionProof) ++
          removed.flatMap fun e => e.2.inclusionProof⟩⟩

/-! ### The batch -/

/-- The entries of the value, opening and history tables. -/
def valueBatch (valid : List PreUpdateData) (found : List PrefixSearch) : List (ℕ × Octets) :=
  (valid.zip found).map fun e => (e.2.logPosition, e.1.value)

def openingBatch (valid : List PreUpdateData) (found : List PrefixSearch) : List (ℕ × Octets) :=
  (valid.zip found).map fun e => (e.2.logPosition, e.1.opening)

def historyBatch (valid : List PreUpdateData) (found : List PrefixSearch) :
    List (Octets × ℕ × ℕ) :=
  (valid.zip found).map fun e => (e.1.label, e.1.version, e.2.logPosition)

/-- The head of a log, signed by the server. -/
def signHead (config : PrivateConfig) (treeSize : ℕ) (timestamp : U64) (logRoot : Octets) :
    Result TreeHead := do
  let auditorPk :=
    if config.mode = deploymentModeThirdPartyAuditing then config.auditorKeys.head? else none
  let tbs ← constructTreeHeadTbs P config auditorPk treeSize logRoot
  return ⟨treeSize, asI64 timestamp, [⟨P.verifyingKey config.sigKey, P.signData config.sigKey tbs⟩]⟩

/-- The pointer to the prefix tree of the last log entry. -/
def currentLogPtr (startSize : ℕ) : Db (Option ℕ) :=
  if 0 < startSize then Db.read fun s => (LogTree.getPrefixPtr s (startSize - 1)).map some
  else pure none

/-- `_roots.last().unwrap()`. -/
def lastRoot (roots : List Octets) : Result Octets :=
  match roots.getLast? with
  | some root => .ok root
  | none => .error (.panic "called `Option::unwrap()` on a `None` value")

/-- `apply_batch`, from the updates that are valid on. -/
def commitUpdates (t : Tree) (now : Option U64) (slots : List (Result PreUpdateData))
    (valid : List PreUpdateData) : Db (List (Result PostUpdateData) × TreeHead) := do
  let startSize := t.treeSize
  let timestamp ← Db.ofResult (okOr now "second time provided was later than self")
  let startPrefixVersion ← Db.read fun s => .ok (LogTree.getNextPrefixVersion s)
  let currentLogPtr ← currentLogPtr startSize
  let entries := valid.map fun update => (update.index, update.commitment)
  let auditKeys := entries.mergeSort fun a b => a.1 ≤ b.1
  let blob ← Db.read fun s => auditorUpdate P s currentLogPtr auditKeys timestamp
  let (roots, found, finalPrefixPtr, _) ←
    PrefixTree.batchInsert P dropAll startPrefixVersion currentLogPtr entries fun _ => none
  Db.write fun s => { s with prefixPtr := Function.update s.prefixPtr startSize (some finalPrefixPtr) }
  Db.write fun s => { s with nextPrefixVersion := some (finalPrefixPtr + 1) }
  let finalRootHash ← Db.ofResult (lastRoot roots)
  let newLogRoot ← LogTree.batchAppend P startSize [(timestamp, finalRootHash)]
  Db.write fun s => { s with auditBlob := Function.update s.auditBlob startSize (some blob) }
  Db.write fun s => { s with value := Store.putAll (valueBatch valid found) s.value }
  Db.write fun s => { s with opening := Store.putAll (openingBatch valid found) s.opening }
  Db.write fun s => { s with history := Store.putHistoryBatch (historyBatch valid found) s.history }
  let th ← Db.ofResult (signHead P t.config (startSize + 1) timestamp newLogRoot)
  Db.write fun s => { s with head := some th }
  return (fillSlots (getFullTreeHead { t with latest := some th } none) slots found, th)

def applyBatch (t : Tree) (now : Option U64) (updates : List PreUpdateData) :
    Db (List (Result PostUpdateData) × TreeHead) := do
  Db.ofResult (ensure (updates ≠ []) "Empty batch")
  let slots ← assignVersions updates fun _ => none
  let valid := slots.filterMap Except.toOption
  if valid = [] then
    let th ← Db.ofResult (okOr t.latest "No tree head available")
    return (fillSlots (getFullTreeHead t none) slots [], th)
  else commitUpdates P t now slots valid

/-- The server after a batch, on a disk with the given budget. -/
def afterBatch (t : Tree) (budget : Option ℕ) (now : Option U64) (updates : List PreUpdateData) :
    Result (List (Result PostUpdateData)) × Tree :=
  match applyBatch P t now updates ⟨t.store, budget⟩ with
  | (.ok (results, th), d) => (.ok results, { t with store := d.store, latest := some th })
  | (.error e, d) => (.error e, { t with store := d.store })

/-! ### The head of an idle log -/

/-- `refresh_head_timestamp`: the signed string does not cover the timestamp, so the
signature of an idle head stays valid. -/
def refreshHeadTimestamp (t : Tree) (now : Option U64) : Db (Option TreeHead) :=
  match t.latest with
  | none => return none
  | some th => do
    let now ← Db.ofResult (okOr now "second time provided was later than self")
    if now ≤ asU64 th.timestamp then return some th
    else
      let th := { th with timestamp := asI64 now }
      Db.write fun s => { s with head := some th }
      return some th

/-- The server after a tick of the epoch ticker. -/
def afterRefresh (t : Tree) (budget : Option ℕ) (now : Option U64) : Result Unit × Tree :=
  match refreshHeadTimestamp t now ⟨t.store, budget⟩ with
  | (.ok th, d) => (.ok (), { t with store := d.store, latest := th })
  | (.error e, d) => (.error e, { t with store := d.store })

end Tree

end KeyTransparency
