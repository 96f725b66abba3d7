/-
# The prefix tree

`src/tree/prefix/`.  An entry is written once for each insertion and never changed:
it holds the hashes beside its path as they were then, and for each of them the
latest entry below it.  A search stitches its path together from such entries.

A cached entry carries a memo of the hashes it has rolled up.  What the shared cache
drops when an entry is put into it (`Eviction`) is left open.
-/

import KeyTransparency.Crypto.PrefixPath
import KeyTransparency.Store

namespace KeyTransparency

open SparseMerkle

/-! ### Entries -/

/-- An entry with the memo of its rolled up hashes, by level. -/
structure CachedLogEntry where
  inner : LogEntry
  parents : ℕ → Option Octets

namespace CachedLogEntry

variable (P : Primitives)

def new (inner : LogEntry) : CachedLogEntry := ⟨inner, fun _ => none⟩

def standIn (_level : ℕ) : Octets := zeroValue

/-- The loop of `rollup`, from a level with its hash. -/
def rollupLoop (entry : LogEntry) (level : ℕ) : ℕ → Octets → (ℕ → Option Octets) →
    Octets × (ℕ → Option Octets)
  | 0, acc, parents => (acc, parents)
  | curr + 1, acc, parents =>
    if level ≤ curr then
      match parents curr with
      | some val => rollupLoop entry level curr val parents
      | none =>
        let siblingHash := (entry.copath[curr]?.map ParentNode.hash).getD (standIn (curr + 1))
        let acc := branch (parentHash P) (getBit entry.index curr == 1) siblingHash acc
        rollupLoop entry level curr acc (Function.update parents curr (some acc))
    else (acc, parents)

/-- The hash of the entry's path at a level, and the entry with its memo filled. -/
def rollup (ce : CachedLogEntry) (level : ℕ) : Octets × CachedLogEntry :=
  let start := match ce.inner.leaf with
    | some leaf => (8 * indexLength, leafHash P ce.inner.index leaf.commitment)
    | none => (ce.inner.copath.length, standIn ce.inner.copath.length)
  let r := rollupLoop P ce.inner level start.1 start.2 ce.parents
  (r.1, { ce with parents := r.2 })

end CachedLogEntry

def combineCopaths (primary secondary : List ParentNode) : List ParentNode :=
  if secondary.length ≤ primary.length then primary
  else primary ++ secondary.drop primary.length

/-! ### Caches -/

abbrev NodeCache := ℕ → Option CachedLogEntry

/-- The entries dropped from a cache. -/
abbrev Eviction := NodeCache → ℕ → Bool

def NodeCache.put (evict : Eviction) (cache : NodeCache) (ptr : ℕ) (ce : CachedLogEntry) :
    NodeCache := fun p =>
  let cache := Function.update cache ptr (some ce)
  if evict cache p then none else cache p

/-- The entries a batch has written itself, and the shared cache. -/
structure Nodes where
  overlay : NodeCache
  cache : NodeCache

namespace Nodes

def cold : Nodes := ⟨fun _ => none, fun _ => none⟩

/-- An entry whose memo was filled is shared by those who hold it. -/
def share (nodes : Nodes) (ptr : ℕ) (ce : CachedLogEntry) : Nodes where
  overlay := if (nodes.overlay ptr).isSome then Function.update nodes.overlay ptr (some ce)
    else nodes.overlay
  cache := if (nodes.cache ptr).isSome then Function.update nodes.cache ptr (some ce)
    else nodes.cache

end Nodes

/-! ### Searching -/

inductive StepResult
  | next (ptr : ℕ)
  | found (entry : LogEntry)
  | failed (copath : List ParentNode)

/-- An insertion's position, its commitment and the path it is found on. -/
structure PrefixSearch where
  logPosition : ℕ
  commitment : Octets
  inclusionProof : List Octets
  counter : ℕ
  depth : ℕ

structure ProofResult where
  inclusionProof : List Octets
  commitment : Option Octets
  resultType : ℕ
  leafVrfOutput : Option Octets
  leafCommitment : Option Octets
  depth : ℕ

/-- The result a prefix proof has for it, as `generate_ladder_proof` makes it. -/
def ProofResult.searchResult (res : ProofResult) : PrefixSearchResult where
  resultType := res.resultType
  leaf := match res.resultType with
    | 2 => some ⟨res.leafVrfOutput.getD [], res.leafCommitment.getD []⟩
    | _ => none
  depth := res.depth

namespace PrefixTree

variable (P : Primitives) (evict : Eviction) (s : Store)

def getEntry (ptr : ℕ) (nodes : Nodes) : Result (CachedLogEntry × Nodes) :=
  match nodes.overlay ptr with
  | some ce => .ok (ce, nodes)
  | none =>
    match nodes.cache ptr with
    | some ce => .ok (ce, nodes)
    | none => do
      let entry ← okOr (s.prefixes ptr) s!"Missing prefix entry {ptr}"
      return (.new entry, { nodes with cache := nodes.cache.put evict ptr (.new entry) })

/-- The loop of `step`, for as many levels as an index has. -/
def stepLoop (targetIndex : Octets) (currentPtr : ℕ) (ce : CachedLogEntry) :
    ℕ → List ParentNode → Result (StepResult × List ParentNode × CachedLogEntry)
  | 0, copath =>
    if ce.inner.copath.length ≤ copath.length ∧ ce.inner.leaf = none then
      .ok (.failed copath, copath, ce)
    else .error (.panic "index out of bounds")
  | fuel + 1, copath =>
    let depth := copath.length
    let entry := ce.inner
    match entry.copath[depth]? with
    | some parent =>
      if getBit entry.index depth = getBit targetIndex depth then
        stepLoop targetIndex currentPtr ce fuel (copath ++ [parent])
      else
        let rolled := ce.rollup P (depth + 1)
        let copath := copath ++ [⟨rolled.1, some currentPtr, parent.firstUpdatePosition⟩]
        match parent.ptr with
        | some nextPtr => .ok (.next nextPtr, copath, rolled.2)
        | none => .ok (.failed copath, copath, rolled.2)
    | none =>
      if entry.leaf = none then .ok (.failed copath, copath, ce)
      else if getBit entry.index depth = getBit targetIndex depth then
        stepLoop targetIndex currentPtr ce fuel
          (copath ++ [⟨CachedLogEntry.standIn (depth + 1), none, some entry.firstUpdatePosition⟩])
      else
        let rolled := ce.rollup P (depth + 1)
        let copath := copath ++ [⟨rolled.1, some currentPtr, some entry.firstUpdatePosition⟩]
        .ok (.failed copath, copath, rolled.2)

/-- One entry of a search: the outcome, the copath so far and the entry with its
memo filled. -/
def step (targetIndex : Octets) (currentPtr : ℕ) (copath : List ParentNode) (ce : CachedLogEntry) :
    Result (StepResult × List ParentNode × CachedLogEntry) :=
  if ce.inner.leaf.isSome ∧ ce.inner.index = targetIndex then
    .ok (.found { ce.inner with copath := combineCopaths copath ce.inner.copath }, copath, ce)
  else stepLoop P targetIndex currentPtr ce (8 * indexLength - copath.length) copath

/-- How a search ends: with the entry found, or with the copath it failed on and the
entry it failed at. -/
inductive SearchEnd
  | found (entry : LogEntry)
  | failed (copath : List ParentNode) (entry : LogEntry)

/-- The loop that `search_for_proof` and `insert_internal` share. -/
def searchLoop (index : Octets) : ℕ → ℕ → List ParentNode → Nodes → Result (SearchEnd × Nodes)
  | 0, _, _, _ => .error .diverge
  | fuel + 1, curr, copath, nodes => do
    let (entry, nodes) ← getEntry evict s curr nodes
    let (result, copath, entry') ← step P index curr copath entry
    let nodes := nodes.share curr entry'
    match result with
    | .found finalEntry => return (.found finalEntry, nodes)
    | .next nextPtr => searchLoop index fuel nextPtr copath nodes
    | .failed failedCopath => return (.failed failedCopath entry.inner, nodes)

/-- The arms of `search_for_proof` where its loop ends. -/
def SearchEnd.proof : SearchEnd → Result ProofResult
  | .found finalEntry =>
    match finalEntry.leaf with
    | some leaf => .ok ⟨finalEntry.copath.map ParentNode.hash, some leaf.commitment, 1, none, none,
        finalEntry.copath.length⟩
    | none => .error (.panic "called `Option::unwrap()` on a `None` value")
  | .failed failedCopath entry =>
    let elements := failedCopath.map ParentNode.hash
    match entry.leaf with
    | some l => .ok ⟨elements, none, 2, some entry.index, some l.commitment, failedCopath.length⟩
    | none => .ok ⟨elements, none, 3, none, none, failedCopath.length⟩

def searchForProof (ptr : ℕ) (index : Octets) (nodes : Nodes) : Result (ProofResult × Nodes) := do
  let (found, nodes) ← searchLoop P evict s index (8 * indexLength + 1) ptr [] nodes
  let proof ← found.proof
  return (proof, nodes)

/-! ### Inserting -/

/-- The arms of `insert_internal` where its loop ends: the copath and counter of the
new entry. -/
def SearchEnd.path : SearchEnd → Result (List ParentNode × ℕ)
  | .found finalEntry =>
    match finalEntry.leaf with
    | some leaf => .ok (finalEntry.copath, leaf.ctr + 1)
    | none => .error (.panic "called `Option::unwrap()` on a `None` value")
  | .failed failedCopath _ => .ok (failedCopath, 0)

def insertPath (currentPtr : Option ℕ) (index : Octets) (nodes : Nodes) :
    Result ((List ParentNode × ℕ) × Nodes) :=
  match currentPtr with
  | none => .ok (([], 0), nodes)
  | some ptr => do
    let (found, nodes) ← searchLoop P evict s index (8 * indexLength + 1) ptr [] nodes
    let path ← found.path
    return (path, nodes)

/-- `insert_internal`: the new root, the search result, the entry and its cached
form. -/
def insertInternal (newPos : ℕ) (currentPtr : Option ℕ) (index commitment : Octets)
    (nodes : Nodes) : Result (Octets × PrefixSearch × CachedLogEntry × Nodes) := do
  let ((copath, ctr), nodes) ← insertPath P evict s currentPtr index nodes
  let newEntry : LogEntry := ⟨index, copath, newPos, some ⟨ctr, commitment⟩⟩
  let rolled := (CachedLogEntry.new newEntry).rollup P 0
  return (rolled.1, ⟨newPos, commitment, copath.map ParentNode.hash, ctr, copath.length⟩, rolled.2,
    nodes)

/-- The loop of `batch_insert`: the roots, the search results and the entries. -/
def insertAll : ℕ → Option ℕ → List (Octets × Octets) → Nodes →
    Result (List Octets × List PrefixSearch × List (ℕ × CachedLogEntry) × Option ℕ × Nodes)
  | _, currentPtr, [], nodes => .ok ([], [], [], currentPtr, nodes)
  | version, currentPtr, (index, commitment) :: entries, nodes => do
    let (root, found, ce, nodes) ← insertInternal P evict s version currentPtr index commitment nodes
    let nodes := { nodes with overlay := Function.update nodes.overlay version (some ce) }
    let (roots, results, written, ptr, nodes) ← insertAll (version + 1) (some version) entries nodes
    return (root :: roots, found :: results, (version, ce) :: written, ptr, nodes)

/-- `batch_insert`: the roots, the search results, the new pointer and the cache. -/
def batchInsert (startVersion : ℕ) (currentRootPtr : Option ℕ) (entries : List (Octets × Octets))
    (cache : NodeCache) : Db (List Octets × List PrefixSearch × ℕ × NodeCache) := do
  let (roots, results, written, ptr, nodes) ← Db.read fun s =>
    insertAll P evict s startVersion currentRootPtr entries ⟨fun _ => none, cache⟩
  -- the entries that later ones of the batch went through have their memo filled
  let written := written.map fun e => (e.1, (nodes.overlay e.1).getD e.2)
  Db.write fun s => { s with
    prefixes := Store.putAll (written.map fun e => (e.1, e.2.inner)) s.prefixes }
  return (roots, results, ptr.getD 0, written.foldl (fun c e => c.put evict e.1 e.2) nodes.cache)

end PrefixTree

end KeyTransparency
