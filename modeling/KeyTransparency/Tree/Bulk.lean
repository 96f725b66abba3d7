/-
# Loading a server in bulk

`src/bulk.rs`: labels are loaded at version 0, past the batcher.  The label, the value and
the opening of an entry go into the database by an SST file, and no record is made for the
auditors.

* `bulkPopulate` commits one log entry for each chunk of the labels;
* `parallelBulkPopulate` partitions the labels by the first bits of their keys, builds a
  prefix tree of each partition and merges them: it writes the hashes and the pointers beside
  the roots of the partitions into all of their entries.

The tasks that build the partitions run one after another here; each of them reads only what
it has written itself.  The openings drawn and the readings of the clock are inputs.
-/

import KeyTransparency.Batcher
import KeyTransparency.Library.BitPath

namespace KeyTransparency

/-- Pre-computed cryptographic data for a single entry. -/
structure BulkEntry where
  searchKey : Octets
  value : Octets
  index : Octets
  commitment : Octets
  opening : Octets
deriving DecidableEq

namespace Bulk

variable (P : Primitives)

/-! ### What both have in common -/

/-- The closure of the first phase, for the opening that it drew. -/
def bulkEntry (config : PrivateConfig) (opening : Octets) (label : Octets × Octets) : Result BulkEntry := do
  let (index, _) ← config.vrfProve P label.1 0
  let commitment ← commit P label.1 0 label.2 none opening
  return ⟨label.1, label.2, index, commitment, opening⟩

def bulkEntries (config : PrivateConfig) (openings : ℕ → Octets) (labels : List (Octets × Octets)) :
    Result (List BulkEntry) :=
  labels.zipIdx.mapM fun label => bulkEntry P config (openings label.2) label.1

/-- What goes into the prefix tree for an entry. -/
def BulkEntry.pair (entry : BulkEntry) : Octets × Octets := (entry.index, entry.commitment)

/-- `ingest_sst`, for the keys of its rows and what the database holds after it.  An SST file
takes its rows in the strict order of their keys, so it takes each key once. -/
def ingestSst {κ : Type} [DecidableEq κ] (keys : List κ) (put : Store → Store) : Db Unit :=
  if keys = [] then pure ()
  else if keys.Nodup then Db.write put
  else Db.ofResult (fail "SST put failed")

/-- The rows of a table that is keyed by the positions of the entries. -/
def rowsFrom (start : ℕ) (entries : List BulkEntry) (row : BulkEntry → Octets) : List (ℕ × Octets) :=
  entries.zipIdx.map fun e => (start + e.2, row e.1)

/-- A history is replaced by the first version at its position. -/
def putHistories (start : ℕ) (entries : List BulkEntry) (table : Octets → List (ℕ × ℕ)) :
    Octets → List (ℕ × ℕ) :=
  entries.zipIdx.foldl (fun t e => Function.update t e.1.searchKey [(0, start + e.2)]) table

/-- The value, opening and history tables. -/
def ingestAll (start : ℕ) (entries : List BulkEntry) : Db Unit := do
  let values := rowsFrom start entries BulkEntry.value
  let openings := rowsFrom start entries BulkEntry.opening
  ingestSst (values.map Prod.fst) fun s => { s with value := Store.putAll values s.value }
  ingestSst (openings.map Prod.fst) fun s => { s with opening := Store.putAll openings s.opening }
  ingestSst (entries.map BulkEntry.searchKey) fun s =>
    { s with history := putHistories start entries s.history }

/-- The head, signed without an auditor's key. -/
def bulkHead (config : PrivateConfig) (treeSize : ℕ) (timestamp : U64) (logRoot : Octets) :
    Result TreeHead := do
  let tbs ← constructTreeHeadTbs P config none treeSize logRoot
  return ⟨treeSize, asI64 timestamp, [⟨P.verifyingKey config.sigKey, P.signData config.sigKey tbs⟩]⟩

/-- `labels.chunks(size)`, for labels of which there are at most `fuel`. -/
def chunks {α : Type} (size : ℕ) : ℕ → List α → List (List α)
  | 0, _ => []
  | _ + 1, [] => []
  | fuel + 1, a :: rest => (a :: rest).take size :: chunks size fuel ((a :: rest).drop size)

/-! ### One log entry for a chunk -/

/-- The phases after the first, for one chunk. -/
def commitChunk (config : PrivateConfig) (t : Tree) (now : Option U64) (entries : List BulkEntry) :
    Db TreeHead := do
  let startSize := t.treeSize
  let startPrefixVersion ← Db.read fun s => .ok (LogTree.getNextPrefixVersion s)
  let currentLogPtr ← Tree.currentLogPtr startSize
  let (roots, _, finalPrefixPtr, _) ← PrefixTree.batchInsert P Tree.dropAll startPrefixVersion
    currentLogPtr (entries.map BulkEntry.pair) fun _ => none
  let timestamp ← Db.ofResult (okOr now "second time provided was later than self")
  Db.write fun s => { s with prefixPtr := Function.update s.prefixPtr startSize (some finalPrefixPtr) }
  Db.write fun s => { s with nextPrefixVersion := some (finalPrefixPtr + 1) }
  let finalRootHash ← Db.ofResult (Tree.lastRoot roots)
  let newLogRoot ← LogTree.batchAppend P startSize [(timestamp, finalRootHash)]
  ingestAll startPrefixVersion entries
  let th ← Db.ofResult (bulkHead P config (startSize + 1) timestamp newLogRoot)
  Db.write fun s => { s with head := some th }
  return th

/-- `bulk_populate`, for the chunks of its labels, with the reading of the clock and the
openings of each chunk.  What earlier chunks have committed stays when one fails. -/
def populateChunks (config : PrivateConfig) (clock : ℕ → Option U64) (openings : ℕ → ℕ → Octets) :
    List (List (Octets × Octets)) → ℕ → Option ℕ → Tree → Result Unit × Tree
  | [], _, _, t => (.ok (), t)
  | chunk :: rest, i, budget, t =>
    match bulkEntries P config (openings i) chunk with
    | .error e => (.error e, t)
    | .ok entries =>
      match commitChunk P config t (clock i) entries ⟨t.store, budget⟩ with
      | (.ok th, d) =>
        populateChunks config clock openings rest (i + 1) d.budget
          { t with store := d.store, latest := some th }
      | (.error e, d) => (.error e, { t with store := d.store })

/-- `bulk_populate`. -/
def bulkPopulate (config : PrivateConfig) (labels : List (Octets × Octets)) (chunkSize : ℕ)
    (clock : ℕ → Option U64) (openings : ℕ → ℕ → Octets) (budget : Option ℕ) (t : Tree) :
    Result Unit × Tree :=
  if labels = [] then (.ok (), t)
  else if chunkSize = 0 then (.error (.panic "chunk size must be non-zero"), t)
  else populateChunks P config clock openings (chunks chunkSize labels.length labels) 0 budget t

/-! ### Partitions -/

/-- The first `k` bits of a VRF index. -/
def partitionId (index : Octets) (k : ℕ) : ℕ :=
  (List.range k).foldl (fun pid d => pid <<< 1 ||| getBit index d) 0

/-- The last partition of the sub-tree beside partition `p` at depth `d`. -/
def siblingRootPid (p d k : ℕ) : ℕ :=
  let bitPos := k - 1 - d
  (p ^^^ 1 <<< bitPos) ||| (1 <<< bitPos - 1)

/-- The levels of the hash tree over the roots of the partitions, from its root on. -/
def buildHashTree : ℕ → List Octets → List (List Octets)
  | 0, hashes => [hashes]
  | level + 1, hashes =>
    buildHashTree level ((List.range (1 <<< level)).map fun j =>
      parentHash P (hashes.getD (2 * j) []) (hashes.getD (2 * j + 1) [])) ++ [hashes]

/-- The copath above the root of a partition. -/
def mergeCopathForPartition (p k : ℕ) (hashTree : List (List Octets)) (rootPositions : List (Option ℕ)) :
    List ParentNode :=
  (List.range k).map fun d =>
    let nodeIdx := p >>> (k - 1 - d)
    let siblingIdx := nodeIdx ^^^ 1
    let siblingHash := (hashTree.getD (d + 1) []).getD siblingIdx []
    let siblingPos := rootPositions.getD (siblingRootPid p d k) none
    ⟨siblingHash, siblingPos, siblingPos⟩

/-- The entries of the partitions, each in the order of the labels. -/
def partitions (k : ℕ) (entries : List BulkEntry) : List (List BulkEntry) :=
  (List.range (1 <<< k)).map fun p => entries.filter fun e => partitionId e.index k = p

/-- The prefix trees of the partitions, at positions one after another; the position of the
root of each, if it has entries. -/
def insertPartitions : ℕ → List (List BulkEntry) → Db (List (Option ℕ))
  | _, [] => return []
  | startPos, part :: parts => do
    if part = [] then
      let roots ← insertPartitions startPos parts
      return none :: roots
    else
      let (_, _, finalPtr, _) ← PrefixTree.batchInsert P Tree.dropAll startPos none
        (part.map BulkEntry.pair) fun _ => none
      let roots ← insertPartitions (startPos + part.length) parts
      return some finalPtr :: roots

/-- The hash of a partition's root at the level of the partitions. -/
def partitionHash (s : Store) (k : ℕ) : Option ℕ → Result Octets
  | some rootPos =>
    match s.prefixes rootPos with
    | some entry => .ok ((CachedLogEntry.new entry).rollup P k).1
    | none => .error (.panic "called `Option::unwrap()` on a `None` value")
  | none => .ok zeroValue

/-- An entry with the nodes above its partition's root. -/
def mergeEntry (k : ℕ) (mergePrefix : List ParentNode) (entry : LogEntry) : LogEntry :=
  { entry with copath := mergePrefix ++ if k < entry.copath.length then entry.copath.drop k else [] }

/-- The entries of the partitions, merged. -/
def mergeBatch (s : Store) (k : ℕ) (hashTree : List (List Octets)) (rootPositions : List (Option ℕ)) :
    ℕ → ℕ → List (List BulkEntry) → List (ℕ × LogEntry)
  | _, _, [] => []
  | p, startPos, part :: parts =>
    ((List.range' startPos part.length).filterMap fun pos =>
      (s.prefixes pos).map fun entry =>
        (pos, mergeEntry k (mergeCopathForPartition p k hashTree rootPositions) entry)) ++
      mergeBatch s k hashTree rootPositions (p + 1) (startPos + part.length) parts

/-- `parallel_bulk_populate`, from the entries on: the new head. -/
def commitPartitions (config : PrivateConfig) (t : Tree) (now : Option U64) (k : ℕ) (entries : List BulkEntry) :
    Db TreeHead := do
  let parts := partitions k entries
  let startPrefixVersion ← Db.read fun s => .ok (LogTree.getNextPrefixVersion s)
  let rootPositions ← insertPartitions P startPrefixVersion parts
  let partitionHashes ← Db.read fun s => rootPositions.mapM (partitionHash P s k)
  let hashTree := buildHashTree P k partitionHashes
  let globalRootHash := (hashTree.getD 0 []).getD 0 []
  let merged ← Db.read fun s => .ok (mergeBatch s k hashTree rootPositions 0 startPrefixVersion parts)
  Db.write fun s => { s with prefixes := Store.putAll merged s.prefixes }
  let startSize := t.treeSize
  let timestamp ← Db.ofResult (okOr now "second time provided was later than self")
  let globalRootPos ← Db.ofResult (match rootPositions.reverse.findSome? id with
    | some pos => .ok pos
    | none => .error (.panic "called `Option::unwrap()` on a `None` value"))
  Db.write fun s => { s with prefixPtr := Function.update s.prefixPtr startSize (some globalRootPos) }
  Db.write fun s => { s with nextPrefixVersion := some (startPrefixVersion + parts.flatten.length) }
  let newLogRoot ← LogTree.batchAppend P startSize [(timestamp, globalRootHash)]
  ingestAll startPrefixVersion parts.flatten
  let th ← Db.ofResult (bulkHead P config (startSize + 1) timestamp newLogRoot)
  Db.write fun s => { s with head := some th }
  return th

/-- `parallel_bulk_populate`. -/
def parallelBulkPopulate (config : PrivateConfig) (labels : List (Octets × Octets)) (k : ℕ) (now : Option U64)
    (openings : ℕ → Octets) (budget : Option ℕ) (t : Tree) : Result Unit × Tree :=
  if labels = [] then (.ok (), t)
  else
    match bulkEntries P config openings labels with
    | .error e => (.error e, t)
    | .ok entries =>
      match commitPartitions P config t now k entries ⟨t.store, budget⟩ with
      | (.ok th, d) => (.ok (), { t with store := d.store, latest := some th })
      | (.error e, d) => (.error e, { t with store := d.store })

end Bulk

end KeyTransparency
