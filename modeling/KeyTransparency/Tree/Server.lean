/-
# What the store of a server says

A server's store is determined by its epochs, one for each log entry: when it was
appended and which updates it committed (`Epoch`).  The updates are numbered through,
and the number of an update is its place in the prefix tree.  `Tree.Sound` says that the
tables of a store are those of its epochs.
-/

import KeyTransparency.Tree.LogAppend
import KeyTransparency.Tree.PrefixRun
import KeyTransparency.Tree.Write

namespace KeyTransparency

structure Epoch where
  timestamp : U64
  updates : List PreUpdateData
deriving DecidableEq

/-- What goes into the prefix tree for an update. -/
def PreUpdateData.entry (update : PreUpdateData) : Octets × Octets :=
  (update.index, update.commitment)

section

variable (P : Primitives)

/-- The updates of a log, numbered by their places in the list. -/
def updatesOf (epochs : List Epoch) : List PreUpdateData := epochs.flatMap Epoch.updates

/-- The insertions of a log, the newest first. -/
def insertionsOf (epochs : List Epoch) : List Insertion :=
  (insertionsFrom 0 ((updatesOf epochs).map PreUpdateData.entry)).reverse

/-- The prefix tree's root after a log. -/
def rootAfter (epochs : List Epoch) : Octets := prefixRoot P (commitmentsOf (insertionsOf epochs))

/-- The log entry of the last epoch. -/
def lastEntry (epochs : List Epoch) (e : Epoch) : U64 × Octets :=
  (e.timestamp, rootAfter P (epochs ++ [e]))

/-- The leaf hashes of a log. -/
def leavesOf (epochs : List Epoch) : List Octets :=
  (List.range epochs.length).map fun i =>
    logLeafValue P ((epochs[i]?.map fun e => e.timestamp.val).getD 0)
      (rootAfter P (epochs.take (i + 1)))

/-- The versions of a label and their numbers. -/
def historyFrom (label : Octets) : ℕ → List PreUpdateData → List (ℕ × ℕ)
  | _, [] => []
  | position, update :: updates =>
    if update.label = label then (update.version, position) :: historyFrom label (position + 1) updates
    else historyFrom label (position + 1) updates

def historyOf (epochs : List Epoch) (label : Octets) : List (ℕ × ℕ) :=
  historyFrom label 0 (updatesOf epochs)

/-! ### Audit records -/

/-- The keys of an epoch, in the order of its audit record. -/
def auditKeys (updates : List PreUpdateData) : List (Octets × Octets) :=
  (updates.map PreUpdateData.entry).mergeSort fun a b => a.1 ≤ b.1

/-- The record of searches in a prefix tree. -/
def auditRecord (timestamp : U64) (found : List ((Octets × Octets) × ProofResult)) : AuditorUpdate :=
  let removed := found.filter fun e => e.2.commitment.isSome
  ⟨timestamp, found.map fun e => Tree.prefixLeafOf e.1,
    removed.map fun e => ⟨e.1.1, e.2.commitment.getD []⟩,
    some ⟨found.map (fun e => e.2.searchResult) ++ removed.map fun e => e.2.searchResult,
      found.flatMap (fun e => e.2.inclusionProof) ++ removed.flatMap fun e => e.2.inclusionProof⟩⟩

/-- The record of searches in the empty tree. -/
def genesisRecord (timestamp : U64) (keys : List (Octets × Octets)) : AuditorUpdate :=
  ⟨timestamp, keys.map Tree.prefixLeafOf, [], some ⟨keys.map fun _ => ⟨3, none, 0⟩, []⟩⟩

/-- The record of an epoch, for the insertions before it. -/
def AuditRecordFor (before : List Insertion) (e : Epoch) (record : AuditorUpdate) : Prop :=
  match before with
  | [] => record = genesisRecord e.timestamp (auditKeys e.updates)
  | _ :: _ => ∃ found : List ((Octets × Octets) × ProofResult),
      found.map Prod.fst = auditKeys e.updates ∧ record = auditRecord e.timestamp found ∧
        ∀ f ∈ found, ∃ searchEnd, EndsAs P before f.1.1 searchEnd ∧ searchEnd.proof = .ok f.2

namespace Tree

/-- The store of a server, on a disk that has not failed. -/
structure Sound (t : Tree) (epochs : List Epoch) : Prop where
  head : t.store.head = t.latest
  size : t.treeSize = epochs.length
  committed : ∀ e ∈ epochs, e.updates ≠ []
  keys : ∀ update ∈ updatesOf epochs, IsKey update.index
  log : Holds t.store (leavesOf P epochs)
  timestamp : ∀ i (h : i < epochs.length), t.store.timestamp i = some epochs[i].timestamp
  root : ∀ i < epochs.length, t.store.prefixRoot i = some (rootAfter P (epochs.take (i + 1)))
  ptr : ∀ i < epochs.length,
    t.store.prefixPtr i = some ((updatesOf (epochs.take (i + 1))).length - 1)
  next : LogTree.getNextPrefixVersion t.store = (updatesOf epochs).length
  recorded : Recorded P (insertionsOf epochs) t.store.prefixes
  written : ∀ p, t.store.prefixes p ≠ none → ∃ x ∈ insertionsOf epochs, x.position = p
  history : ∀ label, t.store.history label = historyOf epochs label
  value : ∀ i (h : i < (updatesOf epochs).length), t.store.value i = some (updatesOf epochs)[i].value
  opening : ∀ i (h : i < (updatesOf epochs).length),
    t.store.opening i = some (updatesOf epochs)[i].opening
  blob : ∀ i (h : i < epochs.length), ∃ record, t.store.auditBlob i = some record ∧
    AuditRecordFor P (insertionsOf (epochs.take i)) epochs[i] record

end Tree

end

/-! ### Epochs -/

section

variable {P : Primitives} {epochs : List Epoch} {e : Epoch}

theorem updatesOf_append (epochs : List Epoch) (e : Epoch) :
    updatesOf (epochs ++ [e]) = updatesOf epochs ++ e.updates := by
  simp [updatesOf]

theorem insertionsFrom_append (xs ys : List (Octets × Octets)) :
    ∀ version, insertionsFrom version (xs ++ ys) =
      insertionsFrom version xs ++ insertionsFrom (version + xs.length) ys := by
  induction xs with
  | nil => intro version; rfl
  | cons x xs ih =>
    intro version
    rw [List.cons_append, insertionsFrom, insertionsFrom, ih, List.length_cons, List.cons_append,
      show version + 1 + xs.length = version + (xs.length + 1) by omega]

@[simp] theorem length_insertionsFrom (xs : List (Octets × Octets)) :
    ∀ version, (insertionsFrom version xs).length = xs.length := by
  induction xs with
  | nil => intro version; rfl
  | cons x xs ih => intro version; simp [insertionsFrom, ih]

theorem insertionsOf_append (epochs : List Epoch) (e : Epoch) :
    insertionsOf (epochs ++ [e]) =
      (insertionsFrom (updatesOf epochs).length (e.updates.map PreUpdateData.entry)).reverse ++
        insertionsOf epochs := by
  rw [insertionsOf, updatesOf_append, List.map_append, insertionsFrom_append, List.reverse_append,
    List.length_map, Nat.zero_add, insertionsOf]

theorem take_append_of_le {i : ℕ} (hi : i ≤ epochs.length) :
    (epochs ++ [e]).take i = epochs.take i := List.take_append_of_le_length hi

@[simp] theorem length_leavesOf (epochs : List Epoch) :
    (leavesOf P epochs).length = epochs.length := by simp [leavesOf]

theorem leavesOf_append (epochs : List Epoch) (e : Epoch) :
    leavesOf P (epochs ++ [e]) =
      leavesOf P epochs ++ [LogTree.entryLeaf P (lastEntry P epochs e)] := by
  rw [leavesOf, List.length_append, List.length_singleton, List.range_succ, List.map_append]
  congr 1
  · refine List.map_congr_left fun i hi => ?_
    have hi := List.mem_range.1 hi
    rw [List.getElem?_append_left hi, take_append_of_le hi]
  · have htake : (epochs ++ [e]).take (epochs.length + 1) = epochs ++ [e] :=
      List.take_of_length_le (by simp)
    have hlast : (epochs ++ [e])[epochs.length]? = some e := by simp
    rw [List.map_singleton, hlast, htake]
    simp only [Option.map_some, Option.getD_some, LogTree.entryLeaf, lastEntry]

theorem historyFrom_append (label : Octets) (xs ys : List PreUpdateData) :
    ∀ position, historyFrom label position (xs ++ ys) =
      historyFrom label position xs ++ historyFrom label (position + xs.length) ys := by
  induction xs with
  | nil => intro position; rfl
  | cons x xs ih =>
    intro position
    have hpos : position + 1 + xs.length = position + (x :: xs).length := by
      rw [List.length_cons]
      omega
    rw [List.cons_append, historyFrom, historyFrom, ih, hpos]
    split_ifs <;> rfl

theorem historyOf_append (epochs : List Epoch) (e : Epoch) (label : Octets) :
    historyOf (epochs ++ [e]) label =
      historyOf epochs label ++ historyFrom label (updatesOf epochs).length e.updates := by
  rw [historyOf, updatesOf_append, historyFrom_append, Nat.zero_add, historyOf]

end

end KeyTransparency
