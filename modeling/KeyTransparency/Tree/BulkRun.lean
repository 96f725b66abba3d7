/-
# A chunk of a bulk load is a batch

`bulk_populate` commits its labels past `apply_batch`: it makes no record for the auditors,
writes its tables in another way and signs the head itself.  For labels that the server does
not have yet, a chunk leaves the store that a batch of them leaves, except for the record
(`commitChunk_runs`).

The records are never looked at by what it does (`commitChunk_ignores`), so that the server
of the batches, with the records taken away, is the one that the next chunk is committed to
(`populateChunks_written`).
-/

import KeyTransparency.Tree.ParallelLoad
import KeyTransparency.Tree.HonestLog

namespace KeyTransparency

/-! ### What a computation does not look at -/

def Disk.map (g : Store → Store) (d : Disk) : Disk := ⟨g d.store, d.budget⟩

namespace Db

variable {α β : Type} {g : Store → Store} {x : Db α} {f : α → Db β}

/-- A computation that a change of the store does not change: it does the same to the
changed store. -/
def Ignores (g : Store → Store) (x : Db α) : Prop := ∀ d, x (d.map g) = ((x d).1, (x d).2.map g)

namespace Ignores

theorem bind (hx : Ignores g x) (hf : ∀ a, Ignores g (f a)) : Ignores g (x >>= f) := by
  intro d
  rw [bind_apply, bind_apply, hx d]
  rcases x d with ⟨_ | a, d'⟩
  · rfl
  · exact hf a d'

theorem pure (a : α) : Ignores g (pure a : Db α) := fun _ => rfl

theorem ofResult (r : Result α) : Ignores g (ofResult r) := fun _ => rfl

theorem operation {f : Store → Result α × Store} (h : ∀ s, f (g s) = ((f s).1, g (f s).2)) :
    Ignores g (Db.operation f) := by
  rintro ⟨s, budget⟩
  rcases budget with _ | _ | b
  · simp only [Db.operation, Disk.map, h s]
  · rfl
  · simp only [Db.operation, Disk.map, h s]

theorem read {f : Store → Result α} (h : ∀ s, f (g s) = f s) : Ignores g (read f) :=
  operation fun s => by rw [h s]

theorem write {f : Store → Store} (h : ∀ s, f (g s) = g (f s)) : Ignores g (write f) :=
  operation fun s => by rw [h s]

theorem ite {c : Prop} [Decidable c] {y : Db α} (hx : Ignores g x) (hy : Ignores g y) :
    Ignores g (if c then x else y) := by
  split_ifs
  · exact hx
  · exact hy

theorem runs (hx : Ignores g x) {s s' : Store} {a : α} (h : x.Runs s a s') : x.Runs (g s) a (g s') := by
  have hd := hx ⟨s, none⟩
  rw [Db.Runs] at h
  rw [h] at hd
  exact hd

end Ignores

end Db

/-- The store with other records for the auditors. -/
def Store.withBlobs (blobs : ℕ → Option AuditorUpdate) (s : Store) : Store := { s with auditBlob := blobs }

section

variable {P : Primitives} {blobs : ℕ → Option AuditorUpdate} {s : Store}

theorem searchLoop_withBlobs {evict : Eviction} (index : Octets) : ∀ fuel curr copath nodes,
    PrefixTree.searchLoop P evict (s.withBlobs blobs) index fuel curr copath nodes =
      PrefixTree.searchLoop P evict s index fuel curr copath nodes := by
  intro fuel
  induction fuel with
  | zero => exact fun _ _ _ => rfl
  | succ fuel ih =>
    intro curr copath nodes
    rw [PrefixTree.searchLoop, PrefixTree.searchLoop]
    simp only [ih]
    rfl

theorem insertAll_withBlobs {evict : Eviction} : ∀ batch version ptr nodes,
    PrefixTree.insertAll P evict (s.withBlobs blobs) version ptr batch nodes =
      PrefixTree.insertAll P evict s version ptr batch nodes := by
  intro batch
  induction batch with
  | nil => exact fun _ _ _ => rfl
  | cons entry batch ih =>
    intro version ptr nodes
    have hpath : ∀ ptr index nodes, PrefixTree.insertPath P evict (s.withBlobs blobs) ptr index nodes =
        PrefixTree.insertPath P evict s ptr index nodes := by
      intro ptr index nodes
      cases ptr with
      | none => rfl
      | some ptr => simp only [PrefixTree.insertPath, searchLoop_withBlobs]
    rw [PrefixTree.insertAll, PrefixTree.insertAll]
    simp only [PrefixTree.insertInternal, hpath, ih]

theorem resolveNode_withBlobs (n : ℕ) : ∀ fuel nodeId,
    LogTree.resolveNode P (s.withBlobs blobs) fuel nodeId n = LogTree.resolveNode P s fuel nodeId n := by
  intro fuel
  induction fuel with
  | zero => exact fun _ => rfl
  | succ fuel ih =>
    intro nodeId
    rw [LogTree.resolveNode, LogTree.resolveNode]
    simp only [ih]
    rfl

theorem batchInsert_ignores (evict : Eviction) (version : ℕ) (ptr : Option ℕ) (batch : List (Octets × Octets))
    (cache : NodeCache) :
    (PrefixTree.batchInsert P evict version ptr batch cache).Ignores (Store.withBlobs blobs) := by
  unfold PrefixTree.batchInsert
  refine Db.Ignores.bind (.read fun _ => insertAll_withBlobs _ _ _ _) ?_
  rintro ⟨roots, results, written, ptr, nodes⟩
  exact Db.Ignores.bind (.write fun _ => rfl) fun _ => .pure _

theorem loadChunk_ignores (cid : ℕ) (chunkCache : List (ℕ × NodeChunk)) :
    (LogTree.loadChunk P cid chunkCache).Ignores (Store.withBlobs blobs) := by
  unfold LogTree.loadChunk
  cases chunkCache.lookup cid with
  | some c => exact .pure c
  | none => exact Db.Ignores.bind (.read fun _ => rfl) fun _ => .pure _

theorem appendEntry_ignores (index : ℕ) (entry : U64 × Octets) (chunkCache : List (ℕ × NodeChunk)) :
    (LogTree.appendEntry P index entry chunkCache).Ignores (Store.withBlobs blobs) := by
  unfold LogTree.appendEntry
  dsimp only
  refine Db.Ignores.bind (loadChunk_ignores _ _) fun _ => Db.Ignores.bind (.ofResult _) fun _ => ?_
  exact Db.Ignores.bind (.write fun _ => rfl) fun _ => Db.Ignores.bind (.write fun _ => rfl) fun _ => .pure _

theorem appendEntries_ignores (entries : List (U64 × Octets)) (index : ℕ) (chunkCache : List (ℕ × NodeChunk)) :
    (LogTree.appendEntries P index entries chunkCache).Ignores (Store.withBlobs blobs) := by
  induction entries generalizing index chunkCache with
  | nil => exact .pure _
  | cons entry entries ih => exact Db.Ignores.bind (appendEntry_ignores _ _ _) fun _ => ih _ _

theorem batchAppend_ignores (n : ℕ) (entries : List (U64 × Octets)) :
    (LogTree.batchAppend P n entries).Ignores (Store.withBlobs blobs) := by
  unfold LogTree.batchAppend
  refine Db.Ignores.bind (appendEntries_ignores _ _ _) fun _ => Db.Ignores.bind (.write fun _ => rfl) fun _ => ?_
  refine Db.Ignores.read fun s => ?_
  rw [LogTree.getRoot, LogTree.getRoot, resolveNode_withBlobs]

namespace Bulk

theorem ingestSst_ignores {κ : Type} [DecidableEq κ] {g : Store → Store} (keys : List κ) {put : Store → Store}
    (h : ∀ s, put (g s) = g (put s)) : (ingestSst keys put).Ignores g :=
  .ite (.pure _) (.ite (.write h) (.ofResult _))

theorem ingestAll_ignores (start : ℕ) (entries : List BulkEntry) :
    (ingestAll start entries).Ignores (Store.withBlobs blobs) := by
  unfold ingestAll
  exact Db.Ignores.bind (ingestSst_ignores _ fun _ => rfl) fun _ =>
    Db.Ignores.bind (ingestSst_ignores _ fun _ => rfl) fun _ => ingestSst_ignores _ fun _ => rfl

/-- **Committing a chunk does not look at the records.** -/
theorem commitChunk_ignores (config : PrivateConfig) (t : Tree) (now : Option U64) (entries : List BulkEntry) :
    (commitChunk P config t now entries).Ignores (Store.withBlobs blobs) := by
  unfold commitChunk Tree.currentLogPtr
  dsimp only
  refine Db.Ignores.bind (.read fun _ => rfl) fun _ => Db.Ignores.bind (.ite (.read fun _ => rfl) (.pure _)) ?_
  intro _
  refine Db.Ignores.bind (batchInsert_ignores _ _ _ _ _) ?_
  rintro ⟨roots, results, ptr, cache⟩
  refine Db.Ignores.bind (.ofResult _) fun _ => Db.Ignores.bind (.write fun _ => rfl) fun _ => ?_
  refine Db.Ignores.bind (.write fun _ => rfl) fun _ => Db.Ignores.bind (.ofResult _) fun _ => ?_
  refine Db.Ignores.bind (batchAppend_ignores _ _) fun _ => Db.Ignores.bind (ingestAll_ignores _ _) fun _ => ?_
  exact Db.Ignores.bind (.ofResult _) fun _ => Db.Ignores.bind (.write fun _ => rfl) fun _ => .pure _

end Bulk

end

/-! ### The tables of a chunk -/

namespace Bulk

variable {P : Primitives} {t : Tree} {epochs : List Epoch} {updates : List PreUpdateData} {found : List PrefixSearch}
  {label : Octets} {start : ℕ}

/-- What a bulk load keeps of an update. -/
def entryOf (u : PreUpdateData) : BulkEntry := ⟨u.label, u.value, u.index, u.commitment, u.opening⟩

/-- The rows of the tables that are keyed by positions are those of a batch. -/
theorem rows_eq (f : PreUpdateData → Octets) {n : ℕ} (hplaced : Placed (start + n) found)
    (hlen : found.length = updates.length) :
    (updates.zip found).map (fun e => (e.2.logPosition, f e.1)) =
      (updates.zipIdx n).map fun e => (start + e.2, f e.1) := by
  induction updates generalizing found n with
  | nil => rfl
  | cons u updates ih =>
    cases found with
    | nil => simp at hlen
    | cons result found =>
      obtain ⟨hpos, hplaced⟩ := hplaced
      rw [List.zip_cons_cons, List.map_cons, List.zipIdx_cons, List.map_cons, ih (n := n + 1) hplaced (Nat.succ.inj hlen),
        hpos]

theorem rowsFrom_entryOf (f : BulkEntry → Octets) (hplaced : Placed start found) (hlen : found.length = updates.length) :
    rowsFrom start (updates.map entryOf) f =
      (updates.zip found).map fun e => (e.2.logPosition, f (entryOf e.1)) := by
  rw [rows_eq (fun u => f (entryOf u)) (n := 0) hplaced hlen, rowsFrom, List.zipIdx_map, List.map_map]
  rfl

/-- **New labels have the histories that a batch gives them.** -/
theorem putHistories_eq {n : ℕ} {table : Octets → List (ℕ × ℕ)} (hplaced : Placed (start + n) found)
    (hlen : found.length = updates.length) (hversion : ∀ u ∈ updates, u.version = 0)
    (hdistinct : (updates.map PreUpdateData.label).Nodup) (hnew : ∀ u ∈ updates, table u.label = []) :
    ((updates.map entryOf).zipIdx n).foldl (fun (t : Octets → List (ℕ × ℕ)) e =>
        Function.update t e.1.searchKey [(0, start + e.2)]) table =
      Store.putHistoryBatch (Tree.historyBatch updates found) table := by
  induction updates generalizing found n table with
  | nil => rfl
  | cons u updates ih =>
    cases found with
    | nil => simp at hlen
    | cons result found =>
      obtain ⟨hpos, hplaced⟩ := hplaced
      rw [List.map_cons, List.nodup_cons] at hdistinct
      have hnew' : ∀ u' ∈ updates, Function.update table u.label [(0, start + n)] u'.label = [] := by
        intro u' hu'
        have hne : u'.label ≠ u.label := fun heq => hdistinct.1 (heq ▸ List.mem_map_of_mem hu')
        rw [Function.update_of_ne hne]
        exact hnew u' (List.mem_cons_of_mem _ hu')
      have ih' := ih (n := n + 1) hplaced (Nat.succ.inj hlen) (fun u' hu' => hversion u' (List.mem_cons_of_mem _ hu')) hdistinct.2 hnew'
      rw [List.map_cons, List.zipIdx_cons, List.foldl_cons, Tree.historyBatch, List.zip_cons_cons, List.map_cons,
        Store.putHistoryBatch, List.foldl_cons, ← Tree.historyBatch, ← Store.putHistoryBatch]
      dsimp only
      rw [hnew u List.mem_cons_self, List.nil_append, hpos, hversion u List.mem_cons_self]
      exact ih'

/-- Labels that the server does not have are assigned version 0. -/
theorem assigned_new {s : Store} {overlay : Octets → Option ℕ} (hversion : ∀ u ∈ updates, u.version = 0)
    (hdistinct : (updates.map PreUpdateData.label).Nodup) (hnew : ∀ u ∈ updates, s.history u.label = [])
    (hoverlay : ∀ u ∈ updates, overlay u.label = none) : assigned s updates overlay = updates.map .ok := by
  induction updates generalizing overlay with
  | nil => rfl
  | cons u updates ih =>
    rw [List.map_cons, List.nodup_cons] at hdistinct
    have hnext : Tree.nextVersion (s.history u.label) (overlay u.label) = 0 := by
      rw [hnew u List.mem_cons_self, hoverlay u List.mem_cons_self]
      rfl
    have ih' : assigned s updates (Function.update overlay u.label (some 0)) = updates.map .ok := ih
      (fun u' hu' => hversion u' (List.mem_cons_of_mem _ hu')) hdistinct.2
      (fun u' hu' => hnew u' (List.mem_cons_of_mem _ hu')) fun u' hu' => by
        have hne : u'.label ≠ u.label := fun heq => hdistinct.1 (heq ▸ List.mem_map_of_mem hu')
        rw [Function.update_of_ne hne]
        exact hoverlay u' (List.mem_cons_of_mem _ hu')
    rw [assigned, hnext, if_neg (not_not.2 (hversion u List.mem_cons_self)), ih', List.map_cons]

/-! ### One chunk -/

/-- **A chunk is committed as a batch is**, but for the record. -/
theorem commitChunk_runs (hs : t.Sound P epochs) (hsign : Signs P t.config)
    (hmode : t.config.mode ≠ deploymentModeThirdPartyAuditing) (hsize : epochs.length + 1 ≤ 2 ^ 62) (now : U64)
    (slots : List (Result PreUpdateData)) (hne : updates ≠ []) (hkeys : ∀ u ∈ updates, IsKey u.index)
    (hversion : ∀ u ∈ updates, u.version = 0) (hdistinct : (updates.map PreUpdateData.label).Nodup)
    (hnew : ∀ u ∈ updates, t.store.history u.label = []) :
    ∃ r th s, (Tree.commitUpdates P t (some now) slots updates).Runs t.store (r, th) s ∧
      (commitChunk P t.config t (some now) (updates.map entryOf)).Runs t.store th
        (s.withBlobs t.store.auditBlob) := by
  obtain ⟨record, hrecord, -⟩ := auditorUpdate_for (P := P) now hs.keysValid hkeys hs.recorded fun _ _ => hs.leaf
  have hentries : ∀ b ∈ updates.map PreUpdateData.entry, IsKey b.1 := fun b hb => by
    obtain ⟨u, hu, rfl⟩ := List.mem_map.1 hb
    exact hkeys u hu
  obtain ⟨found, ptr, cache, s₁, hbatch, hsound⟩ := batchInsert_runs (P := P) Tree.dropAll
    (updatesOf epochs).length hs.prefixState_sound rfl hentries fun x hx => (mem_insertionsOf hx).1
  obtain ⟨⟨hplaced, hlen⟩, hs₁⟩ := batchInsert_placed hbatch
  rw [List.length_map] at hlen
  obtain ⟨prefixes, rfl⟩ : ∃ prefixes, s₁ = { t.store with prefixes } := ⟨_, hs₁⟩
  have hinserted : insertionsFrom (updatesOf epochs).length (updates.map PreUpdateData.entry) ≠ [] := by
    rw [← List.length_pos_iff, length_insertionsFrom, List.length_map, List.length_pos_iff]
    exact hne
  obtain ⟨root, hroot⟩ : ∃ root, Tree.lastRoot (rootsFrom P (insertionsOf epochs) (insertionsFrom
      (updatesOf epochs).length (updates.map PreUpdateData.entry))) = .ok root := by
    rw [Tree.lastRoot, rootsFrom_getLast? _ hinserted]
    exact ⟨_, rfl⟩
  -- the log is appended to in the store that the prefix tree's tables were written to
  obtain ⟨s₂, hs₂⟩ : ∃ s₂ : Store, s₂ = { t.store with
      prefixes
      prefixPtr := Function.update t.store.prefixPtr t.treeSize (some ptr)
      nextPrefixVersion := some (ptr + 1) } := ⟨_, rfl⟩
  have hholds : Holds s₂ (leavesOf P epochs) := hs.log.congr (by rw [hs₂])
  obtain ⟨s₃, ⟨hholds', hs₃⟩, happend⟩ := LogTree.batchAppend_spec (P := P) hholds
    (show (leavesOf P epochs).length + [(now, root)].length ≤ 2 ^ 62 by simpa using hsize)
  rw [length_leavesOf] at hs₃ happend
  obtain ⟨signature, hhead⟩ := signHead_eq hsign (epochs.length + 1) now (length_logRoot hholds'.digest)
  have hhead' : bulkHead P t.config (epochs.length + 1) now
      (logRoot P (leavesOf P epochs ++ [(now, root)].map (LogTree.entryLeaf P))) =
      .ok ⟨epochs.length + 1, asI64 now, [signature]⟩ := by
    rw [← hhead, Tree.signHead, bulkHead, if_neg hmode]
  have hkept : s₃.auditBlob = t.store.auditBlob ∧ s₃.history = t.store.history := by
    rw [hs₃, hs₂]
    exact ⟨rfl, rfl⟩
  have hnext : Db.Runs (Db.read fun s => .ok (LogTree.getNextPrefixVersion s)) t.store
      (updatesOf epochs).length t.store := Db.runs_read (by rw [hs.next])
  refine ⟨Tree.fillSlots (Tree.getFullTreeHead
      { t with latest := some ⟨epochs.length + 1, asI64 now, [signature]⟩ } none) slots found,
    ⟨epochs.length + 1, asI64 now, [signature]⟩, { s₃ with
      auditBlob := Function.update s₃.auditBlob epochs.length (some record)
      value := Store.putAll (Tree.valueBatch updates found) s₃.value
      opening := Store.putAll (Tree.openingBatch updates found) s₃.opening
      history := Store.putHistoryBatch (Tree.historyBatch updates found) s₃.history
      head := some ⟨epochs.length + 1, asI64 now, [signature]⟩ }, ?_, ?_⟩
  · unfold Tree.commitUpdates
    refine (Db.runs_ofResult rfl _).bind (hnext.bind
      (hs.runs_currentLogPtr.bind ((Db.runs_read hrecord).bind (hbatch.bind ?_))))
    refine (Db.runs_write _ _).bind ((Db.runs_write _ _).bind ((Db.runs_ofResult hroot _).bind ?_))
    rw [← hs₂, hs.size]
    exact happend.bind ((Db.runs_write _ _).bind ((Db.runs_write _ _).bind ((Db.runs_write _ _).bind
      ((Db.runs_write _ _).bind ((Db.runs_ofResult hhead _).bind ((Db.runs_write _ _).bind (Db.runs_pure _ _)))))))
  · have hpairs : (updates.map entryOf).map BulkEntry.pair = updates.map PreUpdateData.entry := by
      rw [List.map_map]
      rfl
    have hkeys' : ((updates.map entryOf).map BulkEntry.searchKey).Nodup := by
      rw [List.map_map]
      exact hdistinct
    have hhistory : putHistories (updatesOf epochs).length (updates.map entryOf) s₃.history =
        Store.putHistoryBatch (Tree.historyBatch updates found) s₃.history :=
      putHistories_eq (n := 0) hplaced hlen hversion hdistinct (by rw [hkept.2]; exact hnew)
    have hingest := ingestAll_runs (updatesOf epochs).length
      (fun hnil => hne (List.map_eq_nil_iff.1 hnil)) hkeys' s₃
    unfold commitChunk
    dsimp only
    rw [hpairs]
    refine hnext.bind (hs.runs_currentLogPtr.bind (hbatch.bind ((Db.runs_ofResult rfl _).bind ?_)))
    refine (Db.runs_write _ _).bind ((Db.runs_write _ _).bind ((Db.runs_ofResult hroot _).bind ?_))
    rw [← hs₂, hs.size]
    refine happend.bind (hingest.bind ((Db.runs_ofResult hhead' _).bind ((Db.runs_write _ _).bind ?_)))
    rw [Store.withBlobs, hhistory, rowsFrom_entryOf _ hplaced hlen, rowsFrom_entryOf _ hplaced hlen, ← hkept.1]
    exact Db.runs_pure _ _

/-! ### All chunks -/

theorem flatten_chunks {α : Type} {size : ℕ} (hsize : 0 < size) {fuel : ℕ} {l : List α} (hfuel : l.length ≤ fuel) :
    (chunks size fuel l).flatten = l := by
  induction fuel generalizing l with
  | zero => rw [List.length_eq_zero_iff.1 (Nat.le_zero.1 hfuel), chunks, List.flatten_nil]
  | succ fuel ih =>
    cases l with
    | nil => rfl
    | cons a rest =>
      have hlen : ((a :: rest).drop size).length ≤ fuel := by
        rw [List.length_drop]
        omega
      rw [chunks, List.flatten_cons, ih hlen, List.take_append_drop]

theorem chunks_ne_nil {α : Type} {size : ℕ} (hsize : 0 < size) {fuel : ℕ} {l : List α} :
    ∀ c ∈ chunks size fuel l, c ≠ [] ∧ c.length ≤ size := by
  induction fuel generalizing l with
  | zero => simp [chunks]
  | succ fuel ih =>
    cases l with
    | nil => simp [chunks]
    | cons a rest =>
      intro c hc
      rcases List.mem_cons.1 hc with rfl | hc
      · refine ⟨fun hnil => ?_, List.length_take_le _ _⟩
        have hlen := congrArg List.length hnil
        simp only [List.length_take, List.length_cons, List.length_nil] at hlen
        omega
      · exact ih c hc

theorem length_chunks_le {α : Type} {size : ℕ} (hsize : 0 < size) {fuel : ℕ} {l : List α} :
    (chunks size fuel l).length ≤ l.length := by
  induction fuel generalizing l with
  | zero => exact Nat.zero_le _
  | succ fuel ih =>
    cases l with
    | nil => exact le_rfl
    | cons a rest =>
      have hle := ih (l := (a :: rest).drop size)
      rw [chunks, List.length_cons]
      rw [List.length_drop, List.length_cons] at hle
      rw [List.length_cons]
      omega

/-- An entry is what is computed for an update that is version 0. -/
theorem bulkEntry_of_precompute {config : PrivateConfig} {opening value : Octets} {last : ℕ} {u : PreUpdateData}
    (h : Batcher.precompute P config opening ⟨label, value, last, 0⟩ = .ok u) :
    bulkEntry P config opening (label, value) = .ok (entryOf u) := by
  obtain ⟨vrf, hprove, h⟩ := Result.bind_eq_ok.1 h
  obtain ⟨commitment, hcommit, h⟩ := Result.bind_eq_ok.1 h
  obtain rfl := Except.ok.inj h
  unfold bulkEntry
  rw [hprove, Result.ok_bind]
  dsimp only
  rw [hcommit]
  rfl

/-- The updates that the entries of a chunk are taken from. -/
theorem exists_updates {config : PrivateConfig} (hvrf : VrfWorks P config) {openings : ℕ → Octets}
    {labels : List (Octets × Octets)} (hlabels : ∀ l ∈ labels, l.1.length < 256 ∧ l.2.length < 2 ^ 32)
    (hopenings : ∀ i, (openings i).length = 16) :
    ∃ updates : List PreUpdateData, bulkEntries P config openings labels = .ok (updates.map entryOf) ∧
      updates.map (fun u => (u.label, u.value)) = labels ∧ ∀ u ∈ updates, u.version = 0 ∧ IsKey u.index ∧
        ∃ opening, Batcher.precompute P config opening ⟨u.label, u.value, u.last, u.version⟩ = .ok u := by
  have hall : ∀ label ∈ labels.zipIdx, ∃ e, bulkEntry P config (openings label.2) label.1 = .ok e ∧
      ∃ u, e = entryOf u ∧ (u.label, u.value) = label.1 ∧ u.version = 0 ∧ IsKey u.index ∧
        ∃ opening, Batcher.precompute P config opening ⟨u.label, u.value, u.last, u.version⟩ = .ok u := by
    intro label hlabel
    obtain ⟨hl, hv⟩ := hlabels label.1 (List.fst_mem_of_mem_zipIdx hlabel)
    obtain ⟨u, hu, hkey, hul, huv, hlast, hversion, hopening⟩ :=
      exists_precompute (P := P) hvrf hl hv (hopenings label.2) 0 0
    refine ⟨entryOf u, bulkEntry_of_precompute hu, u, rfl, by rw [hul, huv], hversion, hkey, openings label.2, ?_⟩
    rw [hul, huv, hlast, hversion]
    exact hu
  obtain ⟨entries, hentries, hgood⟩ := Result.exists_mapM_eq_ok hall
  have hupdates : ∃ updates : List PreUpdateData, entries = updates.map entryOf ∧
      updates.map (fun u => (u.label, u.value)) = labels.zipIdx.map Prod.fst ∧
      ∀ u ∈ updates, u.version = 0 ∧ IsKey u.index ∧
        ∃ opening, Batcher.precompute P config opening ⟨u.label, u.value, u.last, u.version⟩ = .ok u := by
    clear hall hentries
    generalize labels.zipIdx = pairs at hgood ⊢
    induction hgood with
    | nil => exact ⟨[], rfl, rfl, by simp⟩
    | cons h _ ih =>
      obtain ⟨u, rfl, hu, hgood⟩ := h
      obtain ⟨updates, rfl, hmap, hall⟩ := ih
      refine ⟨u :: updates, rfl, by rw [List.map_cons, List.map_cons, hu, hmap], fun u' hu' => ?_⟩
      rcases List.mem_cons.1 hu' with rfl | hu'
      · exact hgood
      · exact hall u' hu'
  obtain ⟨updates, rfl, hmap, hgood'⟩ := hupdates
  exact ⟨updates, hentries, by rw [hmap, List.zipIdx_map_fst], hgood'⟩

theorem historyFrom_eq_nil {us : List PreUpdateData} {position : ℕ} (h : ∀ u ∈ us, u.label ≠ label) :
    historyFrom label position us = [] := by
  induction us generalizing position with
  | nil => rfl
  | cons u us ih =>
    rw [historyFrom, if_neg (h u List.mem_cons_self)]
    exact ih fun u' hu' => h u' (List.mem_cons_of_mem _ hu')

/-- One chunk, for a server of which the records are left out. -/
theorem commitChunk_written (h : WrittenLog P t epochs) (hmode : t.config.mode ≠ deploymentModeThirdPartyAuditing)
    (hsize : epochs.length + 1 ≤ 2 ^ 62) (now : U64) (hne : updates ≠ [])
    (hgood : ∀ u ∈ updates, u.version = 0 ∧ IsKey u.index ∧
      ∃ opening, Batcher.precompute P t.config opening ⟨u.label, u.value, u.last, u.version⟩ = .ok u)
    (hdistinct : (updates.map PreUpdateData.label).Nodup)
    (hnew : ∀ u ∈ updatesOf epochs, ∀ u' ∈ updates, u.label ≠ u'.label) (blobs : ℕ → Option AuditorUpdate) :
    ∃ th s, commitChunk P t.config { t with store := t.store.withBlobs blobs } (some now) (updates.map entryOf)
        ⟨t.store.withBlobs blobs, none⟩ = (.ok th, ⟨Store.withBlobs blobs s, none⟩) ∧
      WrittenLog P { t with store := s, latest := some th } (epochs ++ [⟨now, updates⟩]) := by
  obtain ⟨hs, hsign⟩ := h.run.sound
  have hempty : ∀ u ∈ updates, t.store.history u.label = [] := by
    intro u hu
    rw [hs.history, historyOf]
    exact historyFrom_eq_nil fun u' hu' => hnew u' hu' u hu
  have hkeys : ∀ u ∈ updates, IsKey u.index := fun u hu => (hgood u hu).2.1
  have hassigned : assigned t.store updates (fun _ => none) = updates.map .ok :=
    assigned_new (fun u hu => (hgood u hu).1) hdistinct hempty fun _ _ => rfl
  have hvalid : validUpdates t.store updates = updates := by
    rw [validUpdates, hassigned, List.filterMap_map]
    exact List.filterMap_some
  obtain ⟨r, th, s, hcommit, hchunk⟩ := commitChunk_runs hs hsign hmode hsize now
    (assigned t.store updates fun _ => none) hne hkeys (fun u hu => (hgood u hu).1) hdistinct hempty
  have happly : (Tree.applyBatch P t (some now) updates).Runs t.store (r, th) s :=
    runs_applyBatch (by rwa [hvalid]) (by rwa [hvalid])
  rw [Db.Runs] at happly
  have hafter : (Tree.afterBatch P t none (some now) updates).2 = { t with store := s, latest := some th } := by
    rw [Tree.afterBatch, happly]
  have hcommitted : committedBy t now updates = [⟨now, updates⟩] := by rw [committedBy, hvalid, if_neg hne]
  have run := h.run.batch now updates hkeys hsize
  rw [hafter, hcommitted] at run
  refine ⟨th, s, ?_, h.append run rfl (fun u hu => (hgood u hu).2.2) fun u hu => ?_⟩
  · have hruns := (commitChunk_ignores t.config t (some now) (updates.map entryOf)).runs (g := Store.withBlobs blobs) hchunk
    exact hruns
  · rw [(hgood u hu).1]
    exact Nat.zero_le _

/-- **The loop over the chunks.** -/
theorem populateChunks_written {clock : ℕ → U64} {openings : ℕ → ℕ → Octets}
    (hopenings : ∀ i j, (openings i j).length = 16) (parts : List (List (Octets × Octets))) (i : ℕ)
    (h : WrittenLog P t epochs) (hmode : t.config.mode ≠ deploymentModeThirdPartyAuditing)
    (hsize : epochs.length + parts.length ≤ 2 ^ 62) (hne : ∀ c ∈ parts, c ≠ [])
    (hlabels : ∀ l ∈ parts.flatten, l.1.length < 256 ∧ l.2.length < 2 ^ 32)
    (hdistinct : (parts.flatten.map Prod.fst).Nodup)
    (hnew : ∀ u ∈ updatesOf epochs, ∀ l ∈ parts.flatten, u.label ≠ l.1) (blobs : ℕ → Option AuditorUpdate) :
    ∃ news t', populateChunks P t.config (fun i => some (clock i)) openings parts i none
        { t with store := t.store.withBlobs blobs } = (.ok (), { t' with store := t'.store.withBlobs blobs }) ∧
      WrittenLog P t' (epochs ++ news) ∧
      news.map (fun e => e.updates.map fun u => (u.label, u.value)) = parts ∧
      news.map Epoch.timestamp = (List.range' i parts.length).map clock ∧ ∀ u ∈ updatesOf news, u.version = 0 := by
  induction parts generalizing i t epochs with
  | nil => exact ⟨[], t, rfl, by rwa [List.append_nil], rfl, rfl, by simp [updatesOf]⟩
  | cons chunk parts ih =>
    rw [List.flatten_cons, List.map_append, List.nodup_append] at hdistinct
    obtain ⟨hchunk, hparts, hdisjoint⟩ := hdistinct
    obtain ⟨updates, hentries, hmap, hgood⟩ := exists_updates h.vrf
      (fun l hl => hlabels l (List.mem_append_left _ hl)) (hopenings i)
    have hlabel : updates.map PreUpdateData.label = chunk.map Prod.fst := by
      rw [← hmap, List.map_map]
      rfl
    have hmem : ∀ u ∈ updates, (u.label, u.value) ∈ chunk := fun u hu => hmap ▸ List.mem_map_of_mem hu
    have hne' : updates ≠ [] := by
      rintro rfl
      exact hne chunk List.mem_cons_self hmap.symm
    rw [List.length_cons] at hsize
    obtain ⟨th, s, hrun, hwritten⟩ := commitChunk_written h hmode (by omega) (clock i) hne' hgood
      (by rwa [hlabel]) (fun u hu u' hu' => hnew u hu _ (List.mem_append_left _ (hmem u' hu'))) blobs
    obtain ⟨news, t', hrest, hwritten', hnews, htimes, hversions⟩ := ih (i + 1) hwritten hmode
      (by rw [List.length_append, List.length_singleton]; omega) (fun c hc => hne c (List.mem_cons_of_mem _ hc))
      (fun l hl => hlabels l (List.mem_append_right _ hl)) hparts fun u hu l hl => by
        rw [updatesOf_append] at hu
        rcases List.mem_append.1 hu with hu | hu
        · exact hnew u hu l (List.mem_append_right _ hl)
        · exact hdisjoint _ (List.mem_map_of_mem (f := Prod.fst) (hmem u hu)) _ (List.mem_map_of_mem hl)
    refine ⟨⟨clock i, updates⟩ :: news, t', ?_, by rwa [List.append_assoc] at hwritten', ?_, ?_, ?_⟩
    · unfold populateChunks
      rw [hentries]
      dsimp only
      rw [hrun]
      exact hrest
    · rw [List.map_cons, hmap, hnews]
    · rw [List.map_cons, htimes, List.length_cons, List.range'_succ, List.map_cons]
    · intro u hu
      rcases List.mem_append.1 (show u ∈ updates ++ updatesOf news from hu) with hu | hu
      · exact (hgood u hu).1
      · exact hversions u hu

end Bulk

end KeyTransparency
