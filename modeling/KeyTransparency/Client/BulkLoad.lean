/-
# Servers that were loaded in bulk

`bulk_load_run`: labels that are new to a server are loaded by `bulk_populate` as if each
chunk of them had come in as a batch, except that the auditors get no records.

`parallel_bulk_populate` builds the prefix tree of each partition of its labels by itself and
writes the hashes and pointers above the partitions' roots into the entries afterwards.
`parallel_bulk_load`: if no two partitions beside each other are both empty, and only then,
the root that it puts into the log is that of the labels inserted one after another; and if
the partitions are `Spread`, every search from its pointer, of a label that was loaded or of
any other, gives the client a proof of what the map holds that folds to this root.
-/

import KeyTransparency.Client.HonestServer
import KeyTransparency.Client.PrefixRefinement
import KeyTransparency.Tree.BulkRun

namespace KeyTransparency

open SparseMerkle BitPath

namespace Bulk

variable {P : Primitives} {config : PrivateConfig} {openings : ℕ → Octets} {labels : List (Octets × Octets)}
  {entries : List BulkEntry}

/-! ### Chunk by chunk -/

/-- **A bulk load is a run.**  Labels that are new to a server are loaded as if each chunk
of them had come in as a batch, at version 0 and at the reading of the clock for the chunk:
what the server then has differs from it only in the auditors' records, of which none is
made. -/
theorem bulk_load_run (P : Primitives) {t : Tree} {epochs : List Epoch} (h : WrittenLog P t epochs)
    (hmode : t.config.mode ≠ deploymentModeThirdPartyAuditing) {labels : List (Octets × Octets)}
    (hsize : epochs.length + labels.length ≤ 2 ^ 62)
    (hlabels : ∀ l ∈ labels, l.1.length < 256 ∧ l.2.length < 2 ^ 32) (hdistinct : (labels.map Prod.fst).Nodup)
    (hnew : ∀ u ∈ updatesOf epochs, ∀ l ∈ labels, u.label ≠ l.1) {chunkSize : ℕ} (hchunk : 0 < chunkSize)
    (clock : ℕ → U64) {openings : ℕ → ℕ → Octets} (hopenings : ∀ i j, (openings i j).length = 16) :
    ∃ news t', bulkPopulate P t.config labels chunkSize (fun i => some (clock i)) openings none t =
        (.ok (), { t' with store := t'.store.withBlobs t.store.auditBlob }) ∧
      WrittenLog P t' (epochs ++ news) ∧
      (updatesOf news).map (fun u => (u.label, u.value, u.version)) = labels.map (fun l => (l.1, l.2, 0)) ∧
      (∀ e ∈ news, e.updates ≠ [] ∧ e.updates.length ≤ chunkSize) ∧
      news.map Epoch.timestamp = (List.range news.length).map clock := by
  obtain ⟨parts, hparts⟩ : ∃ parts, parts = chunks chunkSize labels.length labels := ⟨_, rfl⟩
  have hflatten : parts.flatten = labels := by
    rw [hparts]
    exact flatten_chunks hchunk le_rfl
  have hlen : parts.length ≤ labels.length := by
    rw [hparts]
    exact length_chunks_le hchunk
  obtain ⟨news, t', hrun, hwritten, hnews, htimes, hversions⟩ := populateChunks_written hopenings parts 0 h hmode
    (by omega) (fun c hc => (chunks_ne_nil hchunk c (hparts ▸ hc)).1) (by rwa [hflatten]) (by rwa [hflatten])
    (by rwa [hflatten]) t.store.auditBlob
  have hcount : news.length = parts.length := by rw [← hnews, List.length_map]
  refine ⟨news, t', ?_, hwritten, ?_, fun e he => ?_, ?_⟩
  · unfold bulkPopulate
    split_ifs with hnil hzero
    · have hparts' : parts = [] := by
        rw [hparts, hnil]
        rfl
      rw [hparts'] at hrun
      exact hrun
    · omega
    · rw [← hparts]
      exact hrun
  · have hpairs : (updatesOf news).map (fun u => (u.label, u.value)) = labels := by
      rw [← hflatten, ← hnews, updatesOf, List.flatMap_def, List.map_flatten, List.map_map]
      rfl
    rw [← hpairs, List.map_map]
    refine List.map_congr_left fun u hu => ?_
    rw [Function.comp_apply, hversions u hu]
  · have hmem : e.updates.map (fun u => (u.label, u.value)) ∈ parts := hnews ▸ List.mem_map_of_mem he
    obtain ⟨hne, hle⟩ := chunks_ne_nil hchunk _ (hparts ▸ hmem)
    exact ⟨fun hnil => hne (List.map_eq_nil_iff.2 hnil), by rwa [List.length_map] at hle⟩
  · rw [htimes, hcount, List.range_eq_range']

/-- Three labels, in chunks of two. -/
theorem bulk_load_run_three : ∃ news t',
    bulkPopulate Primitives.ideal (sampleServerConfig 5) [([], [7]), ([0], [8]), ([1], [9])] 2 (fun _ => some 3)
        (fun _ _ => List.replicate 16 0) none (emptyServer (sampleServerConfig 5)) =
      (.ok (), { t' with store := t'.store.withBlobs fun _ => none }) ∧
    WrittenLog Primitives.ideal t' news ∧
    (updatesOf news).map (fun u => (u.label, u.value, u.version)) = [([], [7], 0), ([0], [8], 0), ([1], [9], 0)] := by
  have hwritten : WrittenLog Primitives.ideal (emptyServer (sampleServerConfig 5)) [] :=
    ⟨.start _ ⟨_, rfl⟩, by simp [updatesOf], by simp [updatesOf], vrfWorks_ideal _⟩
  obtain ⟨news, t', hrun, hwritten', hupdates, -⟩ := bulk_load_run Primitives.ideal hwritten (by decide)
    (show 0 + [(([] : Octets), ([7] : Octets)), ([0], [8]), ([1], [9])].length ≤ 2 ^ 62 by decide) (by decide)
    (by decide) (by simp [updatesOf]) (show 0 < 2 by decide) (fun _ => 3)
    (show ∀ _ _ : ℕ, (List.replicate 16 0 : Octets).length = 16 from fun _ _ => rfl)
  exact ⟨news, t', hrun, hwritten', hupdates⟩

/-! ### In parallel -/

theorem bulkEntry_ok {opening : Octets} {label : Octets × Octets} {e : BulkEntry}
    (h : bulkEntry P config opening label = .ok e) : (e.searchKey, e.value) = label ∧ IsKey e.index := by
  obtain ⟨⟨index, proof⟩, hvrf, h⟩ := Result.bind_eq_ok.1 h
  obtain ⟨commitment, -, h⟩ := Result.bind_eq_ok.1 h
  obtain rfl := Except.ok.inj h
  obtain ⟨input, -, hvrf⟩ := Result.bind_eq_ok.1 hvrf
  obtain ⟨hlen, hbytes⟩ := P.ecvrfProve_bytes hvrf
  exact ⟨rfl, hlen, hbytes⟩

/-- The entries are those of the labels, in their order. -/
theorem bulkEntries_ok (h : bulkEntries P config openings labels = .ok entries) :
    entries.map (fun e => (e.searchKey, e.value)) = labels ∧ ∀ e ∈ entries, IsKey e.index := by
  have hall := (Batcher.forall₂_of_mapM_eq_ok h).imp fun label e he => bulkEntry_ok he
  constructor
  · have hmap : List.Forall₂ (fun a b => a = b) (labels.zipIdx.map Prod.fst)
        (entries.map fun e => (e.searchKey, e.value)) :=
      List.forall₂_map_left_iff.2 (List.forall₂_map_right_iff.2 (hall.imp fun _ _ h => h.1.symm))
    rw [List.forall₂_eq_eq_eq, List.zipIdx_map_fst] at hmap
    exact hmap.symm
  · intro e he
    obtain ⟨i, hi, rfl⟩ := List.mem_iff_getElem.1 he
    have hget := List.Forall₂.get hall (by rw [hall.length_eq]; exact hi) hi
    exact hget.2

theorem searchKeys_eq (h : bulkEntries P config openings labels = .ok entries) :
    entries.map BulkEntry.searchKey = labels.map Prod.fst := by
  rw [← (bulkEntries_ok h).1, List.map_map]
  rfl

/-- Maps that agree on keys have one root. -/
theorem prefixRoot_congr {commitments commitments' : Octets → Option Octets}
    (heq : ∀ key, IsKey key → commitments key = commitments' key) :
    prefixRoot P commitments = prefixRoot P commitments' := by
  refine hash_congr fun q hq => ?_
  rw [List.nil_append, prefixLeaves, prefixLeaves, heq _ (isKey_keyOf hq)]

theorem Says_congr {commitments commitments' : Octets → Option Octets} {key : Octets} {r : ProofResult}
    (heq : commitments key = commitments' key) (h : r.Says commitments key) : r.Says commitments' key := by
  rwa [ProofResult.Says, ← heq]

/-- **The root of the hash tree** is that of the whole history if and only if the partitions
are paired. -/
theorem root_iff {k : ℕ} {hists : List (List Insertion)} {hashes : List Octets}
    (hinj : Function.Injective P.sha256) (hzero : ∀ m, P.sha256 m ≠ zeroValue) (hp : Parted k hists)
    (hhashes : ∀ j < 2 ^ k, hashes.getD j [] = subtreeHash P (commitmentsOf (joined hists)) (nodePath k j)) :
    ((buildHashTree P k hashes).getD 0 []).getD 0 [] = prefixRoot P (commitmentsOf (joined hists)) ↔ Paired hists := by
  rw [hp.paired_iff]
  constructor
  · intro hroot
    exact (of_buildHashTree_root hinj hzero hp.keysValid hp.depth
      (fun j hj => by rw [hhashes j hj]; exact length_subtreeHash hinj hzero _ _) hroot).2
  · intro hne
    exact buildHashTree_eq hp.keysValid hp.depth hhashes hne (Nat.zero_le k) Nat.one_pos

/-- **A server that was loaded in parallel.** -/
theorem parallel_bulk_load (P : Primitives) (hinj : Function.Injective P.sha256)
    (hzero : ∀ m, P.sha256 m ≠ zeroValue) {t : Tree} {epochs : List Epoch} (run : ServerRun P t epochs)
    (hmode : t.config.mode ≠ deploymentModeThirdPartyAuditing) (hsize : epochs.length + 1 ≤ 2 ^ 62)
    {k : ℕ} (hk : k ≤ 256) {labels : List (Octets × Octets)} (hne : labels ≠ [])
    (hdistinct : (labels.map Prod.fst).Nodup) {openings : ℕ → Octets} {entries : List BulkEntry}
    (hentries : bulkEntries P t.config openings labels = .ok entries) (now : U64) :
    ∃ t' root ptr, parallelBulkPopulate P t.config labels k (some now) openings none t = (.ok (), t') ∧
      t'.treeSize = t.treeSize + 1 ∧ t'.store.prefixRoot t.treeSize = some root ∧
      t'.store.prefixPtr t.treeSize = some ptr ∧
      (root = prefixRoot P (loadedMap entries) ↔ Paired (partitions k entries)) ∧
      (Spread (partitions k entries) → ∀ (key : Octets) (evict : Eviction), IsKey key → ∃ r nodes,
        PrefixTree.searchForProof P evict t'.store ptr key Nodes.cold = .ok (r, nodes) ∧
        r.Says (loadedMap entries) key ∧
        PrefixVerifier.computeRootFromResult P ⟨[r.searchResult], r.inclusionProof⟩ 0 key r.commitment 0 =
          .ok (root, r.depth)) := by
  obtain ⟨hs, c, hconf⟩ := run.sound
  rw [if_neg hmode] at hconf
  obtain ⟨-, hkeys⟩ := bulkEntries_ok hentries
  have hdistinct' : (entries.map BulkEntry.searchKey).Nodup := by rwa [searchKeys_eq hentries]
  have hne' : entries ≠ [] := by
    rintro rfl
    exact hne (List.map_eq_nil_iff.1 (searchKeys_eq hentries).symm)
  obtain ⟨hists, hhists⟩ : ∃ hists, hists = histories (updatesOf epochs).length (partitions k entries) := ⟨_, rfl⟩
  obtain ⟨s', th, hashes, root, ptr, hruns, hroot, hhashes, hptr, hprefixPtr, hprefixRoot, hhead, hleaf, hmended⟩ :=
    commitPartitions_runs hs hk hsize hconf hkeys hne' hdistinct' now hhists
  have hp : Parted k hists := by
    rw [hhists]
    exact parted_histories hk hkeys _
  have hmap : ∀ key, IsKey key → commitmentsOf (joined hists) key = loadedMap entries key := by
    intro key hkey
    rw [hhists]
    exact commitmentsOf_partitions hk hkeys _ hkey
  have hpaired : Paired hists ↔ Paired (partitions k entries) := by
    rw [hhists]
    exact paired_histories _ _
  have hspread_iff : Spread hists ↔ Spread (partitions k entries) := by
    rw [hhists]
    exact spread_histories _ _
  have hth : th.treeSize = epochs.length + 1 := by
    obtain ⟨tbs, -, hth⟩ := Result.bind_eq_ok.1 hhead
    obtain rfl := Except.ok.inj hth
    rfl
  refine ⟨{ t with store := s', latest := some th }, root, ptr, ?_, ?_, ?_, ?_, ?_, fun hspread key evict hkey => ?_⟩
  · have hrun : commitPartitions P t.config t (some now) k entries ⟨t.store, none⟩ = (.ok th, ⟨s', none⟩) := hruns
    unfold parallelBulkPopulate
    rw [if_neg hne, hentries]
    dsimp only
    rw [hrun]
  · rw [hs.size]
    exact hth
  · rw [hs.size]
    exact hprefixRoot
  · rw [hs.size]
    exact hprefixPtr
  · rw [← hpaired, ← prefixRoot_congr hmap, hroot]
    exact root_iff hinj hzero hp hhashes
  · have hspread' := hspread_iff.2 hspread
    have hrooteq : root = prefixRoot P (commitmentsOf (joined hists)) := by
      rw [hroot]
      exact (root_iff hinj hzero hp hhashes).2 hspread'.paired
    have hm := hmended (fun l hl j hj => buildHashTree_eq hp.keysValid hp.depth hhashes
      (hp.paired_iff.1 hspread'.paired) hl hj) hspread'
    cases hjoin : joined hists with
    | nil =>
      rw [hjoin] at hptr
      cases hptr
    | cons x before =>
      rw [hjoin] at hptr hm hrooteq hmap
      have hvalid : KeysValid (x :: before) := hjoin ▸ hp.keysValid
      obtain rfl := Option.some.inj hptr
      obtain ⟨found, hfound, hends⟩ := hm.search hvalid hkey
      obtain ⟨r, hr, hsays, hfold⟩ := hends.proof_eq hvalid hkey
      have hcold : coldProof P s'.prefixes x.position key = .ok r := by
        rw [coldProof, hfound, Result.ok_bind, hr]
      have hold : Nodes.cold.Hold P s' s'.prefixes := NodeCache.Of.hold (fun _ _ h => by cases h) hleaf
      have hans := searchForProof_answers evict hold x.position key
      rw [hcold] at hans
      obtain ⟨nodes, hnodes, -⟩ := hans
      refine ⟨r, nodes, hnodes, Says_congr (hmap key hkey) hsays, ?_⟩
      rw [hrooteq]
      refine hfold ⟨rfl, ?_, ?_⟩
      · rw [List.drop_zero, List.take_of_length_le (coldProof_depth hcold).ge]
      · rw [Nat.zero_add, coldProof_depth hcold]

/-- The entries of labels that a server can serve. -/
theorem exists_bulkEntries (hvrf : VrfWorks P config) (hlabels : ∀ l ∈ labels, l.1.length < 256 ∧ l.2.length < 2 ^ 32)
    (hopenings : ∀ i, (openings i).length = 16) : ∃ entries, bulkEntries P config openings labels = .ok entries := by
  obtain ⟨updates, hentries, -⟩ := exists_updates hvrf hlabels hopenings
  exact ⟨updates.map entryOf, hentries⟩

/-- Two labels in two partitions: whichever they fall into. -/
theorem parallel_bulk_load_two : ∃ entries t' root ptr,
    parallelBulkPopulate Primitives.ideal (sampleServerConfig 5) [([], [7]), ([0], [8])] 1 (some 3)
      (fun _ => List.replicate 16 0) none (emptyServer (sampleServerConfig 5)) = (.ok (), t') ∧
    t'.treeSize = 1 ∧ t'.store.prefixRoot 0 = some root ∧ t'.store.prefixPtr 0 = some ptr ∧
    root = prefixRoot Primitives.ideal (loadedMap entries) := by
  obtain ⟨entries, hentries⟩ : ∃ entries, bulkEntries Primitives.ideal (sampleServerConfig 5)
      (fun _ => List.replicate 16 0) [([], [7]), ([0], [8])] = .ok entries :=
    exists_bulkEntries (vrfWorks_ideal _) (by decide) fun _ => rfl
  have hpaired : Paired (partitions 1 entries) := by
    have hne : entries ≠ [] := by
      rintro rfl
      cases (searchKeys_eq hentries)
    intro j hj
    rw [length_partitions] at hj
    obtain rfl : j = 0 := by omega
    by_contra hempty
    rw [not_or, not_not, not_not] at hempty
    exact partitions_ne_nil (show 1 ≤ 256 by decide) hne (by
      have htwo : partitions 1 entries = [(partitions 1 entries).getD 0 [], (partitions 1 entries).getD 1 []] := rfl
      rw [htwo, hempty.1, hempty.2]
      rfl)
  obtain ⟨t', root, ptr, hrun, hsize, hroot, hptr, hiff, -⟩ := parallel_bulk_load Primitives.ideal
    Primitives.ideal_sha256_injective Primitives.ideal_sha256_ne_zeros
    (ServerRun.start (sampleServerConfig 5) ⟨_, rfl⟩) (by decide) (by decide) (show 1 ≤ 256 by decide)
    (by simp) (by decide) hentries 3
  exact ⟨entries, t', root, ptr, hrun, hsize, hroot, hptr, hiff.2 hpaired⟩

end Bulk

end KeyTransparency
