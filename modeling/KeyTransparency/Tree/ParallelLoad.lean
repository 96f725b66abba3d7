/-
# The run of a parallel load

The partitions' trees are written one beside another (`insertPartitions_runs`); their roots
hash to the root of the whole tree, and the merged entries take the places of theirs
(`mergeBatch`).  `commitPartitions_runs` follows the store through all of it.
-/

import KeyTransparency.Tree.Partitioned

namespace KeyTransparency

open SparseMerkle BitPath

namespace Bulk

variable {P : Primitives} {k i p start pos : ℕ} {parts : List (List BulkEntry)} {part entries : List BulkEntry}
  {h : List Insertion} {x : Insertion} {s : Store}

/-! ### The histories of the partitions -/

/-- The histories of partitions at positions one after another. -/
def histories : ℕ → List (List BulkEntry) → List (List Insertion)
  | _, [] => []
  | start, part :: parts =>
    (insertionsFrom start (part.map BulkEntry.pair)).reverse :: histories (start + part.length) parts

theorem joined_histories (start : ℕ) (parts : List (List BulkEntry)) :
    joined (histories start parts) = (insertionsFrom start (parts.flatten.map BulkEntry.pair)).reverse := by
  induction parts generalizing start with
  | nil => rfl
  | cons part parts ih =>
    rw [histories, joined, ih, List.flatten_cons, List.map_append, insertionsFrom_append, List.reverse_append,
      List.length_map]

theorem length_histories (start : ℕ) (parts : List (List BulkEntry)) :
    (histories start parts).length = parts.length := by
  induction parts generalizing start with
  | nil => rfl
  | cons part parts ih => rw [histories, List.length_cons, List.length_cons, ih]

theorem getElem?_histories (start i : ℕ) (parts : List (List BulkEntry)) : (histories start parts)[i]? =
    parts[i]?.map fun part =>
      (insertionsFrom (start + (parts.take i).flatten.length) (part.map BulkEntry.pair)).reverse := by
  induction parts generalizing start i with
  | nil => rfl
  | cons part parts ih =>
    cases i with
    | zero => rfl
    | succ i =>
      rw [histories, List.getElem?_cons_succ, List.getElem?_cons_succ, ih, List.take_succ_cons, List.flatten_cons,
        List.length_append, Nat.add_assoc]

theorem partitionId_eq {index : Octets} (hk : k ≤ 256) : partitionId index k = number ((keyBits index).take k) := by
  rw [partitionId, number, keyBits, ← List.map_take, List.take_range, List.foldl_map,
    Nat.min_eq_left (by simpa [indexLength] using hk)]
  congr 1
  funext n d
  rw [getBit_eq_ite]
  cases getBit index d == 1 <;> rfl

theorem partitionId_lt {index : Octets} (hk : k ≤ 256) : partitionId index k < 2 ^ k := by
  have hlt := number_lt ((keyBits index).take k)
  rwa [List.length_take, length_keyBits, Nat.min_eq_left hk, ← partitionId_eq hk] at hlt

theorem nodePath_partitionId {index : Octets} (hk : k ≤ 256) :
    nodePath k (partitionId index k) = (keyBits index).take k := by
  have hpath := nodePath_number ((keyBits index).take k)
  rwa [List.length_take, length_keyBits, Nat.min_eq_left hk, ← partitionId_eq hk] at hpath

theorem getElem?_partitions (hi : i < 2 ^ k) : (partitions k entries)[i]? =
    some (entries.filter fun e => partitionId e.index k = i) := by
  have hrange : (List.range (1 <<< k))[i]? = some i := List.getElem?_range (by rwa [Nat.one_shiftLeft])
  rw [partitions, List.getElem?_map, hrange]
  rfl

@[simp] theorem length_partitions (k : ℕ) (entries : List BulkEntry) : (partitions k entries).length = 2 ^ k := by
  rw [partitions, List.length_map, List.length_range, Nat.one_shiftLeft]

theorem mem_partitions (hpart : part ∈ partitions k entries) {e : BulkEntry} (he : e ∈ part) : e ∈ entries := by
  obtain ⟨i, -, rfl⟩ := List.mem_map.1 hpart
  exact (List.mem_filter.1 he).1

/-- **The partitions of a load** lie below their nodes. -/
theorem parted_histories (hk : k ≤ 256) (hkeys : ∀ e ∈ entries, IsKey e.index) (start : ℕ) :
    Parted k (histories start (partitions k entries)) where
  length := by rw [length_histories, length_partitions]
  depth := hk
  below i h hi x hx := by
    rw [getElem?_histories] at hi
    obtain ⟨part, hpart, rfl⟩ := Option.map_eq_some_iff.1 hi
    have hlt := (List.getElem?_eq_some_iff.1 hpart).1
    rw [length_partitions] at hlt
    rw [getElem?_partitions hlt] at hpart
    obtain rfl := Option.some.inj hpart
    obtain ⟨e, he, hpair⟩ := List.mem_map.1 (mem_insertionsFrom (List.mem_reverse.1 hx)).2
    have hid : partitionId e.index k = i := by simpa using (List.mem_filter.1 he).2
    rw [← hid, nodePath_partitionId hk, show e.index = x.key from congrArg Prod.fst hpair]
    exact List.take_prefix _ _
  keys h hh x hx := by
    obtain ⟨i, hi⟩ := List.mem_iff_getElem?.1 hh
    rw [getElem?_histories] at hi
    obtain ⟨part, hpart, rfl⟩ := Option.map_eq_some_iff.1 hi
    obtain ⟨e, he, hpair⟩ := List.mem_map.1 (mem_insertionsFrom (List.mem_reverse.1 hx)).2
    rw [show x.key = e.index from (congrArg Prod.fst hpair).symm]
    exact hkeys e (mem_partitions (List.mem_of_getElem? hpart) he)

/-- A partition has a history as it has entries. -/
theorem getD_histories (start i : ℕ) (parts : List (List BulkEntry)) :
    (histories start parts).getD i [] ≠ [] ↔ parts.getD i [] ≠ [] := by
  rw [List.getD_eq_getElem?_getD, List.getD_eq_getElem?_getD, getElem?_histories]
  cases parts[i]? with
  | none => simp
  | some part => cases part <;> simp [insertionsFrom]

theorem paired_histories (start : ℕ) (parts : List (List BulkEntry)) :
    Paired (histories start parts) ↔ Paired parts := by
  simp only [Paired, getD_histories, length_histories]

theorem spread_histories (start : ℕ) (parts : List (List BulkEntry)) :
    Spread (histories start parts) ↔ Spread parts := by
  simp only [Spread, getD_histories, length_histories]

/-- The root of the last partition with entries is the root of all. -/
theorem findSome?_rootPtr (hists : List (List Insertion)) :
    (hists.map rootPtr).reverse.findSome? id = rootPtr (joined hists) := by
  induction hists with
  | nil => rfl
  | cons h hists ih =>
    have hjoin : rootPtr (joined (h :: hists)) = (rootPtr (joined hists)).or (rootPtr h) := by
      rw [joined, rootPtr, List.head?_append, Option.map_or]
      rfl
    rw [List.map_cons, List.reverse_cons, List.findSome?_append, ih, hjoin, List.findSome?_singleton]
    rfl

/-! ### The map of a load -/

/-- The map that the entries make, one inserted after another. -/
def loadedMap (entries : List BulkEntry) : Octets → Option Octets :=
  commitmentsOf (insertionsFrom 0 (entries.map BulkEntry.pair)).reverse

theorem commitmentsOf_insertionsFrom (start : ℕ) (pairs : List (Octets × Octets)) (key : Octets) :
    commitmentsOf (insertionsFrom start pairs).reverse key =
      (pairs.reverse.find? fun e => e.1 = key).map Prod.snd := by
  induction pairs generalizing start with
  | nil => rfl
  | cons e pairs ih =>
    have ih' := ih (start + 1)
    rw [commitmentsOf] at ih'
    rw [commitmentsOf, insertionsFrom, List.reverse_cons, List.find?_append, Option.map_or, ih', List.reverse_cons,
      List.find?_append, Option.map_or]
    by_cases he : e.1 = key <;> simp [he]

/-- **Partitioned, the entries make the same map.** -/
theorem commitmentsOf_partitions (hk : k ≤ 256) (hkeys : ∀ e ∈ entries, IsKey e.index) (start : ℕ) {key : Octets}
    (hkey : IsKey key) : commitmentsOf (joined (histories start (partitions k entries))) key = loadedMap entries key := by
  have hp := parted_histories hk hkeys start
  have hlt : partitionId key k < 2 ^ k := partitionId_lt hk
  have hpart : (partitions k entries)[partitionId key k]? =
      some (entries.filter fun e => partitionId e.index k = partitionId key k) := getElem?_partitions hlt
  have hhist := getElem?_histories start (partitionId key k) (partitions k entries)
  rw [hpart, Option.map_some] at hhist
  have hown : KeysValid _ := hp.keys _ (List.mem_of_getElem? hhist)
  have hbelow : nodePath k (partitionId key k) <+: keyBits key := by
    rw [nodePath_partitionId hk]
    exact List.take_prefix _ _
  rw [commitmentsOf_eq hp.keysValid hkey, hp.latestBelow_part hhist hbelow, ← commitmentsOf_eq hown hkey,
    commitmentsOf_insertionsFrom, loadedMap, commitmentsOf_insertionsFrom, ← List.map_reverse, ← List.map_reverse,
    ← List.filter_reverse, List.find?_map, List.find?_map, List.find?_filter]
  congr 2
  refine congrArg (fun f => entries.reverse.find? f) (funext fun e => ?_)
  by_cases he : e.index = key
  · subst he
    simp [BulkEntry.pair]
  · simp [BulkEntry.pair, he]

/-! ### The trees of the partitions -/

theorem position_lt {pairs : List (Octets × Octets)} (hx : x ∈ insertionsFrom start pairs) :
    x.position < start + pairs.length := by
  induction pairs generalizing start with
  | nil => cases hx
  | cons e pairs ih =>
    rw [List.length_cons]
    rcases List.mem_cons.1 hx with rfl | hx
    · dsimp only
      omega
    · have := ih hx
      omega

/-- **A batch that starts a tree of its own**, beside what the store has before. -/
theorem batchInsert_apart (evict : Eviction) {batch : List (Octets × Octets)} (hkeys : ∀ e ∈ batch, IsKey e.1)
    (hfree : ∀ p, start ≤ p → s.prefixes p = none)
    (hleaf : ∀ p entry, s.prefixes p = some entry → entry.leaf.isSome) :
    ∃ results cache prefixes, (PrefixTree.batchInsert P evict start none batch fun _ => none).Runs s
        (rootsFrom P [] (insertionsFrom start batch), results,
          (rootPtr (insertionsFrom start batch).reverse).getD 0, cache) { s with prefixes } ∧
      Recorded P (insertionsFrom start batch).reverse prefixes ∧
      (∀ p < start, prefixes p = s.prefixes p) ∧ (∀ p, start + batch.length ≤ p → prefixes p = none) ∧
      ∀ p entry, prefixes p = some entry → entry.leaf.isSome := by
  have hold : Nodes.Hold P s s.prefixes ⟨fun _ => none, fun _ => none⟩ :=
    NodeCache.Of.hold (fun _ _ h => by cases h) hleaf
  have hnil : Recorded P [] s.prefixes := by
    intro x before hs
    simp at hs
  obtain ⟨results, written, nodes', entries', hall, hwritten, hput, hold', hsame, hrec⟩ :=
    insertAll_eq (h := []) evict (by simp [KeysValid]) hkeys hnil ⟨by simp, hfree⟩ hold
  rw [List.append_nil] at hall hrec
  obtain ⟨final, hfinal⟩ : ∃ final, final = written.map fun e =>
      (e.1, (nodes'.overlay e.1).getD e.2) := ⟨_, rfl⟩
  have hput' : Store.putAll (final.map fun e => (e.1, e.2.inner)) s.prefixes = entries' := by
    rw [← hput, hfinal, List.map_map]
    congr 1
    refine List.map_congr_left fun e he => ?_
    obtain ⟨⟨h₁, -⟩, -⟩ := hwritten e he
    rw [Function.comp_apply]
    dsimp only
    cases ho : nodes'.overlay e.1 with
    | none => rfl
    | some ce =>
      have h₂ := (hold'.overlay _ _ ho).1
      rw [h₁] at h₂
      exact congrArg (Prod.mk e.1) (Option.some.inj h₂).symm
  refine ⟨results, final.foldl (fun c e => c.put evict e.1 e.2) nodes'.cache, entries', ?_, hrec, hsame,
    fun p hp => ?_, hold'.leaf⟩
  · refine (Db.runs_read hall).bind ?_
    dsimp only
    rw [← hfinal]
    refine Db.Runs.bind (Db.runs_write _ s) ?_
    rw [hput']
    exact Db.runs_pure _ _
  · by_contra hne
    rw [← hput] at hne
    rcases putAll_ne_none hne with hold'' | ⟨e, he, rfl⟩
    · exact hold'' (hfree p (by omega))
    · obtain ⟨e', he', rfl⟩ := List.mem_map.1 he
      obtain ⟨-, x, hx, hpos⟩ := hwritten e' he'
      have hlt := position_lt hx
      dsimp only at hp
      omega

/-- **The trees of the partitions**, one beside another. -/
theorem insertPartitions_runs (start : ℕ) (parts : List (List BulkEntry))
    (hkeys : ∀ part ∈ parts, ∀ e ∈ part, IsKey e.index) (hfree : ∀ p, start ≤ p → s.prefixes p = none)
    (hleaf : ∀ p entry, s.prefixes p = some entry → entry.leaf.isSome) :
    ∃ prefixes, (insertPartitions P start parts).Runs s ((histories start parts).map rootPtr) { s with prefixes } ∧
      (∀ h ∈ histories start parts, Recorded P h prefixes) ∧ (∀ p < start, prefixes p = s.prefixes p) ∧
      ∀ p entry, prefixes p = some entry → entry.leaf.isSome := by
  induction parts generalizing start s with
  | nil => exact ⟨s.prefixes, Db.runs_pure _ _, by simp [histories], fun _ _ => rfl, hleaf⟩
  | cons part parts ih =>
    by_cases hpart : part = []
    · subst hpart
      obtain ⟨prefixes, hruns, hrec, hsame, hleaf'⟩ :=
        ih start (fun part hpart => hkeys part (List.mem_cons_of_mem _ hpart)) hfree hleaf
      refine ⟨prefixes, ?_, fun h hh => ?_, hsame, hleaf'⟩
      · unfold insertPartitions
        rw [if_pos rfl]
        exact hruns.bind (Db.runs_pure _ _)
      · rcases List.mem_cons.1 hh with rfl | hh
        · intro x before hs
          simp [insertionsFrom] at hs
        · exact hrec h hh
    · obtain ⟨results, cache, prefixes₁, hbatch, hrec₁, hsame₁, hfree₁, hleaf₁⟩ :=
        batchInsert_apart (P := P) Tree.dropAll
          (show ∀ e ∈ part.map BulkEntry.pair, IsKey e.1 from fun e he => by
            obtain ⟨b, hb, rfl⟩ := List.mem_map.1 he
            exact hkeys part List.mem_cons_self b hb) hfree hleaf
      rw [List.length_map] at hfree₁
      obtain ⟨prefixes, hruns, hrec, hsame, hleaf'⟩ :=
        ih (start + part.length) (s := { s with prefixes := prefixes₁ })
          (fun part hpart => hkeys part (List.mem_cons_of_mem _ hpart)) hfree₁ hleaf₁
      obtain ⟨x, before, hx⟩ : ∃ x before, (insertionsFrom start (part.map BulkEntry.pair)).reverse = x :: before := by
        refine List.exists_cons_of_ne_nil ?_
        rw [Ne, List.reverse_eq_nil_iff, ← List.length_eq_zero_iff, length_insertionsFrom, List.length_map,
          List.length_eq_zero_iff]
        exact hpart
      refine ⟨prefixes, ?_, fun h hh => ?_, fun p hp => ?_, hleaf'⟩
      · unfold insertPartitions
        rw [if_neg hpart]
        refine hbatch.bind (hruns.bind ?_)
        rw [histories, List.map_cons, hx]
        exact Db.runs_pure _ _
      · rcases List.mem_cons.1 hh with rfl | hh
        · intro y own hs
          obtain ⟨entry, hentry, he⟩ := hrec₁ y own hs
          have hlt := position_lt (List.mem_reverse.1 (hs.mem List.mem_cons_self))
          rw [List.length_map] at hlt
          exact ⟨entry, by rw [hsame _ hlt]; exact hentry, he⟩
        · exact hrec h hh
      · rw [hsame p (by omega)]
        exact hsame₁ p hp

/-! ### Their roots and their entries -/

/-- The hash of a partition's root is that of its node in the whole tree. -/
theorem partitionHash_eq {hists : List (List Insertion)} (hp : Parted k hists) (hi : hists[i]? = some h)
    (hrec : Recorded P h s.prefixes) :
    partitionHash P s k (rootPtr h) = .ok (subtreeHash P (commitmentsOf (joined hists)) (nodePath k i)) := by
  have hdepth := hp.depth
  cases h with
  | nil =>
    have hnone : latestBelow (joined hists) (nodePath k i) = none := by
      rw [hp.latestBelow_part hi List.prefix_rfl]
      rfl
    rw [subtreeHash_of_none hp.keysValid (by rw [length_nodePath]; exact hdepth) hnone]
    rfl
  | cons x before =>
    obtain ⟨entry, hentry, he⟩ := hrec x before List.suffix_rfl
    obtain ⟨ctr, hleaf⟩ := he.leaf
    have hown := hp.keys _ (List.mem_of_getElem? hi)
    have hroll := (CachedLogEntry.rollup_eq (c := .new entry) (P := P) hleaf (CachedLogEntry.filled_new _) hdepth).1
    have hpath : (keyBits x.key).take k = nodePath k i := by
      rw [hp.take_eq hi List.mem_cons_self le_rfl, Nat.sub_self, Nat.shiftRight_zero]
    rw [rootPtr, List.head?_cons, Option.map_some, partitionHash, hentry]
    dsimp only
    rw [hroll, show (CachedLogEntry.new entry).inner = entry from rfl, he.rolledUp_eq hown hleaf hdepth, hpath]
    refine congrArg Except.ok (subtreeHash_congr hown hp.keysValid (by rw [length_nodePath]; exact hdepth) fun r hr => ?_)
    rw [hp.latestBelow_part hi hr]

/-- The hashes of the partitions' roots. -/
theorem exists_partitionHashes {hists : List (List Insertion)} (hp : Parted k hists)
    (hrec : ∀ h ∈ hists, Recorded P h s.prefixes) :
    ∃ hashes, (hists.map rootPtr).mapM (partitionHash P s k) = .ok hashes ∧
      ∀ j < 2 ^ k, hashes.getD j [] = subtreeHash P (commitmentsOf (joined hists)) (nodePath k j) := by
  have hall : ∀ ptr ∈ hists.map rootPtr, ∃ hash : Octets, partitionHash P s k ptr = .ok hash ∧
      partitionHash P s k ptr = .ok hash := by
    intro ptr hptr
    obtain ⟨h, hh, rfl⟩ := List.mem_map.1 hptr
    obtain ⟨i, hi⟩ := List.mem_iff_getElem?.1 hh
    exact ⟨_, partitionHash_eq hp hi (hrec h hh), partitionHash_eq hp hi (hrec h hh)⟩
  obtain ⟨hashes, hrun, hhashes⟩ := Result.exists_mapM_eq_ok hall
  refine ⟨hashes, hrun, fun j hj => ?_⟩
  have hlen := hhashes.length_eq
  rw [List.length_map, hp.length] at hlen
  have hlt : j < hists.length := by rwa [hp.length]
  have hget := hhashes.get (i := j) (by rwa [List.length_map]) (by omega)
  rw [List.get_eq_getElem, List.getElem_map, List.get_eq_getElem] at hget
  have hi : hists[j]? = some hists[j] := List.getElem?_eq_getElem hlt
  rw [partitionHash_eq hp hi (hrec _ (List.getElem_mem hlt))] at hget
  rw [List.getD_eq_getElem _ _ (by omega)]
  exact (Except.ok.inj hget).symm

variable {hashTree : List (List Octets)} {rootPositions : List (Option ℕ)}

/-- The merged entries are at the positions of the partitions' entries, each once. -/
theorem mergeBatch_sublist (p start : ℕ) (parts : List (List BulkEntry)) :
    ((mergeBatch s k hashTree rootPositions p start parts).map Prod.fst).Sublist
      (List.range' start parts.flatten.length) := by
  have hfilter : ∀ (f : ℕ → LogEntry → LogEntry) (l : List ℕ),
      ((l.filterMap fun pos => (s.prefixes pos).map fun entry => (pos, f pos entry)).map Prod.fst).Sublist l := by
    intro f l
    induction l with
    | nil => exact List.Sublist.refl _
    | cons pos l ih =>
      rw [List.filterMap_cons]
      cases s.prefixes pos with
      | none => exact ih.cons _
      | some entry => exact ih.cons_cons _
  induction parts generalizing p start with
  | nil => exact List.Sublist.refl _
  | cons part parts ih =>
    rw [mergeBatch, List.map_append, List.flatten_cons, List.length_append, ← List.range'_append_1]
    exact (hfilter _ _).append (ih _ _)

theorem mem_mergeBatch (hi : (histories start parts)[i]? = some h) (hx : x ∈ h) {entry : LogEntry}
    (hentry : s.prefixes x.position = some entry) :
    (x.position, mergeEntry k (mergeCopathForPartition (p + i) k hashTree rootPositions) entry) ∈
      mergeBatch s k hashTree rootPositions p start parts := by
  induction parts generalizing p start i with
  | nil => simp [histories] at hi
  | cons part parts ih =>
    rw [mergeBatch]
    cases i with
    | zero =>
      obtain rfl := Option.some.inj hi
      refine List.mem_append_left _ (List.mem_filterMap.2 ⟨x.position, ?_, by rw [hentry]; rfl⟩)
      have hx' := List.mem_reverse.1 hx
      have hlt := position_lt hx'
      rw [List.length_map] at hlt
      exact List.mem_range'_1.2 ⟨(mem_insertionsFrom hx').1, hlt⟩
    | succ i =>
      refine List.mem_append_right _ ?_
      have hmem := ih (p := p + 1) hi
      rwa [Nat.add_assoc, Nat.add_comm 1 i] at hmem

theorem of_mem_mergeBatch {e : ℕ × LogEntry} (he : e ∈ mergeBatch s k hashTree rootPositions p start parts) :
    ∃ above entry, s.prefixes e.1 = some entry ∧ e.2 = mergeEntry k above entry := by
  induction parts generalizing p start with
  | nil => cases he
  | cons part parts ih =>
    rw [mergeBatch] at he
    rcases List.mem_append.1 he with he | he
    · obtain ⟨pos, -, hpos⟩ := List.mem_filterMap.1 he
      obtain ⟨entry, hentry, rfl⟩ := Option.map_eq_some_iff.1 hpos
      exact ⟨_, entry, hentry, rfl⟩
    · exact ih he

/-! ### The other tables -/

theorem ingestSst_runs {κ : Type} [DecidableEq κ] {keys : List κ} (hne : keys ≠ []) (hnodup : keys.Nodup)
    (put : Store → Store) (s : Store) : (ingestSst keys put).Runs s () (put s) := by
  unfold ingestSst
  rw [if_neg hne, if_pos hnodup]
  exact Db.runs_write _ _

theorem nodup_rowsFrom (start : ℕ) (entries : List BulkEntry) (row : BulkEntry → Octets) :
    ((rowsFrom start entries row).map Prod.fst).Nodup := by
  have hkeys : (rowsFrom start entries row).map Prod.fst = (List.range' 0 entries.length).map (start + ·) := by
    rw [rowsFrom, List.map_map, ← List.zipIdx_map_snd 0 entries, List.map_map]
    rfl
  rw [hkeys]
  exact (List.nodup_range' : (List.range' 0 entries.length).Nodup).map fun a b hab => Nat.add_left_cancel hab

/-- The other tables are filled, if no label comes twice. -/
theorem ingestAll_runs (start : ℕ) {entries : List BulkEntry} (hne : entries ≠ [])
    (hdistinct : (entries.map BulkEntry.searchKey).Nodup) (s : Store) :
    (ingestAll start entries).Runs s () { s with
      value := Store.putAll (rowsFrom start entries BulkEntry.value) s.value
      opening := Store.putAll (rowsFrom start entries BulkEntry.opening) s.opening
      history := putHistories start entries s.history } := by
  have hrows : ∀ row : BulkEntry → Octets, (rowsFrom start entries row).map Prod.fst ≠ [] := by
    intro row hnil
    cases entries with
    | nil => exact hne rfl
    | cons e entries => simp [rowsFrom] at hnil
  unfold ingestAll
  dsimp only
  refine (ingestSst_runs (hrows _) (nodup_rowsFrom _ _ _) _ s).bind
    ((ingestSst_runs (hrows _) (nodup_rowsFrom _ _ _) _ _).bind (ingestSst_runs ?_ hdistinct _ _))
  exact fun hnil => hne (List.map_eq_nil_iff.1 hnil)

theorem partitions_ne_nil (hk : k ≤ 256) (hne : entries ≠ []) : (partitions k entries).flatten ≠ [] := by
  obtain ⟨e, he⟩ := List.exists_mem_of_ne_nil entries hne
  have hpart : (partitions k entries)[partitionId e.index k]? =
      some (entries.filter fun e' => partitionId e'.index k = partitionId e.index k) :=
    getElem?_partitions (partitionId_lt hk)
  exact List.ne_nil_of_mem (List.mem_flatten.2 ⟨_, List.mem_of_getElem? hpart,
    List.mem_filter.2 ⟨he, by simp⟩⟩)

/-- Partitioned, the labels are still distinct. -/
theorem nodup_partitions (hdistinct : (entries.map BulkEntry.searchKey).Nodup) :
    ((partitions k entries).flatten.map BulkEntry.searchKey).Nodup := by
  rw [List.map_flatten, List.nodup_flatten]
  constructor
  · intro keys hkeys
    obtain ⟨part, hpart, rfl⟩ := List.mem_map.1 hkeys
    obtain ⟨i, -, rfl⟩ := List.mem_map.1 hpart
    exact hdistinct.sublist (List.filter_sublist.map _)
  · rw [partitions, List.map_map, List.pairwise_map]
    refine List.nodup_range.imp fun {i j} hij => ?_
    refine List.disjoint_left.2 fun key hi hj => hij ?_
    obtain ⟨e, he, rfl⟩ := List.mem_map.1 hi
    obtain ⟨e', he', hkey⟩ := List.mem_map.1 hj
    obtain ⟨hmem, hid⟩ := List.mem_filter.1 he
    obtain ⟨hmem', hid'⟩ := List.mem_filter.1 he'
    obtain rfl := List.inj_on_of_nodup_map hdistinct hmem' hmem hkey
    exact (of_decide_eq_true hid).symm.trans (of_decide_eq_true hid')

theorem putAll_cases {α : Type} {es : List (ℕ × α)} {table : ℕ → Option α} {v : α}
    (hv : Store.putAll es table pos = some v) : table pos = some v ∨ (pos, v) ∈ es := by
  induction es generalizing table with
  | nil => exact .inl hv
  | cons e es ih =>
    rw [Store.putAll, List.foldl_cons] at hv
    rcases ih hv with hv | hmem
    · rcases eq_or_ne pos e.1 with rfl | hne
      · rw [Function.update_self] at hv
        obtain rfl := Option.some.inj hv
        exact .inr List.mem_cons_self
      · exact .inl (by rwa [Function.update_of_ne hne] at hv)
    · exact .inr (List.mem_cons_of_mem _ hmem)

/-! ### The whole load -/

/-- A load with entries has a root. -/
theorem exists_rootPtr (start : ℕ) (hne : parts.flatten ≠ []) :
    ∃ ptr, rootPtr (joined (histories start parts)) = some ptr := by
  rw [joined_histories]
  cases hlist : (insertionsFrom start (parts.flatten.map BulkEntry.pair)).reverse with
  | nil =>
    have hlen := congrArg List.length hlist
    rw [List.length_reverse, length_insertionsFrom, List.length_map, List.length_nil,
      List.length_eq_zero_iff] at hlen
    exact absurd hlen hne
  | cons x before => exact ⟨x.position, rfl⟩

/-- **What a parallel load leaves**: the root of the hash tree over the partitions in the
log, the pointer to the last insertion of all, and merged entries that are right where they
are asked if the partitions are spread. -/
theorem commitPartitions_runs {t : Tree} {epochs : List Epoch} (hs : t.Sound P epochs) (hk : k ≤ 256)
    (hsize : epochs.length + 1 ≤ 2 ^ 62) {c : Octets} (hconf : serializeConfiguration P t.config none = .ok c)
    (hkeys : ∀ e ∈ entries, IsKey e.index) (hne : entries ≠ [])
    (hdistinct : (entries.map BulkEntry.searchKey).Nodup) (now : U64) {hists : List (List Insertion)}
    (hhists : hists = histories (updatesOf epochs).length (partitions k entries)) :
    ∃ s' th hashes root ptr, (commitPartitions P t.config t (some now) k entries).Runs t.store th s' ∧
      root = ((buildHashTree P k hashes).getD 0 []).getD 0 [] ∧
      (∀ j < 2 ^ k, hashes.getD j [] = subtreeHash P (commitmentsOf (joined hists)) (nodePath k j)) ∧
      rootPtr (joined hists) = some ptr ∧ s'.prefixPtr epochs.length = some ptr ∧
      s'.prefixRoot epochs.length = some root ∧
      bulkHead P t.config (epochs.length + 1) now
        (logRoot P (leavesOf P epochs ++ [LogTree.entryLeaf P (now, root)])) = .ok th ∧
      (∀ p entry, s'.prefixes p = some entry → entry.leaf.isSome) ∧
      ((∀ l ≤ k, ∀ j < 2 ^ l, ((buildHashTree P k hashes).getD l []).getD j [] =
          subtreeHash P (commitmentsOf (joined hists)) (nodePath l j)) → Spread hists →
        Mended P (joined hists) s'.prefixes) := by
  obtain ⟨start, hstart⟩ : ∃ start, start = (updatesOf epochs).length := ⟨_, rfl⟩
  obtain ⟨parts, hparts⟩ : ∃ parts, parts = partitions k entries := ⟨_, rfl⟩
  have hp : Parted k hists := by
    rw [hhists]
    exact parted_histories hk hkeys _
  rw [← hstart, ← hparts] at hhists
  have hfree : ∀ p, start ≤ p → t.store.prefixes p = none := by
    intro p hp
    by_contra hne
    obtain ⟨x, hx, rfl⟩ := hs.written p hne
    exact absurd (mem_insertionsOf hx).1 (by omega)
  obtain ⟨prefixes, hinsert, hrec, -, hleaf⟩ := insertPartitions_runs (P := P) start parts
    (fun part hpart e he => hkeys e (mem_partitions (hparts ▸ hpart) he)) hfree fun _ _ => hs.leaf
  rw [← hhists] at hinsert hrec
  obtain ⟨hashes, hmap, hhashes⟩ := exists_partitionHashes (s := { t.store with prefixes }) hp hrec
  obtain ⟨root, hroot⟩ : ∃ root, root = ((buildHashTree P k hashes).getD 0 []).getD 0 [] := ⟨_, rfl⟩
  obtain ⟨merged, hmerged⟩ : ∃ merged, merged = mergeBatch { t.store with prefixes } k (buildHashTree P k hashes)
    (hists.map rootPtr) 0 start parts := ⟨_, rfl⟩
  have hnonempty : parts.flatten ≠ [] := by
    rw [hparts]
    exact partitions_ne_nil hk hne
  obtain ⟨ptr, hptr⟩ : ∃ ptr, rootPtr (joined hists) = some ptr := by
    rw [hhists]
    exact exists_rootPtr start hnonempty
  -- the log is appended to in the store that the merged entries were written to
  obtain ⟨s₁, hs₁⟩ : ∃ s₁ : Store, s₁ = { t.store with
      prefixes := Store.putAll merged prefixes
      prefixPtr := Function.update t.store.prefixPtr t.treeSize (some ptr)
      nextPrefixVersion := some (start + parts.flatten.length) } := ⟨_, rfl⟩
  have hholds : Holds s₁ (leavesOf P epochs) := hs.log.congr (by rw [hs₁])
  obtain ⟨s₂, ⟨hholds', hs₂⟩, happend⟩ := LogTree.batchAppend_spec (P := P) hholds
    (show (leavesOf P epochs).length + [(now, root)].length ≤ 2 ^ 62 by simpa using hsize)
  rw [List.map_singleton] at hholds' happend
  rw [length_leavesOf] at hs₂ happend
  obtain ⟨th, hhead⟩ : ∃ th, bulkHead P t.config (epochs.length + 1) now
      (logRoot P (leavesOf P epochs ++ [LogTree.entryLeaf P (now, root)])) = .ok th := by
    unfold bulkHead constructTreeHeadTbs treeHeadTbs
    rw [hconf, Result.ok_bind, ensure_of (length_logRoot hholds'.digest)]
    exact ⟨_, rfl⟩
  have hptr₂ : s₂.prefixPtr epochs.length = some ptr := by
    rw [hs₂, hs₁, LogTree.recordEntries_singleton]
    dsimp only
    rw [hs.size, Function.update_self]
  have hroot₂ : s₂.prefixRoot epochs.length = some root := by
    rw [hs₂, LogTree.recordEntries_singleton]
    dsimp only
    rw [Function.update_self]
  have hprefixes₂ : s₂.prefixes = Store.putAll merged prefixes := by
    rw [hs₂, hs₁]
    rfl
  refine ⟨{ s₂ with
      value := Store.putAll (rowsFrom start parts.flatten BulkEntry.value) s₂.value
      opening := Store.putAll (rowsFrom start parts.flatten BulkEntry.opening) s₂.opening
      history := putHistories start parts.flatten s₂.history
      head := some th }, th, hashes, root, ptr, ?_, hroot, hhashes, hptr, hptr₂, hroot₂, hhead,
    fun p entry hentry => ?_, fun hhash hspread => ?_⟩
  · have hnext : Db.Runs (Db.read fun s => .ok (LogTree.getNextPrefixVersion s)) t.store start t.store :=
      Db.runs_read (by rw [hs.next, hstart])
    unfold commitPartitions
    dsimp only
    rw [← hparts]
    refine hnext.bind (hinsert.bind ((Db.runs_read hmap).bind ?_))
    refine Db.Runs.bind (Db.runs_read (a := merged) (by rw [hmerged])) ((Db.runs_write _ _).bind ?_)
    refine (Db.runs_ofResult rfl _).bind (Db.Runs.bind (Db.runs_ofResult (a := ptr) ?_ _) ?_)
    · rw [findSome?_rootPtr, hptr]
    · refine (Db.runs_write _ _).bind ((Db.runs_write _ _).bind ?_)
      dsimp only
      rw [← hroot, ← hs₁]
      rw [hs.size]
      refine happend.bind (Db.Runs.bind (ingestAll_runs start hnonempty ?_ s₂)
        ((Db.runs_ofResult hhead _).bind ((Db.runs_write _ _).bind (Db.runs_pure _ _))))
      rw [hparts]
      exact nodup_partitions hdistinct
  · dsimp only at hentry
    rw [hprefixes₂] at hentry
    rcases putAll_cases hentry with hentry | hmem
    · exact hleaf p entry hentry
    · obtain ⟨above, entry', hentry', heq⟩ := of_mem_mergeBatch (hmerged ▸ hmem)
      dsimp only at heq
      rw [heq]
      exact hleaf p entry' hentry'
  · refine hp.mended hspread hhash hrec fun i h x entry hi hx hentry => ?_
    dsimp only
    rw [hprefixes₂]
    refine Store.putAll_of_mem ?_ ?_
    · rw [hmerged]
      exact (List.nodup_range' : (List.range' start parts.flatten.length).Nodup).sublist (mergeBatch_sublist _ _ _)
    · rw [hmerged]
      rw [hhists] at hi
      have hmem : (x.position, mergeEntry k (mergeCopathForPartition (0 + i) k (buildHashTree P k hashes)
          (hists.map rootPtr)) entry) ∈ mergeBatch { t.store with prefixes } k (buildHashTree P k hashes)
          (hists.map rootPtr) 0 start parts := mem_mergeBatch hi hx hentry
      rwa [Nat.zero_add] at hmem

end Bulk

end KeyTransparency
