/-
# Auditors replay the log

What an epoch's audit record shows is true of the prefix tree before it
(`showsAbsence_of_endsAs`), so that an auditor derives the prefix root after the epoch
(`processUpdate_record`), and step by step the log (`audit_completeness`).
-/

import KeyTransparency.Client.Accumulator
import KeyTransparency.Client.Auditor
import KeyTransparency.Client.HonestTransition
import KeyTransparency.Tree.Run

namespace KeyTransparency

open SparseMerkle

section

variable {P : Primitives} {before : List Insertion} {key : Octets}

/-! ### What searches show -/

theorem keyBelow_of_latestBelow {q : List Bool} (hk : KeysValid before)
    (hq : latestBelow before q ≠ none) : ∃ leaf, KeyBelow P (commitmentsOf before) q leaf := by
  obtain ⟨x, hx⟩ := Option.ne_none_iff_exists'.1 hq
  have hpre := prefix_of_latestBelow hx
  obtain ⟨r, hr, hleaf⟩ := exists_leaf_below (P := P) hk hq
  have hlen := hpre.length_le
  rw [length_keyBits] at hlen
  exact ⟨q ++ r, by rw [List.length_append]; omega, hleaf, List.prefix_append q r⟩

theorem not_keyBelow_of_latestBelow {q : List Bool} (hk : KeysValid before)
    (hq : latestBelow before q = none) (leaf : List Bool) :
    ¬ KeyBelow P (commitmentsOf before) q leaf := fun h => by
  have hne := h.ne_none
  rw [prefixLeaves_commitmentsOf hk h.length, latestBelow_longer h.below hq] at hne
  exact hne rfl

/-- **A search for an absent key** shows its absence. -/
theorem showsAbsence_of_endsAs {searchEnd : PrefixTree.SearchEnd} {r : ProofResult}
    (hk : KeysValid before) (hkey : IsKey key) (habsent : commitmentsOf before key = none)
    (hends : EndsAs P before key searchEnd) (hr : searchEnd.proof = .ok r) :
    r.commitment = none ∧
      ShowsAbsence P (commitmentsOf before) key r.searchResult r.inclusionProof := by
  cases searchEnd with
  | found entry =>
    obtain ⟨y, ctr, -, -, hy⟩ := hends
    rw [commitmentsOf_eq hk hkey, hy] at habsent
    cases habsent
  | failed copath entry =>
    obtain ⟨hc, hpos, hlast, hnone, y, ctr, hlatest, hindex, hleaf⟩ := hends
    rw [PrefixTree.SearchEnd.proof, hleaf] at hr
    obtain rfl := Except.ok.inj hr
    have hky := hk y (mem_of_latestBelow hlatest)
    refine ⟨rfl, by simp [ProofResult.searchResult], hc.length_le, fun k hlt => ?_,
      not_keyBelow_of_latestBelow hk hnone, fun k hlt => keyBelow_of_latestBelow hk fun hn => ?_,
      .inr ⟨rfl, ⟨entry.index, y.commitment⟩, rfl, ?_, ?_⟩⟩
    · have hlt' : k < copath.length := by simpa using hlt
      have h := hc.getD_hash hlt'
      rwa [List.getD_eq_getElem _ _ (by simpa using hlt')] at h
    · have hlt' : k < copath.length := hlt
      have hpre : (keyBits key).take k <+: (keyBits key).take (copath.length - 1) :=
        List.take_prefix_take_left (by omega)
      exact hlast (latestBelow_longer hpre hn)
    · rw [hindex]
      exact hky
    · rw [hindex, commitmentsOf_eq hk hky, hlatest]
      rfl

/-- Before the first epoch, every key is absent. -/
theorem showsAbsence_genesis : ShowsAbsence P (commitmentsOf []) key ⟨3, none, 0⟩ [] where
  length := rfl
  depth_le := Nat.zero_le _
  element k h := absurd h (Nat.not_lt_zero k)
  empty := not_keyBelow_of_latestBelow (fun _ h => by cases h) rfl
  inner k h := absurd h (Nat.not_lt_zero k)
  terminal := .inl rfl

/-! ### Records -/

/-- The keys of an epoch differ, and none is in the tree before it. -/
structure FreshKeys (before : List Insertion) (updates : List PreUpdateData) : Prop where
  keys : ∀ u ∈ updates, IsKey u.index
  nodup : (updates.map PreUpdateData.index).Nodup
  absent : ∀ u ∈ updates, commitmentsOf before u.index = none

theorem mem_auditKeys {updates : List PreUpdateData} {entry : Octets × Octets} :
    entry ∈ auditKeys updates ↔ ∃ u ∈ updates, u.entry = entry := by
  rw [auditKeys, List.mem_mergeSort, List.mem_map]

/-- The searches that an epoch's record holds. -/
theorem AuditRecordFor.searched {e : Epoch} {record : AuditorUpdate}
    (h : AuditRecordFor P before e record) (hk : KeysValid before) (hf : FreshKeys before e.updates) :
    ∃ items : List Searched, items.map Prod.fst = (auditKeys e.updates).map Tree.prefixLeafOf ∧
      (∀ i ∈ items, ShowsAbsence P (commitmentsOf before) i.1.vrfOutput i.2.1 i.2.2) ∧
      record = ⟨e.timestamp, items.map Prod.fst, [],
        some ⟨items.map fun i => i.2.1, items.flatMap fun i => i.2.2⟩⟩ := by
  cases before with
  | nil =>
    have hrecord : record = genesisRecord e.timestamp (auditKeys e.updates) := h
    subst hrecord
    refine ⟨(auditKeys e.updates).map fun key => (Tree.prefixLeafOf key, ⟨3, none, 0⟩, []), ?_,
      fun i hi => ?_, ?_⟩
    · rw [List.map_map]
      rfl
    · obtain ⟨key, -, rfl⟩ := List.mem_map.1 hi
      exact showsAbsence_genesis
    · rw [genesisRecord, List.map_map, List.map_map, List.flatMap_map, List.flatMap_eq_nil_iff.2]
      · rfl
      · exact fun _ _ => rfl
  | cons x before =>
    obtain ⟨found, hfst, rfl, hfound⟩ := h
    have hshow : ∀ f ∈ found, f.2.commitment = none ∧
        ShowsAbsence P (commitmentsOf (x :: before)) f.1.1 f.2.searchResult f.2.inclusionProof := by
      intro f hf'
      obtain ⟨searchEnd, hends, hproof⟩ := hfound f hf'
      obtain ⟨u, hu, hentry⟩ := mem_auditKeys.1 (hfst ▸ List.mem_map_of_mem hf')
      have hindex : f.1.1 = u.index := by
        rw [← hentry]
        rfl
      refine showsAbsence_of_endsAs hk ?_ ?_ hends hproof
      · rw [hindex]
        exact hf.keys u hu
      · rw [hindex]
        exact hf.absent u hu
    have hremoved : found.filter (fun f => f.2.commitment.isSome) = [] :=
      List.filter_eq_nil_iff.2 fun f hf' => by
        rw [(hshow f hf').1]
        simp
    refine ⟨found.map fun f => (Tree.prefixLeafOf f.1, f.2.searchResult, f.2.inclusionProof), ?_,
      fun i hi => ?_, ?_⟩
    · rw [← hfst, List.map_map, List.map_map]
      rfl
    · obtain ⟨f, hf', rfl⟩ := List.mem_map.1 hi
      exact (hshow f hf').2
    · rw [auditRecord, hremoved, List.map_nil, List.map_nil, List.flatMap_nil, List.append_nil,
        List.append_nil, List.map_map, List.map_map, List.flatMap_map]
      rfl

/-- The keys of a record are sorted. -/
theorem auditKeys_sorted {updates : List PreUpdateData}
    (hnodup : (updates.map PreUpdateData.index).Nodup) :
    (auditKeys updates).Pairwise fun a b => ¬ b.1 ≤ a.1 := by
  have hle : (auditKeys updates).Pairwise fun a b => a.1 ≤ b.1 := by
    have h : (auditKeys updates).Pairwise fun a b => decide (a.1 ≤ b.1) = true :=
      List.pairwise_mergeSort (fun a b c hab hbc => by
        simpa using le_trans (of_decide_eq_true hab) (of_decide_eq_true hbc))
        (fun a b => by simpa using le_total a.1 b.1) _
    exact h.imp fun hab => of_decide_eq_true hab
  have hperm : ((auditKeys updates).map Prod.fst).Perm (updates.map PreUpdateData.index) := by
    have h := (List.mergeSort_perm (updates.map PreUpdateData.entry)
      fun a b : Octets × Octets => decide (a.1 ≤ b.1)).map Prod.fst
    rwa [List.map_map] at h
  have hne : (auditKeys updates).Pairwise fun a b => a.1 ≠ b.1 :=
    List.pairwise_map.1 (hperm.nodup_iff.2 hnodup)
  refine (hle.and hne).imp fun {a b} hab hba => ?_
  exact hab.2 (le_antisymm hab.1 hba)

theorem checkSorted_of {leaves : List PrefixLeaf}
    (h : leaves.Pairwise fun a b => ¬ b.vrfOutput ≤ a.vrfOutput) :
    KtAuditor.checkSorted leaves = .ok () := by
  induction leaves with
  | nil => rfl
  | cons a leaves ih =>
    obtain ⟨ha, h⟩ := List.pairwise_cons.1 h
    cases leaves with
    | nil => rfl
    | cons b leaves =>
      rw [KtAuditor.checkSorted, ensure_of (ha b List.mem_cons_self), Result.ok_bind]
      exact ih h

theorem checkAdded_of {items : List Searched} {commitments : Octets → Option Octets}
    (h : ∀ i ∈ items, ShowsAbsence P commitments i.1.vrfOutput i.2.1 i.2.2) :
    KtAuditor.checkAdded [] (items.map fun i => (i.1, i.2.1)) = .ok () := by
  induction items with
  | nil => rfl
  | cons i items ih =>
    have hkind : i.2.1.resultType ≠ 1 := by
      rcases (h i List.mem_cons_self).terminal with ht | ⟨ht, -⟩ <;> rw [ht] <;> decide
    rw [List.map_cons, KtAuditor.checkAdded, ensure_of (.inr hkind), Result.ok_bind]
    exact ih fun j hj => h j (List.mem_cons_of_mem _ hj)

theorem exists_insertionsFrom {entry : Octets × Octets} :
    ∀ {entries : List (Octets × Octets)} (version : ℕ), entry ∈ entries →
      ∃ x ∈ insertionsFrom version entries, (x.key, x.commitment) = entry
  | (index, commitment) :: entries, version, h => by
    rcases List.mem_cons.1 h with rfl | h
    · exact ⟨_, List.mem_cons_self, rfl⟩
    · obtain ⟨x, hx, heq⟩ := exists_insertionsFrom (version + 1) h
      exact ⟨x, List.mem_cons_of_mem _ hx, heq⟩

/-- The insertions of a batch add its leaves. -/
theorem addsTo_insertions {updates : List PreUpdateData} (hf : FreshKeys before updates)
    (version : ℕ) :
    AddsTo (commitmentsOf before)
      (commitmentsOf ((insertionsFrom version (updates.map PreUpdateData.entry)).reverse ++ before))
      ((auditKeys updates).map Tree.prefixLeafOf) := by
  have hfind : ∀ key, commitmentsOf
      ((insertionsFrom version (updates.map PreUpdateData.entry)).reverse ++ before) key =
        (((insertionsFrom version (updates.map PreUpdateData.entry)).reverse.find?
          fun x => x.key = key).map Insertion.commitment).or (commitmentsOf before key) := by
    intro key
    rw [commitmentsOf, commitmentsOf, List.find?_append]
    cases (insertionsFrom version (updates.map PreUpdateData.entry)).reverse.find?
      fun x => x.key = key <;> rfl
  constructor
  · intro item hitem
    obtain ⟨entry, hentry, rfl⟩ := List.mem_map.1 hitem
    obtain ⟨u, hu, rfl⟩ := mem_auditKeys.1 hentry
    rw [hfind]
    obtain ⟨x, hx⟩ : ∃ x, (insertionsFrom version (updates.map PreUpdateData.entry)).reverse.find?
        (fun x => x.key = u.index) = some x := by
      rw [← Option.isSome_iff_exists, List.find?_isSome]
      obtain ⟨x, hx, heq⟩ := exists_insertionsFrom version
        (List.mem_map_of_mem hu : u.entry ∈ updates.map PreUpdateData.entry)
      exact ⟨x, List.mem_reverse.2 hx, decide_eq_true (congrArg Prod.fst heq)⟩
    have hkey : x.key = u.index := by simpa using List.find?_some hx
    obtain ⟨-, hmem⟩ := mem_insertionsFrom (List.mem_reverse.1 (List.mem_of_find?_eq_some hx))
    obtain ⟨u', hu', heq⟩ := List.mem_map.1 hmem
    have hindex : u'.index = u.index := (congrArg Prod.fst heq).trans hkey
    obtain rfl := List.inj_on_of_nodup_map hf.nodup hu' hu hindex
    rw [show (List.find? (fun x => decide (x.key = (Tree.prefixLeafOf u'.entry).vrfOutput)) _) = some x
      from hx]
    exact congrArg (fun e => some e.2) heq.symm
  · intro key hkey hnot
    rw [hfind, List.find?_eq_none.2 fun x hx => ?_]
    · rfl
    · obtain ⟨-, hmem⟩ := mem_insertionsFrom (List.mem_reverse.1 hx)
      obtain ⟨u, hu, heq⟩ := List.mem_map.1 hmem
      have hne := hnot _ (List.mem_map_of_mem (mem_auditKeys.2 ⟨u, hu, rfl⟩))
      have hindex : u.index = x.key := congrArg Prod.fst heq
      rw [← hindex, decide_eq_true_iff]
      exact hne

/-- **A record passes the checks** of an auditor that is not ahead of it. -/
theorem AuditRecordFor.checkUpdate {e : Epoch} {record : AuditorUpdate}
    (h : AuditRecordFor P before e record) (hk : KeysValid before) (hf : FreshKeys before e.updates) :
    ∃ proof, (record.timestamp = e.timestamp ∧
      (record.added.Pairwise fun a b => ¬ b.vrfOutput ≤ a.vrfOutput) ∧ record.removed = []) ∧
      (∀ a : KtAuditor, a.lastTimestamp ≤ e.timestamp → a.checkUpdate record = .ok proof) ∧
      (e.updates ≠ [] → ∀ version,
        PrefixTransitioner.verifyAndTransition P (prefixRoot P (commitmentsOf before)) record.added
          record.removed proof = .ok (prefixRoot P (commitmentsOf
            ((insertionsFrom version (e.updates.map PreUpdateData.entry)).reverse ++ before)))) := by
  obtain ⟨items, hfst, hshow, rfl⟩ := h.searched hk hf
  have hsorted : (items.map Prod.fst).Pairwise fun a b => ¬ b.vrfOutput ≤ a.vrfOutput := by
    rw [hfst]
    exact List.pairwise_map.2 ((auditKeys_sorted hf.nodup).imp fun h => h)
  have hkeys : ∀ i ∈ items, IsKey i.1.vrfOutput := by
    intro i hi
    obtain ⟨entry, hentry, heq⟩ := List.mem_map.1 (hfst ▸ List.mem_map_of_mem hi)
    obtain ⟨u, hu, rfl⟩ := mem_auditKeys.1 hentry
    rw [← heq]
    exact hf.keys u hu
  refine ⟨⟨items.map fun i => i.2.1, items.flatMap fun i => i.2.2⟩, ⟨rfl, hsorted, rfl⟩,
    fun a ha => ?_, fun hne version => ?_⟩
  · have hzip : (items.map Prod.fst).zip (items.map fun i => i.2.1) = items.map fun i => (i.1, i.2.1) :=
      List.zip_map'
    have hdrop : (items.map fun i => i.2.1).drop (items.map Prod.fst).length = [] :=
      List.drop_of_length_le (by simp)
    have hnil : KtAuditor.checkSorted [] = .ok () := rfl
    unfold KtAuditor.checkUpdate
    dsimp only
    rw [ensure_of ha, Result.ok_bind, checkSorted_of hsorted, Result.ok_bind, hnil, Result.ok_bind,
      okOr_some, Result.ok_bind, ensure_of (by simp), Result.ok_bind, hzip, List.map_nil,
      checkAdded_of hshow, Result.ok_bind, hdrop]
    rfl
  · have hne' : items ≠ [] := by
      rintro rfl
      have hlen := congrArg List.length hfst
      rw [List.length_map, List.length_map, auditKeys, List.length_mergeSort, List.length_map] at hlen
      exact hne (List.length_eq_zero_iff.1 hlen.symm)
    have hadds := addsTo_insertions hf version
    rw [← hfst] at hadds
    exact verifyAndTransition_honest hne' hkeys hshow hadds

/-! ### Replaying -/

/-- What an auditor has come to after the epochs of a log. -/
structure Replayed (P : Primitives) (epochs : List Epoch) (a : KtAuditor) : Prop where
  log : a.logAccumulator.Summarises P (leavesOf P epochs)
  root : a.prefixRoot = rootAfter P epochs
  lastTimestamp : ∀ e, epochs.getLast? = some e → a.lastTimestamp = e.timestamp
  start : epochs = [] → a.lastTimestamp = 0

theorem replayed_new (signer : Octets) (config : PublicConfig) :
    Replayed P [] (KtAuditor.new signer config) where
  log := LogAccumulator.summarises_new
  root := by
    rw [rootAfter, ← subtreeHash_nil, subtreeHash_of_none (fun _ h => by cases h) (Nat.zero_le _) rfl]
    rfl
  lastTimestamp _ h := by cases h
  start _ := rfl

/-- A log whose keys all differ. -/
def DistinctKeys (epochs : List Epoch) : Prop := ((updatesOf epochs).map PreUpdateData.index).Nodup

theorem DistinctKeys.fresh {epochs : List Epoch} {e : Epoch} (h : DistinctKeys (epochs ++ [e]))
    (hkeys : ∀ u ∈ e.updates, IsKey u.index) : FreshKeys (insertionsOf epochs) e.updates := by
  rw [DistinctKeys, updatesOf_append, List.map_append, List.nodup_append] at h
  obtain ⟨-, hnodup, hdisjoint⟩ := h
  refine ⟨hkeys, hnodup, fun u hu => ?_⟩
  rw [commitmentsOf, Option.map_eq_none_iff, List.find?_eq_none]
  intro x hx
  obtain ⟨-, u', hu', heq⟩ := mem_insertionsOf hx
  have hindex : u'.index = x.key := congrArg Prod.fst heq
  rw [← hindex, decide_eq_true_iff]
  exact hdisjoint _ (List.mem_map_of_mem hu') _ (List.mem_map_of_mem hu)

/-- **One record.**  An auditor at an epoch goes to the next one. -/
theorem Replayed.processUpdate {epochs : List Epoch} {e : Epoch} {record : AuditorUpdate}
    {a : KtAuditor} (h : Replayed P epochs a) (hrecord : AuditRecordFor P (insertionsOf epochs) e record)
    (hk : KeysValid (insertionsOf epochs)) (hf : FreshKeys (insertionsOf epochs) e.updates)
    (hne : e.updates ≠ []) (htime : ∀ last, epochs.getLast? = some last → last.timestamp ≤ e.timestamp) :
    ∃ a', a.processUpdate P record = .ok a' ∧ Replayed P (epochs ++ [e]) a' ∧ a'.config = a.config ∧
      a'.signer = a.signer := by
  obtain ⟨proof, ⟨hstamp, -, -⟩, hcheck, htransition⟩ := hrecord.checkUpdate hk hf
  have hlast : a.lastTimestamp ≤ e.timestamp := by
    cases hl : epochs.getLast? with
    | none =>
      rw [h.start (List.getLast?_eq_none_iff.1 hl)]
      exact Nat.zero_le e.timestamp.val
    | some last =>
      rw [h.lastTimestamp last hl]
      exact htime last hl
  have hroot : prefixRoot P (commitmentsOf ((insertionsFrom (updatesOf epochs).length
      (e.updates.map PreUpdateData.entry)).reverse ++ insertionsOf epochs)) =
        rootAfter P (epochs ++ [e]) := by
    rw [rootAfter, insertionsOf_append]
  have htrans := htransition hne (updatesOf epochs).length
  rw [hroot] at htrans
  obtain ⟨a', ha'⟩ : ∃ a' : KtAuditor, a' = { a with
      logAccumulator := a.logAccumulator.appendLeaf P
        (logLeafValue P record.timestamp (rootAfter P (epochs ++ [e])))
      prefixRoot := rootAfter P (epochs ++ [e])
      lastTimestamp := record.timestamp } := ⟨_, rfl⟩
  have hlog : a'.logAccumulator.Summarises P (leavesOf P (epochs ++ [e])) := by
    rw [ha', leavesOf_append, LogTree.entryLeaf, lastEntry, hstamp]
    dsimp only
    exact h.log.appendLeaf _
  refine ⟨a', ?_, ⟨hlog, by rw [ha'], fun last hl => ?_, fun hnil => ?_⟩, by rw [ha'], by rw [ha']⟩
  · unfold KtAuditor.processUpdate
    rw [hcheck a hlast, Result.ok_bind, h.root, rootAfter, htrans, ha']
    rfl
  · rw [List.getLast?_concat] at hl
    rw [ha', hstamp, Option.some.inj hl]
  · exact absurd hnil (List.append_ne_nil_of_right_ne_nil _ (List.cons_ne_nil _ _))

/-- The timestamps of a log do not decrease. -/
def NonDecreasing (epochs : List Epoch) : Prop := epochs.Pairwise fun a b => a.timestamp ≤ b.timestamp

variable {t : Tree} {epochs : List Epoch}

theorem take_succ_eq {i : ℕ} (h : i < epochs.length) :
    epochs.take (i + 1) = epochs.take i ++ [epochs[i]] := by
  rw [List.take_succ_eq_append_getElem h]

/-- **The records from an entry on.**  The server hands them out, and an auditor at that
entry replays them. -/
theorem replay_run (hs : t.Sound P epochs) (hdistinct : DistinctKeys epochs) (htimes : NonDecreasing epochs) :
    ∀ {count i : ℕ} {a : KtAuditor}, i + count ≤ epochs.length → Replayed P (epochs.take i) a →
      ∃ records a', Tree.auditUpdates t.store i count = .ok records ∧ records.length = count ∧
        a.processUpdates P records = (.ok (), a') ∧ Replayed P (epochs.take (i + count)) a' ∧
        a'.config = a.config ∧ a'.signer = a.signer
  | 0, i, a, _, h => ⟨[], a, rfl, rfl, rfl, h, rfl, rfl⟩
  | count + 1, i, a, hle, h => by
    have hi : i < epochs.length := by omega
    obtain ⟨record, hblob, hrecord⟩ := hs.blob i hi
    have hsub : updatesOf (epochs.take (i + 1)) <+: updatesOf epochs := by
      conv_rhs => rw [← List.take_append_drop (i + 1) epochs]
      rw [updatesOf, updatesOf, List.flatMap_append]
      exact List.prefix_append _ _
    have hdist : DistinctKeys (epochs.take i ++ [epochs[i]]) := by
      rw [← take_succ_eq hi]
      exact hdistinct.sublist (hsub.sublist.map _)
    have hkeys : ∀ u ∈ epochs[i].updates, IsKey u.index := fun u hu =>
      hs.keys u (List.mem_flatMap.2 ⟨_, List.getElem_mem hi, hu⟩)
    have hvalid : KeysValid (insertionsOf (epochs.take i)) := by
      intro x hx
      obtain ⟨-, u, hu, heq⟩ := mem_insertionsOf hx
      obtain ⟨e, he, hmem⟩ := List.mem_flatMap.1 hu
      have hkey := hs.keys u (List.mem_flatMap.2 ⟨e, List.mem_of_mem_take he, hmem⟩)
      rwa [show u.index = x.key from congrArg Prod.fst heq] at hkey
    have htime : ∀ last, (epochs.take i).getLast? = some last → last.timestamp ≤ epochs[i].timestamp := by
      intro last hlast
      have hsplit : NonDecreasing (epochs.take i ++ [epochs[i]]) := by
        rw [← take_succ_eq hi]
        exact htimes.sublist (List.take_sublist _ _)
      exact (List.pairwise_append.1 hsplit).2.2 last (List.mem_of_getLast? hlast) _
        (List.mem_singleton_self _)
    obtain ⟨a₁, hstep, h₁, hconfig₁, hsigner₁⟩ := h.processUpdate hrecord hvalid (hdist.fresh hkeys)
      (hs.committed _ (List.getElem_mem hi)) htime
    rw [← take_succ_eq hi] at h₁
    obtain ⟨records, a', hrecords, hlen, hrun, h', hconfig, hsigner⟩ := replay_run hs hdistinct htimes
      (show i + 1 + count ≤ epochs.length by omega) h₁
    refine ⟨record :: records, a', ?_, by rw [List.length_cons, hlen], ?_, ?_,
      hconfig.trans hconfig₁, hsigner.trans hsigner₁⟩
    · rw [Tree.auditUpdates, hblob, okOr_some, Result.ok_bind, hrecords]
      rfl
    · rw [KtAuditor.processUpdates, hstep]
      exact hrun
    · rwa [show i + (count + 1) = i + 1 + count by omega]

theorem leavesOf_take (k : ℕ) : leavesOf P (epochs.take k) = (leavesOf P epochs).take k := by
  refine List.ext_getElem (by simp) fun i h₁ h₂ => ?_
  have hi : i < k ∧ i < epochs.length := by simpa using h₁
  rw [List.getElem_take]
  simp only [leavesOf, List.getElem_map, List.getElem_range, List.getElem?_take, if_pos hi.1,
    List.take_take]
  rw [Nat.min_eq_left (by omega)]

/-- **A call to an honest server** hands out the next ten records, and the auditor replays
them. -/
theorem Replayed.nextRecords (hs : t.Sound P epochs) (hdistinct : DistinctKeys epochs)
    (htimes : NonDecreasing epochs) {k : ℕ} {a : KtAuditor} (h : Replayed P (epochs.take k) a)
    (hlt : k < epochs.length) :
    ∃ records more a', t.audit k 10 = .ok (records, more) ∧ records ≠ [] ∧
      a.processUpdates P records = (.ok (), a') ∧
      Replayed P (epochs.take (min (k + 10) epochs.length)) a' ∧ a'.config = a.config ∧
      a'.signer = a.signer := by
  obtain ⟨count, hcount⟩ : ∃ count, k + count = min (k + 10) epochs.length :=
    ⟨min (k + 10) epochs.length - k, by omega⟩
  obtain ⟨records, a', hrecords, hlen, hrun, hreplayed, hconfig, hsigner⟩ :=
    replay_run hs hdistinct htimes (show k + count ≤ epochs.length by omega) h
  rw [hcount] at hreplayed
  refine ⟨records, decide (min (k + 10) t.treeSize < t.treeSize), a', ?_, ?_, hrun, hreplayed, hconfig,
    hsigner⟩
  · unfold Tree.audit
    rw [ensure_of (by rw [hs.size]; omega), Result.ok_bind, if_neg (by rw [hs.size]; omega)]
    dsimp only
    rw [show min (k + 10) t.treeSize - k = count by rw [hs.size]; omega, hrecords]
    rfl
  · rintro rfl
    rw [List.length_nil] at hlen
    omega

/-- The size and the root that an auditor has come to. -/
def KtAuditor.AtRoot (P : Primitives) (a : KtAuditor) (treeSize : ℕ) (root : Octets) : Prop :=
  a.logAccumulator.treeSize = treeSize ∧ a.logAccumulator.calculateRoot P = .ok root

theorem Replayed.atRoot {a : KtAuditor} {k : ℕ} (h : Replayed P (epochs.take k) a)
    (hk : k ≤ epochs.length) : a.AtRoot P k (logRoot P ((leavesOf P epochs).take k)) := by
  refine ⟨?_, ?_⟩
  · rw [h.log.treeSize, length_leavesOf, List.length_take, Nat.min_eq_left hk]
  · rw [h.log.calculateRoot, leavesOf_take]

/-- What an auditor checks and derives of the record of a batch. -/
structure RecordAccepted (P : Primitives) (t : Tree) (now : U64) (record : AuditorUpdate)
    (proof : PrefixProof) (oldRoot newRoot : Octets) : Prop where
  stored : t.store.auditBlob (t.treeSize - 1) = some record
  sorted : record.added.Pairwise fun a b => ¬ b.vrfOutput ≤ a.vrfOutput
  removed : record.removed = []
  checked : ∀ a : KtAuditor, a.lastTimestamp ≤ now → a.checkUpdate record = .ok proof
  transition : PrefixTransitioner.verifyAndTransition P oldRoot record.added [] proof = .ok newRoot
  /-- The root is the one that `batch_insert` has made for the new entry. -/
  root : t.store.prefixRoot (t.treeSize - 1) = some newRoot

/-- **Audits are complete.**  In any run of a server, the record of a batch of distinct keys
that are not in the prefix tree passes an auditor's checks and leads it from the old
prefix root to the new one; and where all keys differ and the timestamps do not decrease,
an auditor that replays the records from the first on comes to the root of the log at
each of its sizes, the last of them being the server's. -/
theorem audit_completeness (run : ServerRun P t epochs) :
    (∀ (now : U64) (updates : List PreUpdateData), (∀ u ∈ updates, IsKey u.index) →
      epochs.length + 1 ≤ 2 ^ 62 → validUpdates t.store updates ≠ [] →
      FreshKeys (insertionsOf epochs) (validUpdates t.store updates) → ∃ record proof newRoot,
        RecordAccepted P (Tree.afterBatch P t none (some now) updates).2 now record proof
          (prefixRoot P (commitmentsOf (insertionsOf epochs))) newRoot) ∧
    (DistinctKeys epochs → NonDecreasing epochs → ∀ (signer : Octets) (config : PublicConfig),
      (∀ k ≤ epochs.length, ∃ records a, Tree.auditUpdates t.store 0 k = .ok records ∧
        (KtAuditor.new signer config).processUpdates P records = (.ok (), a) ∧
        a.AtRoot P k (logRoot P ((leavesOf P epochs).take k)) ∧
        -- the next call of `process_and_sign` goes on from there
        (k < epochs.length → ∀ c, serializeConfigurationPublic config = .ok c →
          ∀ setAuditorHead : AuditorTreeHead → Result Unit, ∃ head a',
            a.processAndSign P t.audit setAuditorHead = (setAuditorHead head, a') ∧
            head.treeSize = min (k + 10) epochs.length ∧
            a'.AtRoot P head.treeSize (logRoot P ((leavesOf P epochs).take head.treeSize)))) ∧
      LogTree.getRoot P t.store t.treeSize = .ok (logRoot P (leavesOf P epochs))) := by
  obtain ⟨hs, hsign⟩ := run.sound
  constructor
  · intro now updates hkeys hsize hne hfresh
    obtain ⟨th, store, found, heq, -, -, hs'⟩ := afterBatch_sound hs hsign hsize now hkeys hne
    obtain ⟨e, he⟩ : ∃ e : Epoch, e = ⟨now, validUpdates t.store updates⟩ := ⟨_, rfl⟩
    have hupdates : e.updates = validUpdates t.store updates := by rw [he]
    rw [← he] at hs'
    rw [← hupdates] at hfresh hne
    have hlen : epochs.length < (epochs ++ [e]).length := by simp
    obtain ⟨record, hblob, hrecord⟩ := hs'.blob epochs.length hlen
    rw [List.take_left, List.getElem_concat_length rfl] at hrecord
    obtain ⟨proof, ⟨-, hsorted, hremoved⟩, hcheck, htransition⟩ := hrecord.checkUpdate hs.keysValid hfresh
    have htrans := htransition hne (updatesOf epochs).length
    rw [hremoved, ← insertionsOf_append] at htrans
    have hroot := hs'.root epochs.length hlen
    rw [List.take_of_length_le (by simp)] at hroot
    have hlast : epochs.length = Tree.treeSize { t with store, latest := some th } - 1 := by
      rw [hs'.size, List.length_append, List.length_singleton, Nat.add_sub_cancel]
    have htime : now = e.timestamp := by rw [he]
    rw [hlast] at hblob hroot
    rw [heq, htime]
    exact ⟨record, proof, _, hblob, hsorted, hremoved, hcheck, htrans, hroot⟩
  · intro hdistinct htimes signer config
    refine ⟨fun k hk => ?_, ?_⟩
    · obtain ⟨records, a, hrecords, -, hrun, hreplayed, hconfig, -⟩ := replay_run hs hdistinct htimes
        (show 0 + k ≤ epochs.length by omega) (replayed_new signer config)
      rw [Nat.zero_add] at hreplayed
      refine ⟨records, a, hrecords, hrun, hreplayed.atRoot hk, fun hlt c hc setAuditorHead => ?_⟩
      obtain ⟨hsize, -⟩ := hreplayed.atRoot hk
      obtain ⟨next, more, a', haudit, hne, hrun', hreplayed', hconfig', -⟩ :=
        hreplayed.nextRecords hs hdistinct htimes hlt
      have hat := hreplayed'.atRoot (Nat.min_le_right _ _)
      obtain ⟨tbs, htbs⟩ : ∃ tbs, constructAuditorTreeHeadTbsPublic a'.config
          (min (k + 10) epochs.length) a'.lastTimestamp
          (logRoot P ((leavesOf P epochs).take (min (k + 10) epochs.length))) = .ok tbs := by
        have hroot : (logRoot P ((leavesOf P epochs).take (min (k + 10) epochs.length))).length = 32 :=
          length_logRoot fun l hl => hs.log.digest l (List.mem_of_mem_take hl)
        rw [constructAuditorTreeHeadTbsPublic, hconfig', hconfig]
        exact ⟨_, by rw [show (KtAuditor.new signer config).config = config from rfl, hc, Result.ok_bind,
          auditorTreeHeadTbs, ensure_of hroot]; rfl⟩
      refine ⟨⟨min (k + 10) epochs.length, asI64 a'.lastTimestamp, P.signData a'.signer tbs⟩, a', ?_, rfl,
        hat⟩
      have hhead : a'.signHead P = .ok ⟨min (k + 10) epochs.length, asI64 a'.lastTimestamp,
          P.signData a'.signer tbs⟩ := by
        unfold KtAuditor.signHead
        rw [hat.2, Result.ok_bind, hat.1]
        dsimp only
        rw [htbs]
        rfl
      unfold KtAuditor.processAndSign
      rw [hsize, haudit]
      cases next with
      | nil => exact absurd rfl hne
      | cons record next =>
        dsimp only
        rw [hrun']
        dsimp only
        rw [hhead, Result.ok_bind]
    · have hroot := LogTree.getRoot_current (P := P) hs.log (by rw [length_leavesOf]; exact run.size_le)
      rwa [length_leavesOf, ← hs.size] at hroot

end

/-- The first version of a label. -/
def firstUpdate : PreUpdateData where
  label := [1]
  value := [2]
  last := 0
  version := 0
  index := Octets.zeros 32
  vrfProof := []
  commitment := [7]
  opening := Octets.zeros 16

theorem firstUpdate_keys : ∀ u ∈ [firstUpdate], IsKey u.index := by
  intro u hu
  rw [List.mem_singleton.1 hu]
  exact ⟨by decide, by decide⟩

theorem audit_completeness_first :
    ∃ records a, Tree.auditUpdates (Tree.afterBatch Primitives.ideal (emptyServer plainConfig) none
        (some 5) [firstUpdate]).2.store 0 1 = .ok records ∧
      (KtAuditor.new [] (plainConfig.toPublic Primitives.ideal)).processUpdates Primitives.ideal records =
        (.ok (), a) ∧
      a.AtRoot Primitives.ideal 1 (logRoot Primitives.ideal
        ((leavesOf Primitives.ideal [⟨5, [firstUpdate]⟩]).take 1)) := by
  have run := (ServerRun.start (P := Primitives.ideal) plainConfig plainConfig_signs).batch 5 [firstUpdate]
    firstUpdate_keys (by decide)
  have hepochs : committedBy (emptyServer plainConfig) 5 [firstUpdate] = [⟨5, [firstUpdate]⟩] := rfl
  rw [hepochs, List.nil_append] at run
  obtain ⟨hreplay, -⟩ := (audit_completeness run).2 (List.nodup_singleton _) (List.pairwise_singleton _ _)
    [] (plainConfig.toPublic Primitives.ideal)
  obtain ⟨records, a, hrecords, hrun, hat, -⟩ := hreplay 1 le_rfl
  exact ⟨records, a, hrecords, hrun, hat⟩

end KeyTransparency
