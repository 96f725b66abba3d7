/-
# Reading the proof of a walk

A reader that follows the visits a combined proof was made of gets the timestamps and
prefix proofs it asks for (`ProofReader.At`).  When it has followed all of them, the
queues are empty, and what it returns are the entries of the walk as the log has them
(`ProofReader.At.finish`), so that the head of the log is taken over
(`KtClient.finishAndCommit_honest`).
-/

import KeyTransparency.Client.HonestHead
import KeyTransparency.Client.Session
import KeyTransparency.Client.WalkProof

namespace KeyTransparency

open LogMath MerkleLog LogVerifier

section

variable {P : Primitives} {L : LabelLog} {visits : List Visit} {m : ℕ} {proof : CombinedTreeProof}

/-- **A reader has read the given entries** of a proof, and so many ladders. -/
structure ProofReader.At (L : LabelLog) (proof : CombinedTreeProof) (seen : List ℕ) (k : ℕ)
    (r : ProofReader) : Prop where
  proof : r.proof = proof
  tsIdx : r.tsIdx = seen.length
  proofIdx : r.proofIdx = k
  assigned : ∀ e, r.assignedTs.get e = if e ∈ seen then some (L.timestamp e) else none

namespace ProofReader

variable {seen : List ℕ} {k e : ℕ} {r : ProofReader}

theorem at_new (L : LabelLog) (proof : CombinedTreeProof) : (ProofReader.new proof).At L proof [] 0 :=
  ⟨rfl, rfl, rfl, fun _ => rfl⟩

/-- **The next timestamp** is that of the entry asked for. -/
theorem At.timestamp (h : r.At L proof seen k) (ht : Transcript P L visits m proof)
    (hseen : appendNew seen e <+: entriesOf visits) :
    ∃ r', r.timestamp e = .ok (L.timestamp e, r') ∧ r'.At L proof (appendNew seen e) k := by
  have hbound : ∀ e' ∈ appendNew seen e, e' < L.size := fun e' he' => ht.bound e' (hseen.subset he')
  rw [ProofReader.timestamp]
  by_cases hmem : e ∈ seen
  · have hget := h.assigned e
    rw [if_pos hmem] at hget
    rw [appendNew_of_mem hmem]
    simp only [hget]
    exact ⟨r, rfl, h⟩
  · have hget := h.assigned e
    rw [if_neg hmem] at hget
    rw [appendNew_of_not_mem hmem] at hseen hbound ⊢
    have hlt : e < L.size := hbound e (by simp)
    have hnext : r.proof.timestamps[r.tsIdx]? = some (L.timestamp e) := by
      obtain ⟨rest, hrest⟩ := hseen
      rw [h.proof, h.tsIdx, ht.timestamps, ← hrest]
      simp
    have hentry : ∀ p ∈ r.assignedTs.entries, p.2 = L.timestamp p.1 ∧ p.1 < L.size := fun p hp => by
      have := h.assigned p.1
      rw [OrderedMap.get_eq_some.2 hp] at this
      split_ifs at this with hp'
      exact ⟨Option.some.inj this, hbound p.1 (List.mem_append_left _ hp')⟩
    have hleft : ∀ left ∈ (r.assignedTs.before e).getLast?, left.2 ≤ L.timestamp e :=
      fun left hleft => by
        obtain ⟨hmem, hlt'⟩ := OrderedMap.mem_before.1 (List.mem_of_getLast? hleft)
        rw [(hentry left hmem).1]
        exact L.ordered hlt'.le hlt
    have hright : ∀ right ∈ (r.assignedTs.after e).head?, L.timestamp e ≤ right.2 :=
      fun right hright => by
        obtain ⟨hmem, hlt'⟩ := OrderedMap.mem_after.1 (List.mem_of_head? hright)
        rw [(hentry right hmem).1]
        exact L.ordered hlt'.le (hentry right hmem).2
    simp only [hget, hnext, dif_pos hleft, dif_pos hright]
    refine ⟨_, rfl, h.proof, by simp [h.tsIdx], h.proofIdx, fun e' => ?_⟩
    rw [OrderedMap.get_insert, h.assigned e']
    by_cases heq : e' = e
    · simp [heq]
    · simp [heq]

/-- **The timestamps of a list of entries.** -/
theorem At.timestamps (ht : Transcript P L visits m proof) : ∀ {positions seen : List ℕ}
    {r : ProofReader}, r.At L proof seen k → firstSeenAfter seen positions <+: entriesOf visits →
    ∃ r', r.timestamps positions = .ok r' ∧ r'.At L proof (firstSeenAfter seen positions) k
  | [], seen, r, h, _ => ⟨r, rfl, h⟩
  | e :: positions, seen, r, h, hseen => by
    have hfirst : appendNew seen e <+: entriesOf visits :=
      (prefix_firstSeenAfter (appendNew seen e) positions).trans hseen
    obtain ⟨r₁, hr₁, h₁⟩ := h.timestamp ht hfirst
    obtain ⟨r₂, hr₂, h₂⟩ := At.timestamps ht h₁ hseen
    refine ⟨r₂, ?_, h₂⟩
    rw [ProofReader.timestamps, hr₁, Result.ok_bind]
    exact hr₂

/-- **The next prefix proof** is that of the ladder asked for. -/
theorem At.prefixProof (h : r.At L proof seen k) (ht : Transcript P L visits m proof)
    {versions : List ℕ} (hladder : (laddersOf visits)[k]? = some (e, versions)) :
    ∃ pp r', r.prefixProof = .ok (pp, r') ∧ r'.At L proof seen (k + 1) ∧
      pp.Proves P (L.contents e) (versions.map L.key) := by
  have hlen := ht.proofs.length_eq
  obtain ⟨hk, hget⟩ := List.getElem?_eq_some_iff.1 hladder
  have hlt : k < proof.prefixProofs.length := hlen ▸ hk
  have hpp : proof.prefixProofs[k]? = some proof.prefixProofs[k] := List.getElem?_eq_getElem hlt
  have hproves := List.forall₂_iff_get.1 ht.proofs |>.2 k hk hlt
  simp only [List.get_eq_getElem, hget] at hproves
  refine ⟨_, { r with proofIdx := r.proofIdx + 1 }, ?_, ⟨h.proof, h.tsIdx, by rw [h.proofIdx],
    h.assigned⟩, hproves⟩
  rw [ProofReader.prefixProof, h.proof, h.proofIdx, hpp]
  rfl

/-- Entries with a proof have the recorded roots, the others the ones that were sent. -/
theorem surfaceRoots_eq {entryRoots : NodeMap} {root : ℕ → Octets} :
    ∀ {entries : List (ℕ × U64)}, (∀ e ∈ entries.map Prod.fst, ∀ r, entryRoots e = some r → r = root e) →
    surfaceRoots entryRoots entries
        (((entries.map Prod.fst).filter fun e => (entryRoots e).isNone).map root) =
      .ok (entries.map fun e => (e.1, e.2, root e.1), [])
  | [], _ => rfl
  | (e, ts) :: entries, h => by
    have ih := surfaceRoots_eq fun e' he' => h e' (List.mem_cons_of_mem _ he')
    rw [surfaceRoots.eq_def]
    cases hroot : entryRoots e with
    | some r =>
      obtain rfl := h e List.mem_cons_self r hroot
      rw [List.map_cons, List.filter_cons_of_neg (by simp [hroot])]
      simp only [hroot, ih]
      rfl
    | none =>
      rw [List.map_cons, List.filter_cons_of_pos (by simp [hroot]), List.map_cons]
      simp only [hroot, ih]
      rfl

/-- The entries a reader has been given, from left to right. -/
theorem At.entries (h : r.At L proof seen k) (hnodup : seen.Nodup) :
    r.assignedTs.entries = (seen.mergeSort (· ≤ ·)).map fun e => (e, L.timestamp e) := by
  have hsorted : ((seen.mergeSort (· ≤ ·)).map fun e => (e, L.timestamp e)).Pairwise
      fun p q => p.1 < q.1 := by
    rw [List.pairwise_map]
    exact ((List.pairwise_mergeSort' (· ≤ ·) seen).and (List.nodup_mergeSort.2 hnodup)).imp
      fun h => lt_of_le_of_ne h.1 h.2
  have hmem : ∀ p, p ∈ r.assignedTs.entries ↔
      p ∈ (seen.mergeSort (· ≤ ·)).map fun e => (e, L.timestamp e) := by
    rintro ⟨e, ts⟩
    rw [← OrderedMap.get_eq_some, h.assigned]
    simp only [List.mem_map, List.mem_mergeSort, Prod.mk.injEq]
    constructor
    · intro hget
      split_ifs at hget with he
      exact ⟨e, he, rfl, Option.some.inj hget⟩
    · rintro ⟨e', he', rfl, rfl⟩
      rw [if_pos he']
  have hperm : r.assignedTs.entries.Perm ((seen.mergeSort (· ≤ ·)).map fun e => (e, L.timestamp e)) :=
    (List.perm_ext_iff_of_nodup (r.assignedTs.sorted.imp fun h heq => by simp [heq] at h)
      (hsorted.imp fun h heq => by simp [heq] at h)).2 hmem
  exact hperm.eq_of_pairwise (fun a b _ _ h h' => absurd h (by omega)) r.assignedTs.sorted hsorted

/-- **A reader that has followed a walk** returns the log's entries. -/
theorem At.finish (h : r.At L proof (entriesOf visits) (laddersOf visits).length)
    (ht : Transcript P L visits m proof) {entryRoots : NodeMap}
    (hroots : ∀ e, entryRoots e =
      if e ∈ (laddersOf visits).map Prod.fst then some (L.root P e) else none) :
    r.finish entryRoots =
      .ok ((sortedEntries visits).map fun e => (e, L.timestamp e, L.root P e)) := by
  have hentries := h.entries (nodup_entriesOf visits)
  have hts : r.tsIdx = r.proof.timestamps.length := by
    rw [h.proof, h.tsIdx, ht.timestamps, List.length_map]
  have hproofs : r.proofIdx = r.proof.prefixProofs.length := by
    rw [h.proof, h.proofIdx, ht.proofs.length_eq]
  have hrecorded : ∀ e ∈ r.assignedTs.entries.map Prod.fst, ∀ root,
      entryRoots e = some root → root = L.root P e := fun e _ root hroot => by
    rw [hroots] at hroot
    split_ifs at hroot
    exact (Option.some.inj hroot).symm
  have hsurface := surfaceRoots_eq hrecorded
  have hsent : r.proof.prefixRoots = ((r.assignedTs.entries.map Prod.fst).filter fun e =>
      (entryRoots e).isNone).map (L.root P) := by
    have hfst : r.assignedTs.entries.map Prod.fst = sortedEntries visits := by
      rw [hentries, List.map_map]
      exact List.map_id' _
    rw [h.proof, ht.roots, hfst]
    congr 1
    refine List.filter_congr fun e _ => ?_
    rw [hroots]
    split_ifs with he <;> simp [he]
  rw [ProofReader.finish, ensure_of hts, Result.ok_bind, ensure_of hproofs, Result.ok_bind, hsent,
    hsurface, Result.ok_bind]
  dsimp only
  rw [ensure_of rfl, Result.ok_bind, hentries, List.map_map]
  rfl

end ProofReader

/-! ### The commit -/

/-- **A tree head is the log's** for a client that retains the peaks of its first
entries: a newer one with the server's signature, or the one it has already. -/
structure KtClient.HeadOf (P : Primitives) (c : KtClient) (L : LabelLog) (m : ℕ) (fth : FullTreeHead)
    (updated : Bool) : Prop where
  mode : c.config.mode ≠ deploymentModeThirdPartyAuditing
  retained : RetainsPeaks P c.retainedSubtrees (L.leaves P) m
  known : m ≤ L.size
  newer : updated = true → ∃ th, fth.treeHead = some th ∧
    c.verifyTreeHeadSignature P th L.size (logRoot P (L.leaves P)) = .ok ()
  same : updated = false → m = L.size ∧ ∃ prev, c.state = some prev ∧ prev.treeSize = L.size ∧
    prev.rootHash = logRoot P (L.leaves P)

/-- What an honest walk returns: its entries, as the log has them. -/
def LabelLog.data (P : Primitives) (L : LabelLog) (visits : List Visit) : List LeafData :=
  (sortedEntries visits).map fun e => (e, L.timestamp e, L.root P e)

theorem LabelLog.leavesAt_data (hlt : ∀ e ∈ entriesOf visits, e < L.size) :
    (L.data P visits).map (fun d => logLeafValue P d.2.1 d.2.2) =
      leavesAt (L.leaves P) (sortedEntries visits) := by
  rw [LabelLog.data, List.map_map, leavesAt]
  refine List.map_congr_left fun e he => ?_
  have he := hlt e (mem_sortedEntries.1 he)
  rw [leafAt, LabelLog.leaves, List.getD_eq_getElem _ _ (by simpa using he), List.getElem_map,
    List.getElem_range, Function.comp_apply]

/-- **An honest walk ends with the commit** of the log's head. -/
theorem KtClient.finishAndCommit_honest {c : KtClient} {fth : FullTreeHead} {updated : Bool}
    (hhead : c.HeadOf P L m fth updated) (hsmall : L.size ≤ 2 ^ 62) (h₀ : 0 < L.size)
    (ht : Transcript P L visits m proof) (hlast : L.size - 1 ∈ entriesOf visits)
    {timestamp : Option U64} {r : ProofReader}
    (hr : r.At L proof (entriesOf visits) (laddersOf visits).length) {entryRoots : NodeMap}
    (hroots : ∀ e, entryRoots e =
      if e ∈ (laddersOf visits).map Prod.fst then some (L.root P e) else none)
    (extraWanted : List ℕ) :
    ∃ captured head th retained,
      c.finishAndCommit P fth L.size timestamp updated proof r entryRoots extraWanted =
        .ok (L.data P visits, captured, { c with
          retainedHead := th, state := some head, retainedSubtrees := retained }) ∧
      head.treeSize = L.size ∧ head.rootHash = logRoot P (L.leaves P) ∧
      RetainsPeaks P retained (L.leaves P) L.size := by
  have hfinish := hr.finish ht hroots
  have hlen := L.length_leaves P
  have hne : L.leaves P ≠ [] := List.length_pos_iff.1 (by omega)
  have hlt : ∀ p ∈ sortedEntries visits, p < (L.leaves P).length := fun p hp => by
    rw [hlen]
    exact ht.bound p (mem_sortedEntries.1 hp)
  have hpositions : (L.data P visits).map Prod.fst = sortedEntries visits := by
    rw [LabelLog.data, List.map_map]
    exact List.map_id' _
  cases updated with
  | true =>
    obtain ⟨th, hth, hsig⟩ := hhead.newer rfl
    rw [← hlen] at hsig
    obtain ⟨captured, retained, hret, hcommit⟩ := c.verifyHeadAndCommit_honest
      hhead.mode (hlen ▸ hsmall) hne hlt
      (by rw [hlen]; exact mem_sortedEntries.2 hlast) (hlen ▸ hhead.known) hhead.retained hth hsig
    rw [hlen] at hcommit hret
    refine ⟨captured, ⟨L.size, logRoot P (L.leaves P), timestamp.getD 0⟩, some th, retained,
      finishAndCommit_eq_ok.2 ⟨hfinish, _, ht.inclusion, ?_⟩, rfl, rfl, hret⟩
    rw [← hpositions, LabelLog.leavesAt_data ht.bound, hpositions]
    exact hcommit
  | false =>
    obtain ⟨rfl, prev, hprev, hsize, heq⟩ := hhead.same rfl
    obtain ⟨captured, hcommit⟩ := c.verifyHeadAndCommit_honest_same
      (hlen ▸ hsmall) hne hlt (hlen ▸ hhead.retained) hprev heq
    rw [hlen] at hcommit
    have hsame : c = { c with
        retainedHead := c.retainedHead, state := some prev,
        retainedSubtrees := c.retainedSubtrees } := by
      rw [← hprev]
    refine ⟨captured, prev, c.retainedHead, c.retainedSubtrees,
      finishAndCommit_eq_ok.2 ⟨hfinish, _, ht.inclusion, ?_⟩, hsize, heq, hhead.retained⟩
    rw [← hsame]
    rw [← hpositions, LabelLog.leavesAt_data ht.bound, hpositions]
    exact hcommit

end

end KeyTransparency
