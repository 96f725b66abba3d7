/-
# Honest credentials

A client that has walked over a log accepts the provisional credentials of an honest
server of this log: the anchor's peaks are those of the server's log, and the terminal
entry is the first of the frontier that holds the version
(`KtClient.verifyProvisional_honest`).
-/

import KeyTransparency.Client.Gossip
import KeyTransparency.Client.GreatestSearch
import KeyTransparency.Tree.Credential
import Mathlib.Data.List.Find

namespace KeyTransparency

open BinaryLadder InOrder LogMath LogVerifier MerkleLog

section

variable {P : Primitives} {t : Tree} {c : KtClient} {label : Octets} {L : LabelLog}
  {visits done : List Visit} {m target : ℕ} {proof : CombinedTreeProof}
  {binaryLadder : List BinaryLadderStep} {leaves : List Octets} {anchor : DistinguishedEntry}
  {cred : Credential}

/-! ### The walk over the frontier -/

/-- **A verifier has followed the search** for the greatest version at some entries. -/
structure SearchState.Searching (P : Primitives) (L : LabelLog) (proof : CombinedTreeProof)
    (target : ℕ) (seen : List ℕ) (s : SearchState) : Prop where
  follows : s.Follows P L proof (frontierVisits L.size ++ L.searchLadders target seen)
  slots : s.ladders.wireIndex = baseBinaryLadder target
  ladders : s.ladders.Honest L (baseBinaryLadder target)
  retains : s.ladders.Retains L

theorem SearchState.searching_start {reader : ProofReader}
    (h : reader.At L proof (entriesOf (frontierVisits L.size)) 0) :
    (SearchState.mk reader (.new (baseBinaryLadder target)) fun _ => none).Searching P L proof target
      [] where
  follows := by
    have hladders : laddersOf (frontierVisits L.size) = [] := laddersOf_stamps _
    refine ⟨?_, fun e => ?_⟩
    · rw [LabelLog.searchLadders, List.map_nil, List.append_nil, hladders]
      exact h
    · rw [LabelLog.searchLadders, List.map_nil, List.append_nil, hladders]
      rfl
  slots := rfl
  ladders := ⟨List.prefix_rfl, fun v out h => by cases h⟩
  retains v c h := by cases h

/-- **The next ladder of a search** verifies. -/
theorem SearchState.Searching.next {s : SearchState} {seen rest : List ℕ} {e : ℕ}
    (h : s.Searching P L proof target seen) (ht : Transcript P L (L.greatestVisits target) m proof)
    (hn : L.size ≤ 2 ^ 62) (hfrontier : seen ++ e :: rest = getFrontier L.size)
    (hwire : L.Wire (some target) (laddersOf (L.greatestVisits target)) (baseBinaryLadder target)
      binaryLadder) (hverify : c.CanVerify P label L)
    (hgreatest : L.greatest (L.size - 1) = some target) :
    ∃ pp reader ladders entryRoots, s.reader.prefixProof = .ok (pp, reader) ∧
      c.verifyLadderProof P label pp target binaryLadder (L.commitment target) true (e == L.size - 1)
        s.ladders = .ok (L.root P e, L.relation target e, ladders) ∧
      ProofReader.recordEntryRoot s.entryRoots e (L.root P e) = .ok entryRoots ∧
      (SearchState.mk reader ladders entryRoots).Searching P L proof target (seen ++ [e]) := by
  have hmem : e ∈ getFrontier L.size := by
    rw [← hfrontier]
    simp
  have he := mem_getFrontier_lt hn hmem
  have hvisits : frontierVisits L.size ++ L.searchLadders target seen ++
      [Visit.ladder e (L.searchLadder target e)] <+: L.greatestVisits target := by
    rw [LabelLog.greatestVisits, ← hfrontier, List.append_assoc]
    refine (List.prefix_append_right_inj _).2 ?_
    rw [LabelLog.searchLadders, LabelLog.searchLadders, List.map_append]
    refine (List.prefix_append_right_inj _).2 ?_
    exact ⟨rest.map _, rfl⟩
  have hstamped : e ∈ entriesOf (frontierVisits L.size ++ L.searchLadders target seen) :=
    mem_entriesOf.2 ⟨.stamp e, List.mem_append_left _ (List.mem_map_of_mem hmem), rfl⟩
  obtain ⟨pp, reader, entryRoots, hpp, hproves, hrecord, hfollows⟩ :=
    h.follows.ladder ht (laddersOf_getElem? hvisits) hstamped
  have htarget := L.small (show L.size - 1 < L.size by omega) hgreatest
  have hladder : (e, L.searchLadder target e) ∈ laddersOf (L.greatestVisits target) := by
    rw [LabelLog.laddersOf_greatestVisits]
    exact List.mem_map_of_mem hmem
  have hbelow : ∀ l ∈ laddersOf (L.greatestVisits target), ∀ g ∈ L.greatest l.1, g ≤ target := by
    intro l hl g hg
    rw [LabelLog.laddersOf_greatestVisits] at hl
    obtain ⟨e', he', rfl⟩ := List.mem_map.1 hl
    exact LabelLog.greatest_le hgreatest (mem_getFrontier_lt hn he') hg
  have hslots : firstSeenAfter s.ladders.wireIndex (L.searchLadder target e) =
      baseBinaryLadder target := by
    rw [h.slots]
    exact firstSeenAfter_of_subset fun v hv => (LabelLog.searchLadder_beginning target e).subset hv
  have hright : true = true → (e == L.size - 1) = true → L.greatest e = some target :=
    fun _ hright => by rw [beq_iff_eq.1 hright]; exact hgreatest
  obtain ⟨ladders, hverified, hslots', hladders, hretains⟩ := KtClient.verifyLadderProof_honest hwire
    hverify he htarget hladder (fun _ => hbelow) hright hproves h.ladders h.retains (by rw [hslots])
  refine ⟨pp, reader, ladders, entryRoots, hpp, hverified, hrecord, ?_, hslots'.trans hslots, hladders,
    hretains⟩
  have hdone := hfollows ladders
  rwa [List.append_assoc, show [Visit.ladder e (L.searchLadder target e)] =
    L.searchLadders target [e] from rfl, LabelLog.searchLadders, LabelLog.searchLadders,
    ← List.map_append] at hdone

/-- The first entry of the frontier that holds a version. -/
def LabelLog.firstWith (L : LabelLog) (target : ℕ) : Option ℕ :=
  (getFrontier L.size).find? fun e => L.present e target

/-- **The first entry whose greatest version is the last one** is the first that holds it. -/
theorem LabelLog.find?_relation (hn : L.size ≤ 2 ^ 62)
    (hgreatest : L.greatest (L.size - 1) = some target) :
    ((getFrontier L.size).find? fun e => L.relation target e = .eq) = L.firstWith target := by
  refine List.find?_congr fun e he => ?_
  rw [Bool.eq_iff_iff, decide_eq_true_eq, relation_eq_eq, present_iff]
  constructor
  · intro h
    exact ⟨target, h, le_rfl⟩
  · rintro ⟨g, hg, hle⟩
    have := greatest_le hgreatest (mem_getFrontier_lt hn he) hg
    rw [hg, show g = target by omega]

theorem LabelLog.exists_firstWith (h₀ : 0 < L.size) (hn : L.size ≤ 2 ^ 62)
    (hgreatest : L.greatest (L.size - 1) = some target) : ∃ e, L.firstWith target = some e := by
  rw [← Option.isSome_iff_exists, firstWith, List.find?_isSome]
  exact ⟨L.size - 1, last_mem_getFrontier h₀ hn, present_iff.2 ⟨target, hgreatest, le_rfl⟩⟩

/-! ### Provisional credentials -/

/-- **A credential answers a search** for the greatest version: with the value that the
log's commitment opens to, the ladder in its order, and the proof of the visits. -/
structure Credential.Answers (P : Primitives) (L : LabelLog) (m : ℕ) (cred : Credential) : Prop where
  greatest : L.greatest (L.size - 1) = some cred.version
  value : ∃ value, cred.value = some value ∧
    commit P cred.label cred.version value.value none cred.opening = .ok (L.commitment cred.version)
  wire : L.Wire (some cred.version) (laddersOf (L.greatestVisits cred.version))
    (baseBinaryLadder cred.version) cred.binaryLadder
  length : cred.binaryLadder.length = (baseBinaryLadder cred.version).length
  treeHead : ∃ th, cred.treeHead = some th ∧ th.treeSize = L.size
  search : ∃ proof, cred.search = some proof ∧ Transcript P L (L.greatestVisits cred.version) m proof

/-- **The walk of a provisional credential's verifier.** -/
theorem KtClient.credentialWalk_honest (hanswers : cred.Answers P L m) (hn : L.size ≤ 2 ^ 62)
    (hverify : c.CanVerify P cred.label L)
    (ht : Transcript P L (L.greatestVisits cred.version) m proof) :
    ∃ reader s, (ProofReader.new proof).timestamps (getFrontier L.size) = .ok reader ∧
      frontierWalk (c.credentialStep P cred (L.commitment cred.version) (L.size - 1))
        (getFrontier L.size) none ⟨reader, .new (baseBinaryLadder cred.version), fun _ => none⟩ =
          .ok (L.firstWith cred.version, s) ∧
      s.Searching P L proof cred.version (getFrontier L.size) ∧
      ∃ s', frontierWalk (c.terminalStep P cred (L.commitment cred.version) (L.size - 1))
        (getFrontier L.size) none (reader, .new (baseBinaryLadder cred.version)) =
          .ok (L.firstWith cred.version, s') := by
  obtain ⟨reader, hreader, hat⟩ := ProofReader.frontier_honest ht (List.prefix_append _ _)
  have hstart : (SearchState.mk reader (.new (baseBinaryLadder cred.version)) fun _ => none).Searching
      P L proof cred.version [] := SearchState.searching_start hat
  obtain ⟨s, hrun, -, hs⟩ := frontierWalk_eq
    (c.credentialStep P cred (L.commitment cred.version) (L.size - 1)) (L.relation cred.version)
    (fun seen rest s => seen ++ rest = getFrontier L.size ∧ s.Searching P L proof cred.version seen)
    (fun seen e rest s h => by
      obtain ⟨pp, reader, ladders, entryRoots, hpp, hladder, hrecord, hnext⟩ :=
        h.2.next ht hn h.1 hanswers.wire hverify hanswers.greatest
      refine ⟨⟨reader, ladders, entryRoots⟩, ?_, by rw [List.append_assoc]; exact h.1, hnext⟩
      rw [credentialStep, hpp, Result.ok_bind]
      dsimp only
      rw [hladder, Result.context_ok, Result.ok_bind]
      dsimp only
      rw [hrecord]
      rfl) (getFrontier L.size) [] none _ ⟨rfl, hstart⟩
  obtain ⟨s', hrun', -⟩ := frontierWalk_eq
    (c.terminalStep P cred (L.commitment cred.version) (L.size - 1)) (L.relation cred.version)
    (fun seen rest s => seen ++ rest = getFrontier L.size ∧ ∃ entryRoots,
      (SearchState.mk s.1 s.2 entryRoots).Searching P L proof cred.version seen)
    (fun seen e rest s h => by
      obtain ⟨hrest, entryRoots, hs⟩ := h
      obtain ⟨pp, reader, ladders, entryRoots, hpp, hladder, -, hnext⟩ :=
        hs.next ht hn hrest hanswers.wire hverify hanswers.greatest
      refine ⟨(reader, ladders), ?_, by rw [List.append_assoc]; exact hrest, entryRoots, hnext⟩
      dsimp only at hpp hladder
      rw [terminalStep, hpp, Result.ok_bind]
      dsimp only
      rw [hladder]
      rfl) (getFrontier L.size) [] none (reader, .new (baseBinaryLadder cred.version)) ⟨rfl, _, hstart⟩
  rw [Option.none_or, LabelLog.find?_relation hn hanswers.greatest] at hrun hrun'
  exact ⟨reader, s, hreader, hrun, hs, s', hrun'⟩

/-- **The terminal entry** of an honest search is the first that holds the version. -/
theorem KtClient.credentialTerminal_honest (hanswers : cred.Answers P L m) (h₀ : 0 < L.size)
    (hn : L.size ≤ 2 ^ 62) (hverify : c.CanVerify P cred.label L) {terminal : ℕ}
    (hterminal : L.firstWith cred.version = some terminal) :
    c.credentialTerminal P cred = .ok terminal := by
  obtain ⟨value, hvalue, hcommit⟩ := hanswers.value
  obtain ⟨th, hth, hsize⟩ := hanswers.treeHead
  obtain ⟨proof, hproof, ht⟩ := hanswers.search
  obtain ⟨reader, s, hreader, -, -, s', hrun⟩ := credentialWalk_honest hanswers hn hverify ht
  rw [hterminal] at hrun
  rw [credentialTerminal, hth, okOr_some, Result.ok_bind, hproof, okOr_some, Result.ok_bind, hvalue,
    okOr_some, Result.ok_bind, hcommit, Result.ok_bind, hsize, hreader, Result.ok_bind, rightmostOf,
    getLast?_getFrontier h₀ hn]
  dsimp only [Option.elim]
  rw [Result.ok_bind, hrun]
  rfl

/-- The peaks that were retained for an anchor. -/
theorem retainsPeaks_zip (leaves : List Octets) (hm : m ≤ 2 ^ 62) : RetainsPeaks P (fun id => ((getRoots m).zip ((peaks m).map fun c =>
    value (logPar P) (leafAt leaves) m c.1 c.2)).lookup id) leaves m := by
  have hpeaks : (fun id => ((getRoots m).zip ((peaks m).map fun c =>
      value (logPar P) (leafAt leaves) m c.1 c.2)).lookup id) = peakValues P leaves m := by
    funext id
    rw [getRoots_eq hm, List.zip_map', peakValues]
    induction peaks m with
    | nil => rfl
    | cons c cs ih =>
      rw [List.map_cons, List.lookup_cons, List.find?_cons, ih, BEq.comm]
      by_cases h : node c.1 c.2 == id
      · simp [h]
      · simp [h]
  rw [hpeaks]
  exact retainsPeaks_peakValues P leaves m

/-- **An honest provisional credential verifies** against an anchor of its log. -/
theorem KtClient.verifyProvisional_honest (hanswers : cred.Answers P L (cred.position + 1))
    (hn : L.size ≤ 2 ^ 62) (hverify : c.CanVerify P cred.label L)
    (hanchor : anchor.Anchors P (L.leaves P) cred.position)
    (hhead : ∀ th, cred.treeHead = some th →
      c.verifyTreeHeadSignature P th L.size (logRoot P (L.leaves P)) = .ok ())
    (hlater : ∀ terminal, L.firstWith cred.version = some terminal → cred.position < terminal) :
    c.verifyProvisional P cred anchor (L.commitment cred.version) = .ok () := by
  obtain ⟨th, hth, hsize⟩ := hanswers.treeHead
  obtain ⟨proof, hproof, ht⟩ := hanswers.search
  have hlen := L.length_leaves P
  have hposition : cred.position < L.size := hlen ▸ hanchor.lt
  have h₀ : 0 < L.size := by omega
  obtain ⟨reader, s, hreader, hrun, hs, -⟩ := credentialWalk_honest hanswers hn hverify ht
  obtain ⟨terminal, hterminal⟩ := LabelLog.exists_firstWith h₀ hn hanswers.greatest
  rw [hterminal] at hrun
  have hfinish : s.reader.finish s.entryRoots = .ok (L.data P (L.greatestVisits cred.version)) :=
    hs.follows.reader.finish ht hs.follows.roots
  have hlt : ∀ p ∈ sortedEntries (L.greatestVisits cred.version), p < (L.leaves P).length :=
    fun p hp => by
      rw [hlen]
      exact ht.bound p (mem_sortedEntries.1 hp)
  have hpositions : (L.data P (L.greatestVisits cred.version)).map Prod.fst =
      sortedEntries (L.greatestVisits cred.version) := by
    rw [LabelLog.data, List.map_map]
    exact List.map_id' _
  have hretains := retainsPeaks_zip (P := P) (m := cred.position + 1) (L.leaves P) (by omega)
  rw [← hanchor.peaks] at hretains
  have hroot := calculateRootCapturing_neededValues (P := P) (hlen ▸ hn)
    (List.length_pos_iff.1 (by omega)) hlt (hlen ▸ hposition) hretains []
  rw [hlen] at hroot
  rw [verifyProvisional, hth, okOr_some, Result.ok_bind, hproof, okOr_some, Result.ok_bind, hsize,
    ensure_of hposition, Result.ok_bind, ensure_of hanswers.length, Result.ok_bind, hreader,
    Result.ok_bind, rightmostOf, getLast?_getFrontier h₀ hn]
  dsimp only [Option.elim]
  rw [Result.ok_bind, hrun, Result.ok_bind]
  dsimp only
  rw [Option.getD_some, ensure_of (hlater terminal hterminal), Result.ok_bind, hfinish, Result.ok_bind,
    ht.inclusion, okOr_some, Result.ok_bind, hpositions, LabelLog.leavesAt_data ht.bound, hroot,
    Result.context_ok, Result.ok_bind]
  dsimp only
  rw [hhead th hth, Result.context_ok]

end

end KeyTransparency
