/-
# What an owner is told of its label

An owner that begins to monitor a label is sent a list of the greatest versions along
its first walk, beside the ladders that prove them.  The ladders are sound
(`ownerInitWalk_sound`), but of the list only the order and the number of its members
are checked, so that any other descending list of that length is accepted as well
(`misreported_version`).  The list is what the log holds exactly where no entry of the
walk holds a version (`owner_init_sound_iff`).
-/

import KeyTransparency.Client.OwnerBelief
import Mathlib.Data.List.Chain

namespace KeyTransparency

open BinaryLadder InOrder LogMath MerkleLog

namespace LogMath

theorem le_of_mem_ibstDirectPathLoop {target e : ℕ} : ∀ {fuel size offset : ℕ},
    e ∈ ibstDirectPathLoop target fuel size offset → offset ≤ e
  | 0, _, _, h => by simp [ibstDirectPathLoop] at h
  | fuel + 1, size, offset, h => by
    rw [ibstDirectPathLoop] at h
    dsimp only at h
    split_ifs at h
    · simp at h
    · rcases List.mem_cons.1 h with rfl | h
      · omega
      · exact le_of_mem_ibstDirectPathLoop h
    · rcases List.mem_cons.1 h with rfl | h
      · omega
      · have := le_of_mem_ibstDirectPathLoop h
        omega
    · simp at h

theorem pairwise_left_ibstDirectPathLoop {target : ℕ} : ∀ {fuel size offset : ℕ},
    ((ibstDirectPathLoop target fuel size offset).filter (· < target)).Pairwise (· < ·)
  | 0, _, _ => by simp [ibstDirectPathLoop]
  | fuel + 1, size, offset => by
    rw [ibstDirectPathLoop]
    dsimp only
    split_ifs with hpos heq hlt
    · simp
    · rw [List.filter_cons_of_neg (by simpa using hlt.le)]
      exact pairwise_left_ibstDirectPathLoop
    · rw [List.filter_cons_of_pos (by simpa using by omega)]
      refine List.pairwise_cons.2 ⟨fun e he => ?_, pairwise_left_ibstDirectPathLoop⟩
      have := le_of_mem_ibstDirectPathLoop (List.mem_filter.1 he).1
      omega
    · simp

/-- **The entries of an owner's first walk** go from right to left. -/
theorem pairwise_ownerInitList (start n : ℕ) : (ownerInitList start n).Pairwise (· > ·) := by
  refine List.pairwise_cons.2 ⟨fun e he => by simpa using (List.mem_filter.1 he).2, ?_⟩
  rw [ibstDirectPath, List.filter_reverse, List.pairwise_reverse]
  exact pairwise_left_ibstDirectPathLoop

end LogMath

/-- The entries of an owner's first walk, which ends at the first expired one. -/
def ContiguousLog.initEntries (L : ContiguousLog) (maximumLifetime : Option ℕ) (start : ℕ) : List ℕ :=
  (ownerInitList start L.size).takeWhile fun e =>
    !KtClient.isExpired maximumLifetime (L.timestamp (L.size - 1)) (L.timestamp e)

/-- The greatest versions at these entries, where there are any. -/
def ContiguousLog.initVersions (L : ContiguousLog) (maximumLifetime : Option ℕ) (start : ℕ) : List ℕ :=
  (L.initEntries maximumLifetime start).filterMap L.greatest

namespace KtClient

section

variable {P : Primitives} {env : Env} {c c' : KtClient} {L : ContiguousLog} {label : Octets}
  {start : ℕ} {binaryLadder : List BinaryLadderStep}

theorem ownerInitWalk_kept {rightmostTs : U64} : ∀ {nodes : List ℕ} {prevVer : Option ℕ}
    {count count' : ℕ} {s s' : SearchState},
    c.ownerInitWalk P label binaryLadder rightmostTs nodes prevVer count s = .ok (count', s') →
    RootsKept s.entryRoots s'.entryRoots
  | [], prevVer, count, count', s, s', h => by
    obtain ⟨-, rfl⟩ := Prod.mk.inj (Except.ok.inj h)
    exact .refl _
  | node :: nodes, prevVer, count, count', s, s', h => by
    obtain ⟨⟨ts, reader⟩, -, h⟩ := Result.bind_eq_ok.1 h
    dsimp only at h
    split_ifs at h
    · obtain ⟨-, rfl⟩ := Prod.mk.inj (Except.ok.inj h)
      exact .refl _
    · simp only [Result.bind_eq_ok] at h
      obtain ⟨⟨pp, reader'⟩, -, ⟨root, greatest, ladders⟩, -, -, -, entryRoots, hrecord, h⟩ := h
      exact (ProofReader.recordEntryRoot_kept hrecord).1.trans (ownerInitWalk_kept h)

/-- **Soundness of the owner's first walk**: it counts the entries that hold a version. -/
theorem ownerInitWalk_sound (hP : Function.Injective P.sha256) (hZ : ∀ m, P.sha256 m ≠ zeroValue)
    (hkeys : c.KeysAre P label L.key) {rightmostTs : U64} : ∀ {nodes : List ℕ} {prevVer : Option ℕ}
      {count count' : ℕ} {s s' : SearchState}, (∀ e ∈ nodes, e < L.size) →
    c.ownerInitWalk P label binaryLadder rightmostTs nodes prevVer count s = .ok (count', s') →
    s.ladders.CacheTrue L.key → ReadsTrue P L s'.reader s'.entryRoots →
    count' = count + ((nodes.takeWhile fun e =>
      !isExpired c.config.maximumLifetime rightmostTs (L.timestamp e)).filterMap L.greatest).length
  | [], prevVer, count, count', s, s', _, h, _, _ => (Prod.mk.inj (Except.ok.inj h)).1.symm
  | node :: nodes, prevVer, count, count', s, s', hlt, h, hcache, htrue => by
    obtain ⟨⟨ts, reader⟩, hts, h⟩ := Result.bind_eq_ok.1 h
    have hread := ProofReader.mem_of_timestamp hts
    dsimp only at h
    by_cases hexpired : isExpired c.config.maximumLifetime rightmostTs ts = true
    · rw [if_pos hexpired] at h
      obtain ⟨rfl, rfl⟩ := Prod.mk.inj (Except.ok.inj h)
      rw [htrue.timestamp hread] at hexpired
      rw [List.takeWhile_cons_of_neg (by simp [hexpired])]
      rfl
    · rw [if_neg hexpired] at h
      simp only [Result.bind_eq_ok, Result.context_eq_ok] at h
      obtain ⟨⟨pp, reader'⟩, hpp, ⟨root, greatest, ladders⟩, hladder, -, -, entryRoots, hrecord, h⟩ := h
      dsimp only at h hladder hrecord
      have hlt' : ∀ e ∈ nodes, e < L.size := fun e he => hlt e (List.mem_cons_of_mem _ he)
      have hread' := (ownerInitWalk_extends hlt' h).keeps ((ProofReader.prefixProof_extends hpp).keeps
        (n := L.size) hread)
      have hnode := hlt node List.mem_cons_self
      rw [htrue.timestamp hread'] at hexpired
      obtain ⟨rfl, -, hcache'⟩ := verifyOwnerLadder_sound hP hZ hkeys (fun v => L.held hnode)
        (fun g hg => L.small hnode hg) hcache (htrue.root hread'
          (ownerInitWalk_kept h _ _ (ProofReader.recordEntryRoot_kept hrecord).2)) hladder
      rw [ownerInitWalk_sound hP hZ hkeys hlt' h hcache' htrue,
        List.takeWhile_cons_of_pos (by simpa using hexpired)]
      cases hg : L.greatest node with
      | none => simp [hg]
      | some g =>
        simp only [List.filterMap_cons, hg, List.length_cons, Option.isSome_some, if_true]
        omega

/-- **What the list of versions is checked for**: it has as many members as entries of
the walk hold a version. -/
theorem verifyOwnerInit_length (hP : Function.Injective P.sha256) (hZ : ∀ m, P.sha256 m ≠ zeroValue)
    (hkeys : c.KeysAre P label L.key) {resp : OwnerInitResponse} {data : List LeafData}
    (h : c.verifyOwnerInit P env label start resp = .ok (data, c')) {head : TrustedState}
    (hstate : c'.state = some head) (hlog : LogOf P head.treeSize head.rootHash (L.leaves P)) :
    resp.greatestVersions.length = (L.initVersions c.config.maximumLifetime start).length := by
  have haccepted := Accepted.ownerInit h
  have hsize : L.size = head.treeSize := by rw [← L.length_leaves P, hlog.size]
  have hn := hlog.small
  simp only [verifyOwnerInit, Result.bind_eq_ok, okOr_eq_ok, ensure_eq_ok] at h
  obtain ⟨fth, hfth, proof, -, ⟨n, timestamp, updated⟩, hhead, -, ⟨hpos, hstart⟩, ⟨⟩, -, -, -, reader,
    hreader, ⟨ts, reader'⟩, hts, ⟨count, s⟩, hwalk, -, hcount, -, -, ⟨data', captured, committed⟩,
    hfinish, h⟩ := h
  obtain ⟨rfl, rfl⟩ := Prod.mk.inj (Except.ok.inj h)
  dsimp only at hpos hstart hts hwalk hcount hstate hfinish hreader
  obtain ⟨hfin, inclusion, -, hcommit⟩ := finishAndCommit_eq_ok.1 hfinish
  obtain ⟨head', hstate', rfl, -⟩ := verifyHeadAndCommit_derived hhead hcommit
  obtain rfl := Option.some.inj (hstate'.symm.trans hstate)
  rw [← hsize] at hpos hstart hts hwalk hn hreader
  have hlt : ∀ e ∈ ownerInitList start L.size, e < L.size := fun e he => ownerInitList_lt (by omega) hstart he
  have hafter := ownerInitWalk_extends hlt hwalk
  have hreads := ReadsLog.of_finish hn hreader
    ((ProofReader.timestamp_extends hts (by omega)).trans hafter) hfin
  have htrue := haccepted.readsTrue hP hfth hstate' hlog (fun e he => by
    rw [← ProofReader.finish_entries hfin] at he
    obtain ⟨d, hd, rfl⟩ := List.mem_map.1 he
    exact hreads.below d hd) hfin
  obtain rfl := htrue.timestamp (hafter.keeps (ProofReader.mem_of_timestamp hts))
  rw [← hcount, ownerInitWalk_sound hP hZ hkeys hlt hwalk (Ladders.cacheTrue_new []) htrue, Nat.zero_add]
  rfl

/-- **What the list of versions is not checked for**: any other descending list of its
length is accepted with the same proofs. -/
theorem verifyOwnerInit_relist {resp : OwnerInitResponse} {data : List LeafData}
    (h : c.verifyOwnerInit P env label start resp = .ok (data, c')) {versions : List ℕ}
    (hdescending : versions.IsChain (· ≥ ·))
    (hlength : versions.length = resp.greatestVersions.length) :
    c.verifyOwnerInit P env label start { resp with greatestVersions := versions } =
      .ok (data, c') := by
  simp only [verifyOwnerInit, Result.bind_eq_ok, okOr_eq_ok, ensure_eq_ok] at h ⊢
  obtain ⟨fth, hfth, proof, hproof, head, hhead, u, hpos, v, hbounds, w, -, reader, hreader, last, hlast,
    walked, hwalk, x, hcount, rest⟩ := h
  exact ⟨fth, hfth, proof, hproof, head, hhead, u, hpos, v, hbounds, w, hdescending, reader, hreader,
    last, hlast, walked, hwalk, x, hlength ▸ hcount, rest⟩

/-- Two lists of versions that are accepted with the same proofs have the same length. -/
theorem verifyOwnerInit_length_eq {resp : OwnerInitResponse} {r r' : List LeafData × KtClient}
    {versions : List ℕ} (h : c.verifyOwnerInit P env label start resp = .ok r)
    (h' : c.verifyOwnerInit P env label start { resp with greatestVersions := versions } = .ok r') :
    versions.length = resp.greatestVersions.length := by
  simp only [verifyOwnerInit, Result.bind_eq_ok, okOr_eq_ok, ensure_eq_ok] at h h'
  obtain ⟨fth, hfth, proof, hproof, head, hhead, -, -, -, -, -, -, reader, hreader, last, hlast, walked,
    hwalk, -, hcount, -⟩ := h
  obtain ⟨fth', hfth', proof', hproof', head', hhead', -, -, -, -, -, -, reader', hreader', last', hlast',
    walked', hwalk', -, hcount', -⟩ := h'
  obtain rfl := Option.some.inj (hfth.symm.trans hfth')
  obtain rfl := Option.some.inj (hproof.symm.trans hproof')
  obtain rfl := Except.ok.inj (hhead.symm.trans hhead')
  obtain rfl := Except.ok.inj (hreader.symm.trans hreader')
  obtain rfl := Except.ok.inj (hlast.symm.trans hlast')
  obtain rfl := Except.ok.inj (hwalk.symm.trans hwalk')
  exact hcount'.symm.trans hcount

end

end KtClient

/-! ### An honest first walk -/

/-- The visits of an owner's first walk over the given entries. -/
def LabelLog.initVisits (L : LabelLog) (maximumLifetime : Option ℕ) : List ℕ → List Visit
  | [] => []
  | node :: nodes =>
    if KtClient.isExpired maximumLifetime (L.timestamp (L.size - 1)) (L.timestamp node) then
      [.stamp node]
    else .stamp node :: .ladder node (L.ladderAt node) :: initVisits L maximumLifetime nodes

namespace KtClient

section

variable {P : Primitives} {L : LabelLog} {visits before : List Visit} {m : ℕ}
  {proof : CombinedTreeProof} {order : List ℕ} {c : KtClient} {label : Octets}
  {binaryLadder : List BinaryLadderStep}

/-- **The client follows an owner's first walk.** -/
theorem ownerInitWalk_honest (ht : Transcript P L visits m proof)
    (hwire : L.Wire none (laddersOf visits) order binaryLadder) (hverify : c.CanVerify P label L) :
    ∀ {nodes : List ℕ} (prevVer : Option ℕ) (count : ℕ) {done : List Visit} {s : SearchState},
      nodes.Pairwise (· > ·) → (∀ e ∈ nodes, e < L.size) →
      (∀ p ∈ prevVer, ∀ e ∈ nodes, ∀ t ∈ L.greatest e, t ≤ p) → s.At P L proof order before done →
      before ++ (done ++ L.initVisits c.config.maximumLifetime nodes) <+: visits →
      versionsOf (done ++ L.initVisits c.config.maximumLifetime nodes) <+: order →
      L.Checkable maxVersion (L.initVisits c.config.maximumLifetime nodes) →
      ∃ s', c.ownerInitWalk P label binaryLadder (L.timestamp (L.size - 1)) nodes prevVer count s =
          .ok (count + ((nodes.takeWhile fun e => !isExpired c.config.maximumLifetime
            (L.timestamp (L.size - 1)) (L.timestamp e)).filterMap L.greatest).length, s') ∧
        s'.At P L proof order before (done ++ L.initVisits c.config.maximumLifetime nodes)
  | [], prevVer, count, done, s, _, _, _, hs, _, _, _ =>
    ⟨s, rfl, by rwa [LabelLog.initVisits, List.append_nil]⟩
  | node :: nodes, prevVer, count, done, s, hpair, hlt, hprev, hs, hvisits, horder, hcheck => by
    obtain ⟨hleft, hpair⟩ := List.pairwise_cons.1 hpair
    have hnode := hlt node List.mem_cons_self
    rw [LabelLog.initVisits] at hvisits horder hcheck ⊢
    rw [ownerInitWalk]
    by_cases hexpired : isExpired c.config.maximumLifetime (L.timestamp (L.size - 1))
        (L.timestamp node) = true
    · rw [if_pos hexpired] at hvisits ⊢
      obtain ⟨reader, hts, h₁⟩ := hs.stamp ht hvisits
      refine ⟨_, ?_, h₁⟩
      rw [hts, Result.ok_bind]
      dsimp only
      rw [if_pos hexpired, List.takeWhile_cons_of_neg (by simp [hexpired])]
      rfl
    · rw [if_neg hexpired] at hvisits horder hcheck ⊢
      have hsplit : done ++ Visit.stamp node :: Visit.ladder node (L.ladderAt node) ::
          L.initVisits c.config.maximumLifetime nodes = done ++ [Visit.stamp node] ++
            [Visit.ladder node (L.ladderAt node)] ++ L.initVisits c.config.maximumLifetime nodes := by
        simp
      rw [hsplit] at hvisits horder ⊢
      have hvisits₂ := (beginning_append_left before _ _).trans hvisits
      have hvisits₁ := (beginning_append_left before _ _).trans hvisits₂
      have horder₂ := (versionsOf_beginning (List.prefix_append _ _)).trans horder
      obtain ⟨reader, hts, h₁⟩ := hs.stamp ht hvisits₁
      have hstamped : node ∈ entriesOf (before ++ (done ++ [Visit.stamp node])) :=
        mem_entriesOf.2 ⟨.stamp node, by simp, rfl⟩
      have hmem : (node, L.ladderAt node) ∈ laddersOf (Visit.stamp node ::
          Visit.ladder node (L.ladderAt node) :: L.initVisits c.config.maximumLifetime nodes) :=
        List.mem_filterMap.2 ⟨.ladder _ _, by simp, rfl⟩
      obtain ⟨pp, reader', ladders, entryRoots, hpp, hladder, hrecord, h₂⟩ := h₁.ownerLadder ht hwire
        hverify hvisits₂ hstamped (fun g hg => (hcheck _ hmem g hg).1) horder₂
      -- what lies further left holds no later version
      have hnext : ∀ p ∈ (L.greatest node).or prevVer, ∀ e ∈ nodes, ∀ t ∈ L.greatest e, t ≤ p := by
        intro p hp e he t ht
        cases hg : L.greatest node with
        | none =>
          rw [hg, Option.none_or] at hp
          exact hprev p hp e (List.mem_cons_of_mem _ he) t ht
        | some g =>
          rw [hg, Option.some_or] at hp
          obtain ⟨g', hg', hle⟩ := L.growing (hleft e he).le hnode ht
          rw [hg] at hg'
          exact hle.trans (Option.some.inj (hg'.symm.trans hp)).le
      obtain ⟨s', hrun, h'⟩ := ownerInitWalk_honest ht hwire hverify ((L.greatest node).or prevVer)
        (count + if (L.greatest node).isSome then 1 else 0) hpair
        (fun e he => hlt e (List.mem_cons_of_mem _ he)) hnext h₂ hvisits horder
        (hcheck.of_subset fun v hv => List.mem_cons_of_mem _ (List.mem_cons_of_mem _ hv))
      refine ⟨s', ?_, h'⟩
      have hprev' : ∀ p ∈ prevVer, ∀ t ∈ L.greatest node, t ≤ p := fun p hp =>
        hprev p hp node List.mem_cons_self
      rw [hts, Result.ok_bind]
      dsimp only
      rw [if_neg hexpired, hpp, Result.ok_bind]
      dsimp only
      rw [hladder, Result.context_ok, Result.ok_bind]
      dsimp only
      rw [ensure_of hprev', Result.ok_bind, hrecord, Result.ok_bind, hrun,
        List.takeWhile_cons_of_pos (by simpa using hexpired)]
      cases hg : L.greatest node with
      | none => simp [hg]
      | some g =>
        simp only [List.filterMap_cons, hg, List.length_cons, Option.isSome_some, if_true]
        rw [Nat.add_right_comm, Nat.add_assoc]

/-- **An owner accepts** the proof of its first walk, with any descending list that has
as many members as entries of the walk hold a version. -/
theorem verifyOwnerInit_honest {env : Env} {start : ℕ} {resp : OwnerInitResponse}
    {fth : FullTreeHead} {timestamp : Option U64} {updated : Bool} (hn : L.size ≤ 2 ^ 62)
    (hstart : start < L.size) (hfth : resp.fullTreeHead = some fth) (hproof : resp.init = some proof)
    (hsize : c.treeSizeForFth env fth = .ok (L.size, timestamp, updated))
    (hbounds : c.checkUpdatedBounds env updated timestamp = .ok ())
    (hhead : c.HeadOf P L m fth updated) (hverify : c.CanVerify P label L)
    (ht : Transcript P L (frontierVisits L.size ++
      L.initVisits c.config.maximumLifetime (ownerInitList start L.size)) m proof)
    (hwire : L.Wire none (laddersOf (frontierVisits L.size ++
      L.initVisits c.config.maximumLifetime (ownerInitList start L.size))) order resp.binaryLadder)
    (hcheck : L.Checkable maxVersion
      (L.initVisits c.config.maximumLifetime (ownerInitList start L.size)))
    (horder : versionsOf (L.initVisits c.config.maximumLifetime (ownerInitList start L.size)) <+: order)
    (hcount : resp.binaryLadder.length =
      (versionsOf (L.initVisits c.config.maximumLifetime (ownerInitList start L.size))).length)
    (hdescending : resp.greatestVersions.IsChain (· ≥ ·))
    (hversions : resp.greatestVersions.length =
      (((ownerInitList start L.size).takeWhile fun e => !isExpired c.config.maximumLifetime
        (L.timestamp (L.size - 1)) (L.timestamp e)).filterMap L.greatest).length) :
    ∃ head th retained, c.verifyOwnerInit P env label start resp =
        .ok (L.data P (frontierVisits L.size ++
            L.initVisits c.config.maximumLifetime (ownerInitList start L.size)),
          { c with retainedHead := th, state := some head, retainedSubtrees := retained }) ∧
      head.treeSize = L.size ∧ head.rootHash = logRoot P (L.leaves P) := by
  have h₀ : 0 < L.size := by omega
  have hfrontier := List.prefix_append (frontierVisits L.size)
    (L.initVisits c.config.maximumLifetime (ownerInitList start L.size))
  have hlast := last_mem_entriesOf h₀ hn hfrontier
  have hlastFrontier := last_mem_entriesOf h₀ hn (List.prefix_refl (frontierVisits L.size))
  obtain ⟨reader, hreader, hat⟩ := ProofReader.frontier_honest ht hfrontier
  obtain ⟨reader', hrightmost, hat'⟩ := hat.timestamp ht (e := L.size - 1)
    (by rw [appendNew_of_mem hlastFrontier]; exact entriesOf_beginning hfrontier)
  rw [appendNew_of_mem hlastFrontier] at hat'
  have hs : (SearchState.mk reader' (.new []) fun _ => none).At P L proof order
      (frontierVisits L.size) [] := by
    refine ⟨?_, fun e => ?_, rfl, List.nil_prefix, fun v out hout => by cases hout⟩
    · rw [List.append_nil, frontierVisits, laddersOf_stamps]
      exact hat'
    · rw [List.append_nil, frontierVisits, laddersOf_stamps]
      rfl
  obtain ⟨s, hrun, hsat⟩ := ownerInitWalk_honest ht hwire hverify none 0 (pairwise_ownerInitList start L.size)
    (fun e he => ownerInitList_lt (by omega) hstart he) (fun p hp => by cases hp) hs List.prefix_rfl horder hcheck
  obtain ⟨captured, head, th, retained, hcommit, hheadSize, hheadRoot, -⟩ :=
    finishAndCommit_honest hhead hn h₀ ht hlast hsat.reader hsat.roots []
  refine ⟨head, th, retained, ?_, hheadSize, hheadRoot⟩
  rw [List.nil_append] at hsat
  have hcount' : resp.binaryLadder.length = s.ladders.wireIndex.length := by
    rw [hsat.slots]
    exact hcount
  rw [Nat.zero_add] at hrun
  rw [verifyOwnerInit, hfth, okOr_some, Result.ok_bind, hproof, okOr_some, Result.ok_bind, hsize,
    Result.ok_bind]
  dsimp only
  rw [ensure_of ⟨show L.size ≠ 0 by omega, hstart⟩, Result.ok_bind, hbounds, Result.ok_bind,
    ensure_of hdescending, Result.ok_bind, hreader, Result.ok_bind, hrightmost, Result.ok_bind]
  dsimp only
  rw [hrun, Result.ok_bind]
  dsimp only
  rw [ensure_of hversions.symm, Result.ok_bind, ensure_of hcount', Result.ok_bind, hcommit, Result.ok_bind]
  rfl

end

end KtClient

/-! ### The list of versions -/

/-- A log of one entry, which brings the first version of the empty label. -/
def initiatedLog : LabelLog :=
  sampleLog 1 (fun _ => 0) (fun _ => some 0) (fun _ _ => le_rfl)
    (fun _ _ hg => ⟨0, rfl, (Option.some.inj hg).ge⟩)
    (fun _ hg => (Option.some.inj hg).symm.le.trans (Nat.zero_le _))

/-- The owner accepts any one version for the entry of the log. -/
theorem exists_initiated_response (v : ℕ) : ∃ env resp data c' head,
    Accepted Primitives.ideal env (sampleClient 1) (.ownerInit [] 0 resp) data c' ∧
      resp.greatestVersions = [v] ∧ c'.state = some head ∧
      LogOf Primitives.ideal head.treeSize head.rootHash
        (initiatedLog.contiguous.leaves Primitives.ideal) := by
  obtain ⟨fth, hfth, hhead⟩ := sampleClient_headOf 1 initiatedLog 0
  obtain ⟨hsize, hbounds⟩ := hfth ⟨none, fun _ => .ok ()⟩ rfl
  have hladder : initiatedLog.ladderAt 0 = [0, 1] :=
    (LabelLog.ladderAt_of_some rfl).trans (by decide)
  have hwalk : initiatedLog.initVisits none (ownerInitList 0 1) = [.stamp 0, .ladder 0 [0, 1]] := by
    have hlist : ownerInitList 0 1 = [0] := by decide
    have hvisits : initiatedLog.initVisits none [0] =
        [.stamp 0, .ladder 0 (initiatedLog.ladderAt 0)] := rfl
    rw [hlist, hvisits, hladder]
  have hvisits : frontierVisits initiatedLog.size ++ initiatedLog.initVisits none (ownerInitList 0 1) =
      [.stamp 0, .stamp 0, .ladder 0 [0, 1]] := by
    rw [hwalk]
    rfl
  have hversions : versionsOf (initiatedLog.initVisits none (ownerInitList 0 1)) = [0, 1] := by
    rw [hwalk]
    decide
  obtain ⟨proof, ht⟩ : ∃ proof, Transcript Primitives.ideal initiatedLog
      (frontierVisits initiatedLog.size ++ initiatedLog.initVisits none (ownerInitList 0 1)) 0 proof :=
    LabelLog.exists_transcript (fun v _ => isKey_sampleKey v) (by rw [hvisits]; decide)
      (by rw [hvisits]; decide) 0
  let resp : OwnerInitResponse := ⟨some fth, [v], [0, 1].map (initiatedLog.stepAfter
    (laddersOf (frontierVisits initiatedLog.size ++
      initiatedLog.initVisits none (ownerInitList 0 1)))), some proof⟩
  have hwire : initiatedLog.Wire none (laddersOf (frontierVisits initiatedLog.size ++
      initiatedLog.initVisits none (ownerInitList 0 1))) [0, 1] resp.binaryLadder :=
    LabelLog.wire_map (by decide)
  have hcheck : initiatedLog.Checkable maxVersion
      (initiatedLog.initVisits none (ownerInitList 0 1)) := fun l hl g hg => by
    rw [hwalk] at hl
    obtain rfl := List.mem_singleton.1 hl
    obtain rfl := Option.some.inj hg
    decide
  have hlength : (initiatedLog.contiguous.initVersions none 0).length = 1 := by decide
  obtain ⟨head, th, retained, hverified, hheadSize, hheadRoot⟩ :=
    KtClient.verifyOwnerInit_honest (c := sampleClient 1)
      (by decide) (by decide) rfl rfl hsize hbounds hhead (sampleClient_canVerify rfl fun _ => rfl) ht
      hwire hcheck (hversions ▸ List.prefix_rfl) ((congrArg List.length hversions).symm ▸ rfl)
      (.singleton _) hlength.symm
  exact ⟨_, resp, _, _, head, .ownerInit hverified, rfl, rfl,
    LabelLog.logOf (by decide) hheadSize hheadRoot⟩

/-- **A version that no entry holds is reported**: the label has version 0 only, and the
owner accepts that its greatest version is 7. -/
theorem misreported_version : ∃ env resp data c' head,
    Accepted Primitives.ideal env (sampleClient 1) (.ownerInit [] 0 resp) data c' ∧
      c'.state = some head ∧
      LogOf Primitives.ideal head.treeSize head.rootHash
        (initiatedLog.contiguous.leaves Primitives.ideal) ∧
      initiatedLog.contiguous.initVersions none 0 = [0] ∧ resp.greatestVersions = [7] := by
  obtain ⟨env, resp, data, c', head, haccepted, hversions, hstate, hlog⟩ := exists_initiated_response 7
  exact ⟨env, resp, data, c', head, haccepted, hstate, hlog, by decide, hversions⟩

/-- **When an owner is told what the log holds**: of the responses that differ in the
list of versions only, exactly where no entry of the walk holds a version. -/
theorem owner_init_sound_iff {P : Primitives} (hP : Function.Injective P.sha256)
    (hZ : ∀ m, P.sha256 m ≠ zeroValue) {env : Env} {c c' : KtClient} {label : Octets} {start : ℕ}
    {resp : OwnerInitResponse} {data : List LeafData} {head : TrustedState} {L : ContiguousLog}
    (hkeys : c.KeysAre P label L.key) (h : Accepted P env c (.ownerInit label start resp) data c')
    (hstate : c'.state = some head) (hlog : LogOf P head.treeSize head.rootHash (L.leaves P)) :
    (∀ versions data' c'',
      Accepted P env c (.ownerInit label start { resp with greatestVersions := versions }) data' c'' →
        versions = L.initVersions c.config.maximumLifetime start) ↔
      ∀ e ∈ L.initEntries c.config.maximumLifetime start, L.greatest e = none := by
  cases h with
  | ownerInit h =>
    have hlength := KtClient.verifyOwnerInit_length hP hZ hkeys h hstate hlog
    constructor
    · intro htrue
      -- two lists of one number each, of the length that is accepted
      have hlists : ∀ v, List.replicate resp.greatestVersions.length v =
          L.initVersions c.config.maximumLifetime start := fun v =>
        htrue _ _ _ (.ownerInit (KtClient.verifyOwnerInit_relist h
          (List.isChain_replicate_of_rel _ (le_refl v)) (List.length_replicate ..)))
      have hnone : resp.greatestVersions.length = 0 := by
        by_contra hpos
        have heq := List.replicate_right_injective hpos ((hlists 0).trans (hlists 1).symm)
        cases heq
      rw [hlength, List.length_eq_zero_iff] at hnone
      exact fun e he => List.filterMap_eq_nil_iff.1 hnone e he
    · intro habsent versions data' c'' h'
      have hnone : L.initVersions c.config.maximumLifetime start = [] :=
        List.filterMap_eq_nil_iff.2 habsent
      rw [hnone]
      cases h' with
      | ownerInit h' =>
        rw [← List.length_eq_zero_iff, KtClient.verifyOwnerInit_length_eq h h', hlength, hnone]
        rfl

/-- The list of the log of one entry is not checked. -/
theorem owner_init_unsound : ∃ env resp data c' head,
    Accepted Primitives.ideal env (sampleClient 1) (.ownerInit [] 0 resp) data c' ∧
      c'.state = some head ∧
      ¬ ∀ versions data' c'', Accepted Primitives.ideal env (sampleClient 1)
        (.ownerInit [] 0 { resp with greatestVersions := versions }) data' c'' →
          versions = initiatedLog.contiguous.initVersions none 0 := by
  obtain ⟨env, resp, data, c', head, haccepted, -, hstate, hlog⟩ := exists_initiated_response 0
  refine ⟨env, resp, data, c', head, haccepted, hstate, fun htrue => ?_⟩
  have hnone := (owner_init_sound_iff (c := sampleClient 1) Primitives.ideal_sha256_injective
    Primitives.ideal_sha256_ne_zeros (sampleClient_keysAre 1) haccepted hstate hlog).1 htrue 0 (by decide)
  cases hnone

end KeyTransparency
