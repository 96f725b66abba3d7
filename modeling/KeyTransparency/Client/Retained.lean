/-
# What a client retains is exact

After every accepted response a client retains the peaks of the log behind its root
and nothing else, and after a walk over the distinguished heads the peaks of the log
at each of them (`retained_exact`).  A peak is captured when the reconstruction comes
by it, and it does, since the last leaf of the log that ends with it is visited.
-/

import KeyTransparency.Client.TrustedHead
import Mathlib.Logic.Relation

namespace KeyTransparency

open InOrder LogMath MerkleLog LogVerifier

section

variable {P : Primitives} {env : Env} {c c' : KtClient} {leaves : List Octets}

/-- A client retains the peaks of a log, whose root they have, and nothing else. -/
structure KtClient.RetainsExactly (P : Primitives) (c : KtClient) (head : TrustedState)
    (leaves : List Octets) : Prop where
  kept : ∀ id, (c.retainedSubtrees id).isSome = true ↔ id ∈ getRoots head.treeSize
  value : RetainsPeaks P c.retainedSubtrees leaves head.treeSize
  root : ∃ peaks, (getRoots head.treeSize).mapM c.retainedSubtrees = some peaks ∧
    LogAccumulator.accumulatorFromPeaks P head.treeSize peaks = .ok head.rootHash

/-- The entries that a response makes a client walk as distinguished ones. -/
def KtClient.Walks (c : KtClient) (env : Env) (stop : Option ℕ) (resp : DistinguishedResponse)
    (walked : List ℕ) : Prop :=
  ∃ fth proof n ts updated reader reader', resp.fullTreeHead = some fth ∧
    resp.distinguished = some proof ∧ c.treeSizeForFth env fth = .ok (n, some ts, updated) ∧
    (ProofReader.new proof).timestamps (getFrontier n) = .ok reader ∧
    KtClient.distinguishedLoop n c.config.reasonableMonitoringWindow stop (2 * n + 2)
      [(root n, 0, ts)] [] reader = .ok (walked, reader')

/-- The distinguished entries of a client are the walked ones, and their peaks have
the roots of the log at their sizes. -/
structure KtClient.DistinguishedExactly (P : Primitives) (c : KtClient) (walked : List ℕ)
    (leaves : List Octets) : Prop where
  kept : ∀ p, (c.distinguishedEntries.get p).isSome = true ↔ p ∈ walked
  leaf : ∀ p d, c.distinguishedEntries.get p = some d →
    leafAt leaves p = logLeafValue P d.timestamp d.root
  roots : c.distinguishedRoots P = .ok (c.distinguishedEntries.entries.map fun e =>
    (e.1, logRoot P (leaves.take (e.1 + 1))))

/-- **An anchor of a log**: what is kept of an entry is its leaf, and the peaks of the
log that ends with it. -/
structure DistinguishedEntry.Anchors (P : Primitives) (leaves : List Octets) (position : ℕ)
    (anchor : DistinguishedEntry) : Prop where
  lt : position < leaves.length
  leaf : leafAt leaves position = logLeafValue P anchor.timestamp anchor.root
  peaks : anchor.peaks = (MerkleLog.peaks (position + 1)).map fun c =>
    value (logPar P) (leafAt leaves) (position + 1) c.1 c.2

/-! ### The commit -/

/-- The commit of a head: the root it derived, and the values it captured. -/
theorem KtClient.verifyHeadAndCommit_derived {fth : FullTreeHead} {n : ℕ} {timestamp : Option U64}
    {updated : Bool} {positions : List ℕ} {hashes elements : List Octets} {extraWanted : List ℕ}
    {captured : NodeMap} (hhead : c.treeSizeForFth env fth = .ok (n, timestamp, updated))
    (h : c.verifyHeadAndCommit P fth n timestamp updated positions hashes elements extraWanted =
      .ok (captured, c')) :
    ∃ head, c'.state = some head ∧ head.treeSize = n ∧
      calculateRootCapturing P positions hashes n elements c.retainedSubtrees
        (c.wantedNodes fth n extraWanted) = .ok (head.rootHash, captured) ∧
      ((c'.retainedSubtrees = fun id => if id ∈ getRoots n then captured id else none) ∨ c' = c) := by
  cases updated with
  | true =>
    obtain ⟨th, root, -, hroot, -, hstate, hretained, -⟩ := verifyHeadAndCommit_updated_eq_ok h
    exact ⟨_, hstate, rfl, hroot, .inl hretained⟩
  | false =>
    simp only [verifyHeadAndCommit, Result.bind_eq_ok, Result.context_eq_ok, okOr_eq_ok,
      ensure_eq_ok, Bool.false_eq_true, if_false] at h
    obtain ⟨⟨root, captured'⟩, hroot, prev, hprev, -, rfl, h⟩ := h
    obtain ⟨rfl, rfl⟩ := Prod.mk.inj (Except.ok.inj h)
    refine ⟨prev, hprev, ?_, hroot, .inr rfl⟩
    rw [treeSizeForFth] at hhead
    split at hhead
    · simp only [Result.bind_eq_ok, okOr_eq_ok] at hhead
      obtain ⟨prev', hprev', -, -, hhead⟩ := hhead
      rw [Option.some.inj (hprev.symm.trans hprev'),
        (Prod.mk.inj (Except.ok.inj hhead)).1]
    · simp only [Result.bind_eq_ok, okOr_eq_ok] at hhead
      obtain ⟨th, -, hhead⟩ := hhead
      rw [hprev] at hhead
      simp only [Result.bind_eq_ok] at hhead
      obtain ⟨-, -, hhead⟩ := hhead
      exact absurd (Prod.mk.inj (Prod.mk.inj (Except.ok.inj hhead)).2).2 (by simp)
    · cases hhead
    · cases hhead

/-- No head that is taken over is empty. -/
theorem Accepted.state_pos {r : Response} {data : List LeafData}
    (h : Accepted P env c r data c') (hc : ∀ head ∈ c.state, 0 < head.treeSize) :
    ∀ head ∈ c'.state, 0 < head.treeSize := by
  rcases h.takenOver with ⟨fth, n, timestamp, updated, -, htaken⟩ | ⟨-, -, rfl⟩
  · obtain ⟨elements, extraWanted, captured, committed, hcommit, same⟩ := htaken.commit
    obtain ⟨head, hstate, hn, -, -⟩ := KtClient.verifyHeadAndCommit_derived htaken.head hcommit
    rintro head' hhead'
    rw [← same.state, hstate] at hhead'
    obtain rfl := Option.some.inj hhead'
    exact hn ▸ Nat.pos_of_ne_zero htaken.nonempty
  · exact hc

/-- The peaks of a log, retained, have its root. -/
theorem RetainsPeaks.retainsExactly {head : TrustedState}
    (hlog : LogOf P head.treeSize head.rootHash leaves)
    (h : RetainsPeaks P c.retainedSubtrees leaves head.treeSize) :
    c.RetainsExactly P head leaves := by
  obtain ⟨hsize, hn, -, hroot⟩ := hlog
  refine ⟨fun id => ?_, h, (peaks head.treeSize).map fun c =>
    value (logPar P) (leafAt leaves) head.treeSize c.1 c.2, ?_, ?_⟩
  · obtain ⟨k, i, rfl⟩ := exists_eq_node id
    rw [h, LogTree.mem_getRoots hn]
    split_ifs with hc <;> simp [hc]
  · rw [getRoots_eq hn, List.mapM_map]
    exact mapM_eq_some fun c hc => by rw [Function.comp_apply, h, if_pos hc]
  · rw [hroot, ← hsize, accumulatorFromPeaks_take le_rfl (hsize ▸ hn), List.take_length]

/-- **One step**: the peaks of an accepted head are retained. -/
theorem Accepted.retainsPeaks (hP : Function.Injective P.sha256) {r : Response}
    {data : List LeafData} (h : Accepted P env c r data c')
    (hc : ∀ head leaves, c.state = some head → LogOf P head.treeSize head.rootHash leaves →
      RetainsPeaks P c.retainedSubtrees leaves head.treeSize)
    {head : TrustedState} (hstate : c'.state = some head)
    (hlog : LogOf P head.treeSize head.rootHash leaves) :
    RetainsPeaks P c'.retainedSubtrees leaves head.treeSize := by
  rcases h.takenOver with ⟨fth, n, timestamp, updated, hfth, htaken⟩ | ⟨-, -, rfl⟩
  · obtain ⟨elements, extraWanted, captured, committed, hcommit, same⟩ := htaken.commit
    obtain ⟨head', hstate', rfl, hroot, hretained⟩ :=
      KtClient.verifyHeadAndCommit_derived htaken.head hcommit
    rw [← same.state, hstate'] at hstate
    obtain rfl := Option.some.inj hstate
    rw [← same.retainedSubtrees]
    rcases hretained with hretained | rfl
    · have h₀ : 0 < head'.treeSize := Nat.pos_of_ne_zero htaken.nonempty
      have hdata := h.reads hfth htaken.head hlog.small
      rw [hretained, LogVerifier.captured_eq hP hlog h₀ hdata hroot]
      obtain ⟨hsize, hn, -, -⟩ := hlog
      have hlast := hdata.last h₀ hn
      rw [← hsize] at hlast h₀ hn ⊢
      refine retainsPeaks_captured hlast (List.length_pos_iff.1 h₀) hn fun id hid => ?_
      rw [KtClient.wantedNodes, List.append_assoc]
      exact List.mem_append_left _ hid
    · exact hc head' leaves hstate' hlog
  · exact hc head leaves hstate hlog

/-! ### The walk over the distinguished heads -/

/-- A verified walk: what it read and captured, and what it leaves behind. -/
theorem KtClient.verifyDistinguished_derived {stop : Option ℕ} {resp : DistinguishedResponse}
    {data : List LeafData} (h : c.verifyDistinguished P env stop resp = .ok (data, c'))
    {head : TrustedState} (hstate : c'.state = some head) (hn : head.treeSize ≤ 2 ^ 62) :
    ∃ walked fth elements captured, c.Walks env stop resp walked ∧ 0 < head.treeSize ∧
      ReadsLog head.treeSize data ∧ (data.Pairwise fun a b => a.1 < b.1) ∧
      (∀ p ∈ walked, p ∈ data.map Prod.fst) ∧
      calculateRootCapturing P (data.map Prod.fst) (leafHashes P data) head.treeSize elements
        c.retainedSubtrees (c.wantedNodes fth head.treeSize
          (walked.flatMap fun p => getRoots (p + 1))) = .ok (head.rootHash, captured) ∧
      c'.distinguishedEntries = .collect (walked.filterMap fun p =>
        (KtClient.distinguishedEntry data captured p).map (p, ·)) := by
  have haccepted := Accepted.distinguished h
  simp only [verifyDistinguished, Result.bind_eq_ok, okOr_eq_ok, ensure_eq_ok] at h
  obtain ⟨fth, hfth, proof, hproof, ⟨n, timestamp, updated⟩, hhead, -, hpos, ⟨⟩, -, ts, hts, reader,
    hreader, ⟨walked, reader'⟩, hwalk, ⟨data', captured, committed⟩, hfinish, h⟩ := h
  obtain ⟨rfl, rfl⟩ := Prod.mk.inj (Except.ok.inj h)
  dsimp only at hpos hts hreader hwalk hstate hfinish
  obtain rfl := hts
  obtain ⟨hfin, inclusion, -, hcommit⟩ := KtClient.finishAndCommit_eq_ok.1 hfinish
  obtain ⟨head', hstate', rfl, hroot, -⟩ := KtClient.verifyHeadAndCommit_derived hhead hcommit
  obtain rfl := Option.some.inj (hstate'.symm.trans hstate)
  have h₀ : 0 < head'.treeSize := by omega
  refine ⟨walked, fth, inclusion.elements, captured,
    ⟨fth, proof, _, ts, updated, reader, reader', hfth, hproof, hhead, hreader, hwalk⟩, h₀,
    haccepted.reads hfth hhead hn, (ProofReader.finish_monotone hfin).imp And.left,
    fun p hp => ?_, hroot, rfl⟩
  obtain ⟨hlt, tsp, hmem⟩ := ((KtClient.distinguishedLoop_extends (by omega)
    (by simpa using root_lt h₀ (by omega)) hwalk).2 p hp).resolve_left List.not_mem_nil
  rw [← ProofReader.finish_entries hfin] at hmem
  obtain ⟨d, hd, heq⟩ := List.mem_map.1 hmem
  exact List.mem_map.2 ⟨d, hd, (Prod.mk.inj heq).1⟩

/-- The peaks of the log that ends with a visited entry are all captured. -/
theorem mapM_captured_visited (hn : leaves.length ≤ 2 ^ 62) {visited wanted : List ℕ} {p : ℕ}
    (hp : p ∈ visited) (hlt : p < leaves.length) (hwanted : ∀ id ∈ getRoots (p + 1), id ∈ wanted) :
    (getRoots (p + 1)).mapM (capturedValues P leaves visited wanted) =
      some ((peaks (p + 1)).map fun c => value (logPar P) (leafAt leaves) (p + 1) c.1 c.2) := by
  have hmem : ∀ c ∈ peaks (p + 1),
      c ∈ walk leaves.length (above visited) (height leaves.length) 0 := fun c hc => by
    rcases Nat.lt_or_eq_of_le (show p + 1 ≤ leaves.length from hlt) with h | h
    · exact BoundaryVisited.mem_walk ⟨p, hp, rfl⟩ (Nat.succ_pos p) h hc
    · rw [h] at hc
      exact mem_walk_of_last (by rwa [← h]) (by omega) hc
  rw [getRoots_eq (by omega), List.mapM_map]
  refine mapM_eq_some fun c hc => ?_
  have hid : node c.1 c.2 ∈ wanted := hwanted _ ((LogTree.mem_getRoots (by omega)).2 hc)
  rw [Function.comp_apply, capturedValues, capture_map, if_pos ⟨hid, hmem c hc⟩]
  exact congrArg some (value_of_complete ((mem_peaksFrom hc).1.trans hlt) (mem_peaksFrom hc).1)

/-- **Every walked entry is kept**, and what is kept of it is that of the log. -/
theorem KtClient.verifyDistinguished_entries (hP : Function.Injective P.sha256) {stop : Option ℕ}
    {resp : DistinguishedResponse} {data : List LeafData}
    (h : c.verifyDistinguished P env stop resp = .ok (data, c')) {head : TrustedState}
    (hstate : c'.state = some head) (hlog : LogOf P head.treeSize head.rootHash leaves) :
    ∃ walked, c.Walks env stop resp walked ∧
      (∀ p, (c'.distinguishedEntries.get p).isSome = true ↔ p ∈ walked) ∧
      ∀ p d, c'.distinguishedEntries.get p = some d → d.Anchors P leaves p := by
  obtain ⟨walked, fth, elements, captured, hwalks, h₀, hdata, hpair, hwalked, hroot, hentries⟩ :=
    verifyDistinguished_derived h hstate hlog.small
  have hcaptured := LogVerifier.captured_eq hP hlog h₀ hdata hroot
  have hleaf := @LogVerifier.leafAt_eq _ _ _ hP _ hlog h₀ _ hdata hpair _ _ _ _ hroot
  obtain ⟨hsize, hn, -, -⟩ := hlog
  -- the entry that is kept for a walked position
  have hentry : ∀ p ∈ walked, ∃ ts root, (p, ts, root) ∈ data ∧
      distinguishedEntry data captured p = some ⟨ts, root, (peaks (p + 1)).map fun c =>
        value (logPar P) (leafAt leaves) (p + 1) c.1 c.2⟩ := by
    intro p hp
    obtain ⟨⟨p', ts, root⟩, hd, rfl⟩ := List.mem_map.1 (hwalked p hp)
    refine ⟨ts, root, hd, ?_⟩
    have hlookup : data.lookup p' = some (ts, root) :=
      OrderedMap.get_eq_some (m := ⟨data, hpair⟩).2 hd
    have hwanted : ∀ id ∈ getRoots (p' + 1), id ∈ c.wantedNodes fth head.treeSize
        (walked.flatMap fun p => getRoots (p + 1)) := fun id hid => by
      rw [wantedNodes]
      exact List.mem_append_left _ (List.mem_append_right _ (List.mem_flatMap.2 ⟨p', hp, hid⟩))
    have hpeaks := mapM_captured_visited (P := P) (hsize ▸ hn) (hwalked _ hp)
      (hsize ▸ hdata.below _ hd) hwanted
    rw [distinguishedEntry, hlookup, hcaptured, Option.bind_eq_bind, Option.bind_some, hpeaks]
    rfl
  have hmem : ∀ p d, c'.distinguishedEntries.get p = some d ↔
      p ∈ walked ∧ distinguishedEntry data captured p = some d := by
    intro p d
    rw [OrderedMap.get_eq_some, hentries, OrderedMap.mem_collect]
    · simp only [List.mem_filterMap, Option.map_eq_some_iff, Prod.mk.injEq]
      constructor
      · rintro ⟨q, hq, d', hd', rfl, rfl⟩
        exact ⟨hq, hd'⟩
      · rintro ⟨hp, hd⟩
        exact ⟨p, hp, d, hd, rfl, rfl⟩
    · rintro e he e' he' heq
      obtain ⟨q, -, hq⟩ := List.mem_filterMap.1 he
      obtain ⟨q', -, hq'⟩ := List.mem_filterMap.1 he'
      obtain ⟨d, hd, rfl⟩ := Option.map_eq_some_iff.1 hq
      obtain ⟨d', hd', rfl⟩ := Option.map_eq_some_iff.1 hq'
      obtain rfl : q = q' := heq
      rw [Option.some.inj (hd.symm.trans hd')]
  refine ⟨walked, hwalks, fun p => ?_, fun p d hd => ?_⟩
  · rw [Option.isSome_iff_exists]
    constructor
    · rintro ⟨d, hd⟩
      exact ((hmem p d).1 hd).1
    · intro hp
      obtain ⟨ts, root, -, hd⟩ := hentry p hp
      exact ⟨_, (hmem p _).2 ⟨hp, hd⟩⟩
  · obtain ⟨hp, hd⟩ := (hmem p d).1 hd
    obtain ⟨ts, root, hdata', hd'⟩ := hentry p hp
    obtain rfl := Option.some.inj (hd.symm.trans hd')
    exact ⟨hsize ▸ hdata.below _ hdata', hleaf hdata', rfl⟩

/-- **What is kept of the walked entries** has the roots of the log. -/
theorem KtClient.verifyDistinguished_exact (hP : Function.Injective P.sha256) {stop : Option ℕ}
    {resp : DistinguishedResponse} {data : List LeafData}
    (h : c.verifyDistinguished P env stop resp = .ok (data, c')) {head : TrustedState}
    (hstate : c'.state = some head) (hlog : LogOf P head.treeSize head.rootHash leaves) :
    ∃ walked, c.Walks env stop resp walked ∧ c'.DistinguishedExactly P walked leaves := by
  obtain ⟨walked, hwalks, hkept, hanchors⟩ := verifyDistinguished_entries hP h hstate hlog
  refine ⟨walked, hwalks, hkept, fun p d hd => (hanchors p d hd).leaf, ?_⟩
  refine Result.mapM_eq_ok fun e he => ?_
  have hanchor := hanchors e.1 e.2 (OrderedMap.get_eq_some.2 he)
  rw [hanchor.peaks, accumulatorFromPeaks_take hanchor.lt (hlog.size ▸ hlog.small), Result.ok_bind]
  rfl

/-! ### Over a run -/

/-- **What a client retains is exact.**  After any run of accepted responses, a client
whose root is that of a log retains the peaks of this log, which have that root, and
nothing else; and a walk over the distinguished heads that it accepts then leaves every
entry it walked, with peaks whose root is that of the log there. -/
theorem KtClient.retained_exact (hP : Function.Injective P.sha256) {config : PublicConfig}
    {c₀ : KtClient} (hnew : KtClient.withChannel P config = .ok c₀)
    (run : Relation.ReflTransGen (Step P fun _ _ => True) c₀ c) :
    (∀ head leaves, c.state = some head → LogOf P head.treeSize head.rootHash leaves →
      c.RetainsExactly P head leaves) ∧
    ∀ env stop resp data c', c.verifyDistinguished P env stop resp = .ok (data, c') →
      ∀ head leaves, c'.state = some head → LogOf P head.treeSize head.rootHash leaves →
        c'.RetainsExactly P head leaves ∧
          ∃ walked, c.Walks env stop resp walked ∧ c'.DistinguishedExactly P walked leaves := by
  have hretains : ∀ head leaves, c.state = some head →
      LogOf P head.treeSize head.rootHash leaves →
        RetainsPeaks P c.retainedSubtrees leaves head.treeSize := by
    induction run with
    | refl =>
      simp only [withChannel, Result.bind_eq_ok] at hnew
      obtain ⟨-, -, pk, -, h⟩ := hnew
      obtain rfl := Except.ok.inj h
      rintro head leaves ⟨⟩
    | tail _ hstep ih =>
      obtain ⟨env, r, data, -, haccepted⟩ := hstep
      exact fun head leaves hstate hlog => haccepted.retainsPeaks hP ih hstate hlog
  refine ⟨fun head leaves hstate hlog => (hretains head leaves hstate hlog).retainsExactly hlog,
    fun env stop resp data c' h head leaves hstate hlog => ⟨?_, ?_⟩⟩
  · exact ((Accepted.distinguished h).retainsPeaks hP hretains hstate hlog).retainsExactly hlog
  · exact verifyDistinguished_exact hP h hstate hlog

end

/-- A new client takes over the head of a log of one entry, and then that of two. -/
theorem retained_exact_growing : ∃ (c c' : KtClient) (head head' : TrustedState)
    (walked : List ℕ) (leaves leaves' : List Octets), leaves.length = 1 ∧ leaves'.length = 2 ∧
      c.RetainsExactly Primitives.ideal head leaves ∧
      c'.RetainsExactly Primitives.ideal head' leaves' ∧
      c'.DistinguishedExactly Primitives.ideal walked leaves' := by
  obtain ⟨c₀, hc₀, hplain, hstate, hnothing⟩ := exists_watchingClient
  let first := logLeafValue Primitives.ideal (100 : U64) (Octets.zeros 32)
  let second := logLeafValue Primitives.ideal (200 : U64) (Octets.zeros 32)
  obtain ⟨env, resp, c, -, -, haccepted, hplain', hret, hhead⟩ := hplain.accepts 1 0 [first] rfl
    (by simp [first]) (by decide) (by decide) (by decide) (by decide)
    (hnothing.grow le_rfl List.nil_prefix) (by simp [hstate]) rfl 1000
  obtain ⟨env', resp', c', -, -, haccepted', -, -, hhead'⟩ := hplain'.accepts 2 1 [first, second] rfl
    (by simp [first, second]) (by decide) (by decide) (by decide) (by decide)
    (hret.grow (by simp) ⟨[second], rfl⟩)
    (fun prev hprev => by simp [← Option.some.inj (hhead.symm.trans hprev)]) rfl 1001
  obtain ⟨hexact, hnext⟩ := KtClient.retained_exact Primitives.ideal_sha256_injective hc₀
    (.single ⟨env, _, _, trivial, haccepted⟩)
  cases haccepted' with
  | distinguished h =>
    obtain ⟨hexact', walked, -, hwalked⟩ := hnext env' none resp' _ c' h _ [first, second] hhead'
      ⟨rfl, by decide, by simp [first, second], rfl⟩
    exact ⟨c, c', _, _, walked, [first], [first, second], rfl, rfl,
      hexact _ [first] hhead ⟨rfl, by decide, by simp [first], rfl⟩, hexact', hwalked⟩

end KeyTransparency
