/-
# When the two walks over the distinguished entries agree

The server walks between the timestamps of the log, the client up to the timestamp of
the head, which a tick of the server moves on without an entry; and the server goes left
only of the entries that are recent, which the client knows nothing of.  A client accepts
an honest answer and keeps the entries that the server visited exactly when neither
difference shows, and when the auditor's size is among what was visited
(`distinguished_walk_iff`).
-/

import KeyTransparency.Client.AuditorBoundary
import KeyTransparency.Client.DistinguishedWalk
import KeyTransparency.Client.HonestServer
import KeyTransparency.Client.OwnerBelief

namespace KeyTransparency

open InOrder LogMath LogVerifier MerkleLog

section

variable {P : Primitives} {env : Env} {t : Tree} {c : KtClient} {L : LabelLog} {m : ℕ} {H : U64}

/-- **The heads are in order**: the client has verified the first `m` entries of the
log; the server's head, or the one of the same size that the client retains, has the
timestamp `H`, which is in time; and in third-party-auditing mode the auditor's head is
in order as well. -/
structure KtClient.Meets (P : Primitives) (env : Env) (t : Tree) (c : KtClient) (L : LabelLog) (m : ℕ)
    (H : U64) : Prop where
  client : HonestClient P c (L.leaves P) m
  known : m ≤ L.size
  newer : m < L.size → ∃ th, t.latest = some th ∧ asU64 th.timestamp = H ∧
    c.verifyTreeHeadSignature P th L.size (logRoot P (L.leaves P)) = .ok ()
  same : m = L.size → ∃ prev, c.state = some prev ∧ prev.timestamp = H
  clock : c.checkTimestampBounds env H = .ok ()
  audited : c.config.mode = deploymentModeThirdPartyAuditing → ∃ ath, t.freshestAuditor = some ath ∧
    1 ≤ ath.treeSize ∧ ath.treeSize ≤ L.size ∧
      ∀ th, t.latest = some th → HeadsInOrder P c th ath (L.leaves P)
  unaudited : c.config.mode ≠ deploymentModeThirdPartyAuditing → t.auditors = []

theorem LabelLog.isLogLeaf (L : LabelLog) : ∀ l ∈ L.leaves P, IsLogLeaf P l := by
  intro l hl
  obtain ⟨e, -, rfl⟩ := List.mem_map.1 hl
  exact ⟨_, _, length_prefixRoot P _, rfl⟩

namespace KtClient.Meets

/-- The size that the client says it has seen. -/
theorem last_eq (h : c.Meets P env t L m H) : (c.state.map TrustedState.treeSize).getD 0 = m := by
  cases hstate : c.state with
  | none => exact (h.client.none_iff.1 hstate).symm
  | some prev => exact (h.client.state prev hstate).1

/-- The head that the server sends. -/
theorem head_eq (h : c.Meets P env t L m H) (ht : t.treeSize = L.size) (h₀ : 0 < L.size) :
    t.getFullTreeHead (c.state.map TrustedState.treeSize) =
      if m < L.size then ⟨.updated, t.latest, t.freshestAuditor.map fun ath =>
        ⟨ath.treeSize, ath.timestamp, ath.signature⟩⟩ else ⟨.same, none, none⟩ := by
  have := h.known
  rw [Tree.getFullTreeHead, h.last_eq, ht]
  by_cases hm : m < L.size
  · rw [if_neg (by omega), if_pos hm]
  · rw [if_pos (by omega), if_neg hm]

/-- What the client takes from it. -/
theorem treeSizeForFth_eq (h : c.Meets P env t L m H) (ht : t.treeSize = L.size) (h₀ : 0 < L.size) :
    c.treeSizeForFth env (t.getFullTreeHead (c.state.map TrustedState.treeSize)) =
      .ok (L.size, some H, decide (m < L.size)) := by
  have hknown := h.known
  rw [h.head_eq ht h₀]
  by_cases hm : m < L.size
  · obtain ⟨th, hth, rfl, hsig⟩ := h.newer hm
    have hsize : th.treeSize = L.size := by
      simp only [KtClient.verifyTreeHeadSignature, Result.bind_eq_ok, ensure_eq_ok] at hsig
      exact hsig.choose_spec.1
    rw [if_pos hm, KtClient.treeSizeForFth, hth]
    simp only [okOr_some, Result.ok_bind, hm, decide_true]
    cases hstate : c.state with
    | none => simp [hsize]
    | some prev =>
      have hprev := (h.client.state prev hstate).1
      rw [hsize]
      simp [ensure_of (show prev.treeSize < L.size by omega)]
  · obtain ⟨prev, hprev, rfl⟩ := h.same (by omega)
    have hsize := (h.client.state prev hprev).1
    rw [if_neg hm, KtClient.treeSizeForFth]
    simp only [hprev, okOr_some, Result.ok_bind, h.clock, Result.context_ok, hm, decide_false,
      Result.pure_eq]
    rw [show prev.treeSize = L.size by omega]

theorem checkUpdatedBounds_eq (h : c.Meets P env t L m H) (updated : Bool) :
    c.checkUpdatedBounds env updated (some H) = .ok () := by
  cases updated with
  | true =>
    rw [KtClient.checkUpdatedBounds, h.clock]
    rfl
  | false => rfl

/-- **The server's inclusion proof** has the values that the client needs exactly when the
auditor's size is among what is visited. -/
theorem exists_inclusionProof (h : c.Meets P env t L m H) (hP : Function.Injective P.sha256)
    (hlog : Holds t.store (L.leaves P)) (h₀ : 0 < L.size) (hn : L.size ≤ 2 ^ 62) {visited : List ℕ}
    (hlt : ∀ p ∈ visited, p < L.size) (hlast : L.size - 1 ∈ visited) :
    ∃ elements, t.inclusionProof P visited L.size m = .ok elements ∧
      (elements = neededValues P (L.leaves P) visited m ↔
        ∀ ath, t.freshestAuditor = some ath → BoundaryVisited visited ath.treeSize) := by
  have hlen := L.length_leaves P
  have hne : L.leaves P ≠ [] := List.length_pos_iff.1 (by omega)
  by_cases hmode : c.config.mode = deploymentModeThirdPartyAuditing
  · obtain ⟨ath, hath, hpos, hle, -⟩ := h.audited hmode
    have hproof := KeyTransparency.inclusionProof_eq (P := P) (m := m) hlog (hlen ▸ hn) hne hath
      (by rwa [hlen]) (hlen ▸ h.known)
    rw [hlen] at hproof
    refine ⟨_, hproof, fun heq ath' hath' => ?_, fun hboundary => ?_⟩
    · obtain rfl := Option.some.inj (hath.symm.trans hath')
      rw [← hlen] at heq
      exact boundaryVisited_of_neededValues hP L.isLogLeaf hpos (hlen ▸ hle) (hlen ▸ hlast) heq
    · rw [(hboundary ath hath).descends_eq, neededValues, hlen]
  · have hproof := Tree.inclusionProof_neededValues (P := P) (m := m) hlog (h.unaudited hmode) hne
      (hlen ▸ hn) (by rwa [hlen]) (hlen ▸ h.known)
    rw [hlen] at hproof
    refine ⟨_, hproof, fun _ ath hath => ?_, fun _ => rfl⟩
    rw [Tree.freshestAuditor, h.unaudited hmode] at hath
    cases hath

/-- **The client takes over the head** with these values. -/
theorem commit (h : c.Meets P env t L m H)
    (ht : t.treeSize = L.size) (h₀ : 0 < L.size) (hn : L.size ≤ 2 ^ 62) {visited : List ℕ}
    (hlt : ∀ p ∈ visited, p < L.size) (hlast : L.size - 1 ∈ visited)
    (hboundary : ∀ ath, t.freshestAuditor = some ath → BoundaryVisited visited ath.treeSize)
    (extraWanted : List ℕ) : ∃ captured c' head,
      c.verifyHeadAndCommit P (t.getFullTreeHead (c.state.map TrustedState.treeSize)) L.size (some H)
        (decide (m < L.size)) visited (leavesAt (L.leaves P) visited)
        (neededValues P (L.leaves P) visited m) extraWanted = .ok (captured, c') ∧
      c'.state = some head ∧ head.treeSize = L.size ∧ head.rootHash = logRoot P (L.leaves P) := by
  have hlen := L.length_leaves P
  have hne : L.leaves P ≠ [] := List.length_pos_iff.1 (by omega)
  have hknown := h.known
  by_cases hm : m < L.size
  · obtain ⟨th, hth, -, hsig⟩ := h.newer hm
    simp only [hm, decide_true]
    rw [← hlen] at hsig hn hlt hlast ⊢
    have htreeHead : (t.getFullTreeHead (c.state.map TrustedState.treeSize)).treeHead = some th := by
      rw [h.head_eq ht h₀, if_pos hm, hth]
    by_cases hmode : c.config.mode = deploymentModeThirdPartyAuditing
    · obtain ⟨ath, hath, hpos, hath', horder⟩ := h.audited hmode
      rw [← hlen] at hath'
      have hauditor : (t.getFullTreeHead (c.state.map TrustedState.treeSize)).auditorTreeHead =
          some ⟨ath.treeSize, ath.timestamp, ath.signature⟩ := by
        rw [h.head_eq ht h₀, if_pos hm, hath]
        rfl
      have hroot := calculateRootCapturing_neededValues (P := P) hn hne hlt (hlen ▸ hknown)
        h.client.retains (c.wantedNodes (t.getFullTreeHead (c.state.map TrustedState.treeSize))
          (L.leaves P).length extraWanted)
      have hwanted : ath.treeSize < (L.leaves P).length → ∀ id ∈ getRoots ath.treeSize,
          id ∈ c.wantedNodes (t.getFullTreeHead (c.state.map TrustedState.treeSize))
            (L.leaves P).length extraWanted := fun hlt' id hid => by
        rw [KtClient.wantedNodes, hauditor]
        simp only [hmode, true_and]
        rw [if_pos ⟨hpos, hlt'⟩]
        exact List.mem_append_right _ hid
      exact ⟨_, _, _, KtClient.verifyHeadAndCommit_updated hmode hroot htreeHead hsig
        (KtClient.verifyAuditorTreeHead_eq_ok (horder th hth) hath' hauditor
          (auditorRoot_capturedValues (hboundary ath hath) hpos hath' hn hwanted)), rfl, rfl, rfl⟩
    · obtain ⟨captured, retained, -, hcommit⟩ := c.verifyHeadAndCommit_honest
        hmode hn hne hlt hlast (hlen ▸ hknown) h.client.retains htreeHead
        hsig
      exact ⟨captured, _, _, hcommit, rfl, rfl, rfl⟩
  · obtain rfl : m = L.size := by omega
    obtain ⟨prev, hprev, -⟩ := h.same rfl
    obtain ⟨hsize, hroot⟩ := h.client.state prev hprev
    rw [List.take_of_length_le hlen.le] at hroot
    have hret := h.client.retains
    simp only [lt_irrefl, decide_false]
    rw [← hlen] at hn hlt hret ⊢
    obtain ⟨captured, hcommit⟩ := c.verifyHeadAndCommit_honest_same
      hn hne hlt hret hprev hroot
    exact ⟨captured, c, prev, hcommit, hprev, by rw [hsize, hlen], hroot⟩

end KtClient.Meets

end

/-! ### The two walks -/

namespace LabelLog

variable (L : LabelLog) (rmw : ℕ)

/-- The distinguished entries between the start of the log and a timestamp at its end. -/
def distinguishedTo (last : U64) : List ℕ :=
  distinguishedIn (fun e => (L.timestamp e).val) rmw L.size (Nat.log2 L.size) 0 0 last.val

/-- The entries of a walk over them. -/
def walkTo (goesLeft : ℕ → Bool) (last : U64) : List ℕ :=
  walkIn (fun e => (L.timestamp e).val) rmw L.size goesLeft (Nat.log2 L.size) 0 0 last.val

/-- The visits of a response for the distinguished entries. -/
def distinguishedVisits (walked : List ℕ) : List Visit := frontierVisits L.size ++ walked.map .stamp

variable {L rmw}

theorem walkTo_lt {goesLeft : ℕ → Bool} {last : U64} {p : ℕ} (hp : p ∈ L.walkTo rmw goesLeft last) :
    p < L.size :=
  (mem_distinguishedIn (mem_distinguishedIn_of_walkIn hp)).1

/-- No more entries are visited than there are. -/
theorem length_walkTo {goesLeft : ℕ → Bool} {last : U64} :
    (L.walkTo rmw goesLeft last).length ≤ L.size := by
  have hnodup : (L.walkTo rmw goesLeft last).Nodup := nodup_walkIn
  have hsub : L.walkTo rmw goesLeft last ⊆ List.range L.size :=
    fun p hp => List.mem_range.2 (walkTo_lt hp)
  have := (hnodup.subperm hsub).length_le
  rwa [List.length_range] at this

theorem mem_distinguishedVisits {walked : List ℕ} {p : ℕ} :
    p ∈ entriesOf (L.distinguishedVisits walked) ↔ p ∈ getFrontier L.size ∨ p ∈ walked := by
  rw [mem_entriesOf, distinguishedVisits, frontierVisits, ← List.map_append]
  constructor
  · rintro ⟨visit, hvisit, rfl⟩
    obtain ⟨q, hq, rfl⟩ := List.mem_map.1 hvisit
    exact List.mem_append.1 hq
  · intro h
    exact ⟨.stamp p, List.mem_map_of_mem (List.mem_append.2 h), rfl⟩

theorem laddersOf_distinguishedVisits (walked : List ℕ) :
    laddersOf (L.distinguishedVisits walked) = [] := by
  rw [distinguishedVisits, frontierVisits, ← List.map_append, laddersOf_stamps]

end LabelLog

section

variable {P : Primitives} {env : Env} {t : Tree} {c c' : KtClient} {L : LabelLog} {m : ℕ} {H : U64}
  {stop : Option ℕ}

/-- **What the server answers**: the entries of its walk, with its inclusion proof. -/
theorem Tree.distinguished_eq (hs : t.ServesLog P L) (h₀ : 0 < L.size) (hn : L.size ≤ 2 ^ 62)
    (hstop : ∀ s ∈ stop, s < L.size) (maxResponseEntries : ℕ) : ∃ dset visited,
      t.findDistinguishedNodes L.size = .ok dset ∧
      dset = L.distinguishedTo t.config.reasonableMonitoringWindow (L.timestamp (L.size - 1)) ∧
      DepthFirst (Tree.walkChildren L.size stop dset (dset.reverse.take maxResponseEntries)) (fun x => x)
        [root L.size] visited ∧
      visited = L.walkTo t.config.reasonableMonitoringWindow
        (Tree.goesLeft stop (dset.reverse.take maxResponseEntries)) (L.timestamp (L.size - 1)) ∧
      ∀ last elements,
        t.inclusionProof P (sortedEntries (L.distinguishedVisits visited)) L.size (last.getD 0) =
          .ok elements → ∃ proof,
        Tree.distinguished P t maxResponseEntries ⟨last, stop⟩ =
          .ok ⟨some (t.getFullTreeHead last), some proof⟩ ∧ proof.inclusion = some ⟨elements⟩ ∧
        (elements = neededValues P (L.leaves P) (sortedEntries (L.distinguishedVisits visited))
          (last.getD 0) → Transcript P L (L.distinguishedVisits visited) (last.getD 0) proof) := by
  have hlog2 : Nat.log2 L.size < 64 := (Nat.log2_lt (by omega)).2 (by omega)
  have hroot : root L.size = node (Nat.log2 L.size) 0 := root_eq h₀ (by omega)
  have hlt : node (Nat.log2 L.size) 0 < L.size := hroot ▸ root_lt h₀ (by omega)
  obtain ⟨dset, hdset⟩ : ∃ dset, dset =
    L.distinguishedTo t.config.reasonableMonitoringWindow (L.timestamp (L.size - 1)) := ⟨_, rfl⟩
  have hfind : t.findDistinguishedNodes L.size = .ok dset := by
    rw [hdset]
    refine findDistinguishedNodes_eq h₀ (by omega) Nat.lt_log2_self fun e he => ?_
    have := hs.timestamp e he
    rwa [LogTree.getTimestamp, okOr_eq_ok] at this
  have hwalk : DepthFirst (Tree.walkChildren L.size stop dset (dset.reverse.take maxResponseEntries))
      (fun x => x) [node (Nat.log2 L.size) 0] (L.walkTo t.config.reasonableMonitoringWindow
        (Tree.goesLeft stop (dset.reverse.take maxResponseEntries)) (L.timestamp (L.size - 1))) :=
    Tree.depthFirst_walkChildren stop _ hlog2 hlt fun x _ _ => by
      rw [hdset]
      rfl
  refine ⟨dset, _, hfind, hdset, hroot ▸ hwalk, rfl, fun last elements hproof => ?_⟩
  obtain ⟨s₁, hrun₁, h₁, -, -⟩ := (TraversalSession.gathered_new P [] L none).visitAll hs
    fun e (he : e ∈ getFrontier L.size) => mem_getFrontier_lt hn he
  have hfuel : [node (Nat.log2 L.size) 0].length + 2 * (L.walkTo t.config.reasonableMonitoringWindow
      (Tree.goesLeft stop (dset.reverse.take maxResponseEntries))
        (L.timestamp (L.size - 1))).length < 2 * L.size + 2 := by
    have : (L.walkTo t.config.reasonableMonitoringWindow
      (Tree.goesLeft stop (dset.reverse.take maxResponseEntries))
        (L.timestamp (L.size - 1))).length ≤ L.size := LabelLog.length_walkTo
    rw [List.length_singleton]
    omega
  obtain ⟨s₂, hrun₂, h₂⟩ := Tree.traverseDistinguishedLoop_honest hs hwalk hfuel
    (fun e he => LabelLog.walkTo_lt he) h₁
  obtain ⟨proof, hfinal, hinclusion, htranscript⟩ := h₂.finalize_elements hproof
  refine ⟨proof, ?_, hinclusion, htranscript⟩
  rw [Tree.distinguished, Tree.monitoredTreeSize, hs.size, if_neg (by omega), Result.ok_bind]
  have hrun : Tree.traverseDistinguished P t maxResponseEntries L.size stop (last.getD 0) = .ok proof := by
    rw [Tree.traverseDistinguished, TraversalSession.visitFrontier, hrun₁, Result.ok_bind, hfind,
      Result.ok_bind, hroot]
    dsimp only
    rw [hrun₂, Result.ok_bind, hfinal]
  cases stop with
  | none =>
    dsimp only
    rw [hrun]
    rfl
  | some s =>
    have := hstop s rfl
    dsimp only
    rw [if_neg (by omega), hrun]
    rfl

/-- **What the client walks**, when it ends at the root of the log, and what it was given. -/
theorem KtClient.verifyDistinguished_walked (hP : Function.Injective P.sha256) (h₀ : 0 < L.size)
    (hn : L.size ≤ 2 ^ 62) (ht : t.treeSize = L.size) (hmeets : c.Meets P env t L m H)
    {resp : DistinguishedResponse} {data : List LeafData}
    (hfth : resp.fullTreeHead = some (t.getFullTreeHead (c.state.map TrustedState.treeSize)))
    (h : c.verifyDistinguished P env stop resp = .ok (data, c')) {head : TrustedState}
    (hstate : c'.state = some head) (hlog : LogOf P head.treeSize head.rootHash (L.leaves P)) :
    (∀ p, (c'.distinguishedEntries.get p).isSome = true ↔
      p ∈ L.walkTo c.config.reasonableMonitoringWindow (rightOf stop) H) ∧
    ∃ proof, resp.distinguished = some proof ∧ proof.inclusion = some ⟨neededValues P (L.leaves P)
      (sortedEntries (L.distinguishedVisits
        (L.walkTo c.config.reasonableMonitoringWindow (rightOf stop) H))) m⟩ := by
  have haccepted := Accepted.distinguished h
  have hlen := L.length_leaves P
  have hsize : head.treeSize = L.size := by rw [← hlen, hlog.size]
  obtain ⟨walked, ⟨fth₀, proof₀, n₀, ts₀, updated₀, reader₀, reader₀', hfth₀, hproof₀, hhead₀, hreader₀,
    hwalk₀⟩, hexact⟩ := verifyDistinguished_exact hP h hstate hlog
  simp only [verifyDistinguished, Result.bind_eq_ok, okOr_eq_ok, ensure_eq_ok] at h
  obtain ⟨fth, hfth', proof, hproof, ⟨n, timestamp, updated⟩, hhead, -, -, ⟨⟩, -, ts, hts, reader, hreader,
    ⟨walked', reader'⟩, hwalk, ⟨data', captured, committed⟩, hfinish, h⟩ := h
  obtain ⟨rfl, rfl⟩ := Prod.mk.inj (Except.ok.inj h)
  dsimp only at hts hreader hwalk hstate hfinish
  obtain rfl := hts
  -- what the head says
  obtain rfl := Option.some.inj (hfth'.symm.trans hfth)
  have hsays := hhead.symm.trans (hmeets.treeSizeForFth_eq ht h₀)
  obtain ⟨rfl, hH, rfl⟩ : n = L.size ∧ some ts = some H ∧ updated = decide (m < L.size) := by
    simpa using Except.ok.inj hsays
  obtain rfl := Option.some.inj hH
  obtain ⟨rfl, rfl⟩ : fth₀ = _ ∧ proof₀ = proof :=
    ⟨Option.some.inj (hfth₀.symm.trans hfth), Option.some.inj (hproof₀.symm.trans hproof)⟩
  obtain ⟨rfl, rfl, rfl⟩ : n₀ = L.size ∧ ts₀ = ts ∧ updated₀ = decide (m < L.size) := by
    simpa using Except.ok.inj (hhead₀.symm.trans hhead)
  obtain rfl := Except.ok.inj (hreader₀.symm.trans hreader)
  obtain ⟨rfl, rfl⟩ := Prod.mk.inj (Except.ok.inj (hwalk₀.symm.trans hwalk))
  obtain ⟨hfin, inclusion, hinclusion, hcommit⟩ := finishAndCommit_eq_ok.1 hfinish
  -- what was read is true, so that the walk is that over the log
  have hstack : ∀ e ∈ [(root L.size, (0 : U64), ts₀)], e.1 < L.size := by simpa using root_lt h₀ (by omega)
  have hreads := haccepted.reads hfth hhead (hsize ▸ hlog.small)
  have hentries := ProofReader.finish_entries hfin
  have hbelow : ∀ e ∈ reader₀'.assignedTs.entries, e.1 < L.size := fun e he => by
    rw [← hentries] at he
    obtain ⟨d, hd, rfl⟩ := List.mem_map.1 he
    exact hreads.below d hd
  have htrue := haccepted.readsTrue (L := L.contiguous) hP hfth hstate hlog hbelow hfin
  obtain ⟨l, hl, hwalked, hread⟩ := distinguishedLoop_walked hn hstack hwalk₀
    fun e he => htrue.timestamp he
  rw [List.nil_append] at hwalked
  obtain rfl := hwalked
  rw [root_eq h₀ (by omega)] at hl
  have hroot : node (Nat.log2 L.size) 0 < L.size := root_eq h₀ (by omega) ▸ root_lt h₀ (by omega)
  obtain rfl := hl.unique (depthFirst_walkChildren L.timestamp stop
    ((Nat.log2_lt (by omega)).2 (by omega)) hroot)
  refine ⟨hexact.kept, proof₀, hproof, ?_⟩
  -- the entries that were read are those of the frontier and of the walk
  obtain ⟨head', hstate', -, hderived, -⟩ := verifyHeadAndCommit_derived hhead hcommit
  obtain rfl := Option.some.inj (hstate'.symm.trans hstate)
  have hsorted : (data'.map Prod.fst).Pairwise (· < ·) := by
    rw [List.pairwise_map]
    exact (ProofReader.finish_monotone hfin).imp And.left
  have hpositions : data'.map Prod.fst = sortedEntries (L.distinguishedVisits
      (L.walkTo c.config.reasonableMonitoringWindow (rightOf stop) ts₀)) := by
    have hmem : ∀ p, p ∈ data'.map Prod.fst ↔ p ∈ sortedEntries (L.distinguishedVisits
        (L.walkTo c.config.reasonableMonitoringWindow (rightOf stop) ts₀)) := fun p => by
      rw [mem_sortedEntries, LabelLog.mem_distinguishedVisits]
      constructor
      · intro hp
        obtain ⟨d, hd, rfl⟩ := List.mem_map.1 hp
        have he : (d.1, d.2.1) ∈ reader₀'.assignedTs.entries := hentries ▸ List.mem_map_of_mem hd
        refine (hread _ he).imp_left fun he => ?_
        exact (ProofReader.timestamps_reads hreader₀ _ he).resolve_left
          (by simp [ProofReader.new, OrderedMap.empty])
      · rintro (hp | hp)
        · exact hreads.frontier p hp
        · obtain ⟨-, tsp, he⟩ := ((distinguishedLoop_extends (by omega) hstack hwalk₀).2 p hp).resolve_left
            List.not_mem_nil
          rw [← hentries] at he
          obtain ⟨d, hd, heq⟩ := List.mem_map.1 he
          exact List.mem_map.2 ⟨d, hd, (Prod.mk.inj heq).1⟩
    have hperm : (data'.map Prod.fst).Perm _ := (List.perm_ext_iff_of_nodup
      (hsorted.imp fun h => h.ne) ((pairwise_sortedEntries _).imp fun h => h.ne)).2 hmem
    exact hperm.eq_of_pairwise (fun a b _ _ h h' => absurd h (by omega)) hsorted
      (pairwise_sortedEntries _)
  have hne : L.leaves P ≠ [] := List.length_pos_iff.1 (by omega)
  rw [hlog.root_eq, ← hlen] at hderived
  have hneeded := (calculateRootCapturing_binding hP (hlen ▸ hn) hne hlog.digest (by simp)
    (fun p hp => by
      obtain ⟨d, hd, rfl⟩ := List.mem_map.1 hp
      rw [hlen]
      exact hreads.below d hd) (fun v hv => by
        obtain ⟨d, -, rfl⟩ := List.mem_map.1 hv
        exact length_logLeafValue P _ _) hderived).1
  have hkept : (fun k i => (keptAt c.retainedSubtrees k i).isSome) = LogTree.keeps m := by
    funext k i
    exact keptAt_isSome hmeets.client.retains k i
  rw [hkept, hpositions, ← neededValues] at hneeded
  rw [← hneeded]
  exact hinclusion

/-- **The client accepts** the proof of its own walk, and takes over the head. -/
theorem KtClient.verifyDistinguished_honest (h₀ : 0 < L.size) (hn : L.size ≤ 2 ^ 62)
    (ht : t.treeSize = L.size) (hmeets : c.Meets P env t L m H) {proof : CombinedTreeProof}
    (htranscript : Transcript P L (L.distinguishedVisits
      (L.walkTo c.config.reasonableMonitoringWindow (rightOf stop) H)) m proof)
    (hboundary : ∀ ath, t.freshestAuditor = some ath → BoundaryVisited (sortedEntries
      (L.distinguishedVisits (L.walkTo c.config.reasonableMonitoringWindow (rightOf stop) H)))
        ath.treeSize) : ∃ data c' head,
      c.verifyDistinguished P env stop
        ⟨some (t.getFullTreeHead (c.state.map TrustedState.treeSize)), some proof⟩ = .ok (data, c') ∧
      c'.state = some head ∧ head.treeSize = L.size ∧ head.rootHash = logRoot P (L.leaves P) := by
  obtain ⟨walked, hwalked⟩ : ∃ walked, walked =
    L.walkTo c.config.reasonableMonitoringWindow (rightOf stop) H := ⟨_, rfl⟩
  rw [← hwalked] at htranscript hboundary
  have hlog2 : Nat.log2 L.size < 64 := (Nat.log2_lt (by omega)).2 (by omega)
  have hroot : root L.size = node (Nat.log2 L.size) 0 := root_eq h₀ (by omega)
  have hwalk : DepthFirst (walkChildren L.timestamp L.size c.config.reasonableMonitoringWindow stop)
      Prod.fst [(root L.size, 0, H)] walked := by
    rw [hwalked, hroot]
    exact depthFirst_walkChildren L.timestamp stop hlog2 (hroot ▸ root_lt h₀ (by omega))
  have hfuel : [(root L.size, (0 : U64), H)].length + 2 * walked.length < 2 * L.size + 2 := by
    have : walked.length ≤ L.size := by
      rw [hwalked]
      exact LabelLog.length_walkTo
    rw [List.length_singleton]
    omega
  obtain ⟨reader, hreader, hat⟩ := ProofReader.frontier_honest htranscript (List.prefix_append _ _)
  obtain ⟨reader', hrun, hat'⟩ := distinguishedLoop_honest htranscript hwalk hfuel hat
    List.prefix_rfl
  have hladders := L.laddersOf_distinguishedVisits walked
  replace hat' : reader'.At L proof (entriesOf (L.distinguishedVisits walked))
      (laddersOf (L.distinguishedVisits walked)).length := by rwa [hladders]
  have hfinish : reader'.finish (fun _ => none) = .ok (L.data P (L.distinguishedVisits walked)) :=
    hat'.finish htranscript fun e => by
      rw [hladders]
      rfl
  have hlast := last_mem_entriesOf h₀ hn (List.prefix_append (frontierVisits L.size) (walked.map .stamp))
  obtain ⟨captured, c', head, hcommit, hstate, hsize, hrootHash⟩ := hmeets.commit ht h₀ hn
    (fun p hp => htranscript.bound p (mem_sortedEntries.1 hp)) (mem_sortedEntries.2 hlast) hboundary
    (walked.flatMap fun p => getRoots (p + 1))
  have hpositions : (L.data P (L.distinguishedVisits walked)).map Prod.fst =
      sortedEntries (L.distinguishedVisits walked) := by
    rw [LabelLog.data, List.map_map]
    exact List.map_id' _
  rw [← LabelLog.leavesAt_data htranscript.bound] at hcommit
  refine ⟨L.data P (L.distinguishedVisits walked), { c' with
    distinguishedEntries := .collect (walked.filterMap fun p =>
      (distinguishedEntry (L.data P (L.distinguishedVisits walked)) captured p).map (p, ·)) },
    head, ?_, hstate, hsize, hrootHash⟩
  have hcommitted := finishAndCommit_eq_ok.2
    ⟨hfinish, _, htranscript.inclusion, by rw [hpositions]; exact hcommit⟩
  rw [verifyDistinguished, okOr_some, Result.ok_bind, okOr_some, Result.ok_bind,
    hmeets.treeSizeForFth_eq ht h₀, Result.ok_bind]
  dsimp only
  rw [ensure_of (show L.size ≠ 0 by omega), Result.ok_bind, hmeets.checkUpdatedBounds_eq, Result.ok_bind,
    okOr_some, Result.ok_bind, hreader, Result.ok_bind, hrun, Result.ok_bind]
  dsimp only
  rw [List.nil_append, hcommitted]
  rfl

/-! ### Agreement -/

/-- Of a descending list, what is greater than a recent member is recent. -/
theorem mem_take_of_lt {l : List ℕ} {x y k : ℕ} (hl : l.Pairwise (· > ·)) (hx : x ∈ l.take k)
    (hy : y ∈ l) (hlt : x < y) : y ∈ l.take k := by
  rw [← List.take_append_drop k l] at hl hy
  rcases List.mem_append.1 hy with hy | hy
  · exact hy
  · have := (List.pairwise_append.1 hl).2.2 x hx y hy
    omega

/-- **The server's walk** comes by every distinguished entry right of the stop that is
among the most recent ones. -/
theorem LabelLog.mem_walkTo_recent {rmw maxResponseEntries p : ℕ} {last : U64}
    (hp : p ∈ L.distinguishedTo rmw last) (hright : rightOf stop p = true)
    (hrecent : p ∈ (L.distinguishedTo rmw last).reverse.take maxResponseEntries) :
    p ∈ L.walkTo rmw (Tree.goesLeft stop ((L.distinguishedTo rmw last).reverse.take maxResponseEntries))
      last := by
  have hdescending : (L.distinguishedTo rmw last).reverse.Pairwise (· > ·) :=
    List.pairwise_reverse.2 pairwise_distinguishedIn
  refine mem_walkIn hp fun y hy hlt => ?_
  rw [Tree.goesLeft, Bool.and_eq_true, decide_eq_true_eq]
  exact ⟨rightOf_mono hlt.le hright,
    mem_take_of_lt hdescending hrecent (List.mem_reverse.2 hy) hlt⟩

/-- **The walks over the distinguished entries are exact**: the client accepts the
server's response, takes over the head of the log and keeps exactly the entries that the
server visited; these are all distinguished ones when there is no stop and they fit into
a response, and otherwise they include those that are both right of the stop and among
the most recent ones. -/
def DistinguishedExactness (P : Primitives) (env : Env) (t : Tree) (c : KtClient) (L : LabelLog)
    (maxResponseEntries : ℕ) (stop : Option ℕ) : Prop :=
  ∃ resp data c' head dset visited,
    Tree.distinguished P t maxResponseEntries ⟨c.state.map TrustedState.treeSize, stop⟩ = .ok resp ∧
    c.verifyDistinguished P env stop resp = .ok (data, c') ∧ c'.state = some head ∧
    LogOf P head.treeSize head.rootHash (L.leaves P) ∧ t.findDistinguishedNodes t.treeSize = .ok dset ∧
    DepthFirst (Tree.walkChildren t.treeSize stop dset (dset.reverse.take maxResponseEntries)) (fun x => x)
      [root t.treeSize] visited ∧
    (∀ p, (c'.distinguishedEntries.get p).isSome = true ↔ p ∈ visited) ∧
    (stop = none → dset.length ≤ maxResponseEntries → ∀ p, p ∈ visited ↔ p ∈ dset) ∧
    ∀ p ∈ dset, rightOf stop p = true → p ∈ dset.reverse.take maxResponseEntries → p ∈ visited

/-- **Nothing parts the two walks**: the timestamp of the head makes no further entry
distinguished, and every distinguished entry right of the stop that has a distinguished
left child is among the most recent ones. -/
structure LabelLog.WalksAgree (L : LabelLog) (rmw maxResponseEntries : ℕ) (stop : Option ℕ) (H : U64) :
    Prop where
  ticks : L.distinguishedTo rmw H = L.distinguishedTo rmw (L.timestamp (L.size - 1))
  fits : ∀ x ∈ L.distinguishedTo rmw H, isLeaf x = false → rightOf stop x = true →
    leftChild x ∈ L.distinguishedTo rmw H →
      x ∈ (L.distinguishedTo rmw H).reverse.take maxResponseEntries

theorem LabelLog.boundaryVisited_distinguishedVisits {walked : List ℕ} {a : ℕ} :
    BoundaryVisited (sortedEntries (L.distinguishedVisits walked)) a ↔
      BoundaryVisited (getFrontier L.size ++ walked) a := by
  simp only [BoundaryVisited, mem_sortedEntries, mem_distinguishedVisits, List.mem_append]

theorem Tree.rightOf_of_goesLeft {recent : List ℕ} {x : ℕ} (h : Tree.goesLeft stop recent x = true) :
    rightOf stop x = true := by
  rw [Tree.goesLeft, Bool.and_eq_true] at h
  exact h.1

/-- The entries of a response lie in the log. -/
theorem LabelLog.distinguishedVisits_lt {rmw p : ℕ} {goesLeft : ℕ → Bool} {last : U64}
    (hn : L.size ≤ 2 ^ 62)
    (hp : p ∈ sortedEntries (L.distinguishedVisits (L.walkTo rmw goesLeft last))) : p < L.size := by
  rw [mem_sortedEntries, mem_distinguishedVisits] at hp
  exact hp.elim (mem_getFrontier_lt hn) walkTo_lt

/-- **Where the walks are exact, nothing parts them.** -/
theorem DistinguishedExactness.walksAgree {maxResponseEntries : ℕ}
    (h : DistinguishedExactness P env t c L maxResponseEntries stop) (hP : Function.Injective P.sha256)
    (hs : t.ServesLog P L) (h₀ : 0 < L.size) (hn : L.size ≤ 2 ^ 62) (hstop : ∀ s ∈ stop, s < L.size)
    (hwindow : c.config.reasonableMonitoringWindow = t.config.reasonableMonitoringWindow)
    (hmeets : c.Meets P env t L m H) :
    L.WalksAgree t.config.reasonableMonitoringWindow maxResponseEntries stop H ∧
      ∀ ath, t.freshestAuditor = some ath → BoundaryVisited (getFrontier L.size ++
        L.walkTo t.config.reasonableMonitoringWindow (rightOf stop) H) ath.treeSize := by
  obtain ⟨dset, visited, hdset, hdsetEq, hwalk, hvisited, hanswer⟩ :=
    Tree.distinguished_eq hs h₀ hn hstop maxResponseEntries
  have hlast := last_mem_entriesOf h₀ hn (List.prefix_append (frontierVisits L.size) (visited.map .stamp))
  obtain ⟨elements, hproof, helements⟩ := hmeets.exists_inclusionProof hP hs.log h₀ hn
    (fun p hp => LabelLog.distinguishedVisits_lt hn (hvisited ▸ hp)) (mem_sortedEntries.2 hlast)
  obtain ⟨proof, hresp, hinclusion, -⟩ := hanswer (c.state.map TrustedState.treeSize) elements
    (by rwa [hmeets.last_eq])
  have hlog2 : Nat.log2 L.size < 63 := (Nat.log2_lt (by omega)).2 (by omega)
  obtain ⟨resp, data, c', head, dset', visited', hresp', haccepted, hstate, hlog, hdset', hwalk', hkeys,
    -, -⟩ := h
  obtain rfl := Except.ok.inj (hresp.symm.trans hresp')
  rw [hs.size] at hdset' hwalk'
  obtain rfl := Except.ok.inj (hdset.symm.trans hdset')
  obtain rfl := hwalk.unique hwalk'
  obtain ⟨hkept, proof', hproof', hinclusion'⟩ := KtClient.verifyDistinguished_walked hP h₀ hn hs.size
    hmeets rfl haccepted hstate hlog
  obtain rfl := Option.some.inj hproof'
  rw [hwindow] at hkept hinclusion'
  have hsame : ∀ p, p ∈ L.walkTo t.config.reasonableMonitoringWindow
        (Tree.goesLeft stop (dset.reverse.take maxResponseEntries)) (L.timestamp (L.size - 1)) ↔
      p ∈ L.walkTo t.config.reasonableMonitoringWindow (rightOf stop) H := fun p => by
    rw [← hvisited]
    exact (hkeys p).symm.trans (hkept p)
  have hle : ∀ x, Tree.goesLeft stop (dset.reverse.take maxResponseEntries) x = true →
      rightOf stop x = true := fun _ => Tree.rightOf_of_goesLeft
  obtain ⟨hticks, halike⟩ := alike_of_mem_walkIn_iff rightOf_mono hle hn hlog2 hsame
  have hwalks : visited = L.walkTo t.config.reasonableMonitoringWindow (rightOf stop) H :=
    hvisited.trans (walkIn_congr hle rightOf_mono hn hlog2 hticks halike)
  refine ⟨⟨hticks.symm, fun x hx hinner hright hleft => ?_⟩, fun ath hath => ?_⟩
  · have hgoes := halike x hx hinner hright hleft
    rw [Tree.goesLeft, Bool.and_eq_true, decide_eq_true_eq, hdsetEq, LabelLog.distinguishedTo,
      hticks] at hgoes
    exact hgoes.2
  · rw [← hwalks] at hinclusion' ⊢
    have heq := congrArg InclusionProof.elements (Option.some.inj (hinclusion.symm.trans hinclusion'))
    exact LabelLog.boundaryVisited_distinguishedVisits.1 (helements.1 heq ath hath)

/-- **Where nothing parts the walks, they are exact.** -/
theorem LabelLog.WalksAgree.exactness {maxResponseEntries : ℕ} (hP : Function.Injective P.sha256)
    (hs : t.ServesLog P L) (h₀ : 0 < L.size) (hn : L.size ≤ 2 ^ 62) (hstop : ∀ s ∈ stop, s < L.size)
    (hwindow : c.config.reasonableMonitoringWindow = t.config.reasonableMonitoringWindow)
    (hmeets : c.Meets P env t L m H)
    (h : L.WalksAgree t.config.reasonableMonitoringWindow maxResponseEntries stop H)
    (hboundary : ∀ ath, t.freshestAuditor = some ath → BoundaryVisited (getFrontier L.size ++
      L.walkTo t.config.reasonableMonitoringWindow (rightOf stop) H) ath.treeSize) :
    DistinguishedExactness P env t c L maxResponseEntries stop := by
  obtain ⟨dset, visited, hdset, hdsetEq, hwalk, hvisited, hanswer⟩ :=
    Tree.distinguished_eq hs h₀ hn hstop maxResponseEntries
  have hlast := last_mem_entriesOf h₀ hn (List.prefix_append (frontierVisits L.size) (visited.map .stamp))
  obtain ⟨elements, hproof, helements⟩ := hmeets.exists_inclusionProof hP hs.log h₀ hn
    (fun p hp => LabelLog.distinguishedVisits_lt hn (hvisited ▸ hp)) (mem_sortedEntries.2 hlast)
  obtain ⟨proof, hresp, -, htranscript⟩ := hanswer (c.state.map TrustedState.treeSize) elements
    (by rwa [hmeets.last_eq])
  rw [hmeets.last_eq] at htranscript
  have hlog2 : Nat.log2 L.size < 63 := (Nat.log2_lt (by omega)).2 (by omega)
  have halike : LeftAlike (rightOf stop) (Tree.goesLeft stop (dset.reverse.take maxResponseEntries))
      (L.distinguishedTo t.config.reasonableMonitoringWindow H) := fun x hx hinner hright hleft => by
    rw [Tree.goesLeft, hright, Bool.true_and, decide_eq_true_eq, hdsetEq, ← h.ticks]
    exact h.fits x hx hinner hright hleft
  have hwalks : visited = L.walkTo t.config.reasonableMonitoringWindow (rightOf stop) H :=
    hvisited.trans (walkIn_congr (fun _ => Tree.rightOf_of_goesLeft) rightOf_mono hn hlog2 h.ticks.symm
      halike)
  have hboundary' : ∀ ath, t.freshestAuditor = some ath →
      BoundaryVisited (sortedEntries (L.distinguishedVisits visited)) ath.treeSize := fun ath hath =>
    LabelLog.boundaryVisited_distinguishedVisits.2 (hwalks ▸ hboundary ath hath)
  have htrans := htranscript (helements.2 hboundary')
  rw [hwalks, ← hwindow] at htrans hboundary'
  obtain ⟨data, c', head, haccepted, hstate, hsize, hroot⟩ :=
    KtClient.verifyDistinguished_honest h₀ hn hs.size hmeets htrans hboundary'
  have hlog : LogOf P head.treeSize head.rootHash (L.leaves P) := LabelLog.logOf hn hsize hroot
  obtain ⟨hkept, -⟩ := KtClient.verifyDistinguished_walked hP h₀ hn hs.size hmeets rfl haccepted hstate
    hlog
  have hcomes : ∀ p ∈ dset, rightOf stop p = true → p ∈ dset.reverse.take maxResponseEntries →
      p ∈ visited := fun p hp hright hrecent => by
    rw [hvisited]
    rw [hdsetEq] at hp hrecent ⊢
    exact LabelLog.mem_walkTo_recent hp hright hrecent
  refine ⟨_, data, c', head, dset, visited, hresp, haccepted, hstate, hlog, hs.size.symm ▸ hdset,
    hs.size.symm ▸ hwalk, fun p => ?_, fun hnone hfit p => ⟨fun hp => ?_, fun hp => ?_⟩, hcomes⟩
  · rw [hkept, hwindow, ← hwalks]
  · rw [hvisited] at hp
    rw [hdsetEq]
    exact mem_distinguishedIn_of_walkIn hp
  · refine hcomes p hp (by rw [hnone]; rfl) ?_
    rw [List.take_of_length_le (by rwa [List.length_reverse])]
    exact List.mem_reverse.2 hp

/-- **When the walks are exact**: when nothing parts them, and the auditor's size is
among what they visit. -/
theorem distinguished_exactness_iff (hP : Function.Injective P.sha256) (hs : t.ServesLog P L)
    (h₀ : 0 < L.size) (hn : L.size ≤ 2 ^ 62) (hstop : ∀ s ∈ stop, s < L.size)
    (hwindow : c.config.reasonableMonitoringWindow = t.config.reasonableMonitoringWindow)
    (hmeets : c.Meets P env t L m H) (maxResponseEntries : ℕ) :
    DistinguishedExactness P env t c L maxResponseEntries stop ↔
      L.WalksAgree t.config.reasonableMonitoringWindow maxResponseEntries stop H ∧
        ∀ ath, t.freshestAuditor = some ath → BoundaryVisited (getFrontier L.size ++
          L.walkTo t.config.reasonableMonitoringWindow (rightOf stop) H) ath.treeSize :=
  ⟨fun h => h.walksAgree hP hs h₀ hn hstop hwindow hmeets,
    fun ⟨h, hboundary⟩ => h.exactness hP hs h₀ hn hstop hwindow hmeets hboundary⟩

end

/-! ### A tick of the server -/

section

variable {t : Tree} {L : LabelLog} {window : ℕ} {plan : List (U64 × List Octets)} {p : U64 × List Octets}
  {m : ℕ}

/-- A client without a clock. -/
def clockless : Env := ⟨none, fun _ => .ok ()⟩

/-- A new client meets the head of a sample server. -/
theorem Tree.Commits.meets (h : t.Commits window plan L) (hp : plan.getLast? = some p) :
    (sampleClient window).Meets Primitives.ideal clockless t L 0 p.1 := by
  obtain ⟨th, hth, hts, hsig⟩ := h.head p hp
  have hmode : (sampleClient window).config.mode ≠ deploymentModeThirdPartyAuditing :=
    show deploymentModeContactMonitoring ≠ deploymentModeThirdPartyAuditing by decide
  exact {
    client := ⟨retainsPeaks_zero _ _, fun prev hprev => (by cases hprev), by simp [sampleClient]⟩
    known := Nat.zero_le _
    newer := fun _ => ⟨th, hth, by rw [hts, asU64_asI64], hsig⟩
    same := fun hzero => by
      rw [h.size] at hzero
      rw [List.length_eq_zero_iff.1 hzero.symm] at hp
      cases hp
    clock := KtClient.checkTimestampBounds_eq_ok.2 (by
      rw [clockless, Option.getD_none, saturatingAdd, saturatingAdd]
      omega)
    audited := fun h => absurd h hmode
    unaudited := fun _ => h.auditors }

/-- What a tick leaves of a server whose head is older than its clock. -/
theorem Tree.afterRefresh_eq {th : TreeHead} {now : U64} (hth : t.latest = some th)
    (hnow : asU64 th.timestamp < now) : (t.afterRefresh none (some now)).2 =
      { t with
        store := { t.store with head := some { th with timestamp := asI64 now } }
        latest := some { th with timestamp := asI64 now } } := by
  obtain ⟨store, config, latest, auditors⟩ := t
  obtain rfl : latest = some th := hth
  have hread : (Db.ofResult (okOr (some now) "second time provided was later than self"))
      ⟨store, none⟩ = (.ok now, ⟨store, none⟩) := rfl
  unfold Tree.afterRefresh Tree.refreshHeadTimestamp
  dsimp only
  rw [Db.bind_apply, hread]
  dsimp only
  rw [if_neg (not_le.2 hnow)]
  rfl

/-- After a tick the log is the same, and a new client meets the later head. -/
theorem Tree.Commits.refreshed (h : t.Commits window plan L) (hp : plan.getLast? = some p) {now : U64}
    (hnow : p.1 < now) : (t.afterRefresh none (some now)).2.ServesLog Primitives.ideal L ∧
      (t.afterRefresh none (some now)).2.config = t.config ∧
      (sampleClient window).Meets Primitives.ideal clockless (t.afterRefresh none (some now)).2 L 0 now := by
  obtain ⟨th, hth, hts, hsig⟩ := h.head p hp
  have hmeets := h.meets hp
  have hs := h.serves.servesLog
  rw [Tree.afterRefresh_eq hth (by rwa [hts, asU64_asI64])]
  refine ⟨⟨?_, hs.timestamp, hs.prefixRoot, hs.log.congr rfl⟩, rfl, { hmeets with
    newer := fun _ => ⟨_, rfl, asU64_asI64 now, hsig⟩
    same := fun hzero => by
      rw [h.size] at hzero
      rw [List.length_eq_zero_iff.1 hzero.symm] at hp
      cases hp
    clock := KtClient.checkTimestampBounds_eq_ok.2 (by
      rw [clockless, Option.getD_none, saturatingAdd, saturatingAdd]
      omega)
    audited := fun haudited => absurd haudited
      (show deploymentModeContactMonitoring ≠ deploymentModeThirdPartyAuditing by decide) }⟩
  rw [← hs.size, Tree.treeSize, Tree.treeSize, hth]
  rfl

/-- A server with two epochs, ten milliseconds apart, whose entries are both
distinguished. -/
theorem distinguished_exactness_two : ∃ (t : Tree) (L : LabelLog), L.size = 2 ∧
    L.distinguishedTo 10 20 = [0, 1] ∧
      DistinguishedExactness Primitives.ideal clockless t (sampleClient 10) L 5 none := by
  obtain ⟨t, L, h⟩ : ∃ (t : Tree) (L : LabelLog), t.Commits 10 [(10, [[]]), (20, [[]])] L :=
    exists_sampleServer 10 (by decide) (by decide) (by decide) (by decide) (by decide)
  have hsize : L.size = 2 := h.size
  have hwindow : t.config.reasonableMonitoringWindow = 10 := by rw [h.config]; rfl
  have hmeets := h.meets (p := (20, [[]])) rfl
  have hdistinguished : L.distinguishedTo 10 20 = [0, 1] := by
    rw [LabelLog.distinguishedTo, hsize, funext fun e => congrArg Fin.val (h.timestamp e)]
    decide
  have hlast : L.timestamp (L.size - 1) = 20 := by
    rw [hsize, h.timestamp]
    rfl
  refine ⟨t, L, hsize, hdistinguished,
    (distinguished_exactness_iff Primitives.ideal_sha256_injective h.serves.servesLog (by omega) (by omega)
      (fun s hs => by cases hs) (by rw [hwindow]; rfl) hmeets 5).2 ⟨⟨?_, ?_⟩, fun ath hath => ?_⟩⟩
  · rw [hlast]
  · rw [hwindow, hdistinguished]
    decide
  · rw [Tree.freshestAuditor, h.auditors] at hath
    cases hath

/-- **A tick parts the walks**: a server has one entry, with a timestamp below the window;
its ticker stamps the head with a later time, and the client keeps an entry that the
server never visited. -/
theorem ticked_distinguished : ∃ (t : Tree) (L : LabelLog), t.ServesLog Primitives.ideal L ∧
    L.size = 1 ∧ L.timestamp 0 = 10 ∧
      (sampleClient 100).Meets Primitives.ideal clockless (t.afterRefresh none (some 200)).2 L 0 200 ∧
      ¬ DistinguishedExactness Primitives.ideal clockless (t.afterRefresh none (some 200)).2
        (sampleClient 100) L 5 none := by
  obtain ⟨t, L, h⟩ : ∃ (t : Tree) (L : LabelLog), t.Commits 100 [(10, [[]])] L :=
    exists_sampleServer 100 (by decide) (by decide) (by decide) (by decide) (by decide)
  have hsize : L.size = 1 := h.size
  have hts : L.timestamp 0 = 10 := h.timestamp 0
  obtain ⟨hserves, hconfig, hmeets⟩ := h.refreshed (p := (10, [[]])) rfl (show (10 : U64) < 200 by decide)
  have hwindow : (t.afterRefresh none (some 200)).2.config.reasonableMonitoringWindow = 100 := by
    rw [hconfig, h.config]
    rfl
  refine ⟨t, L, h.serves.servesLog, hsize, hts, hmeets, fun hexact => ?_⟩
  obtain ⟨hagree, -⟩ := hexact.walksAgree Primitives.ideal_sha256_injective hserves (by omega) (by omega)
    (fun s hs => by cases hs) (by rw [hwindow]; rfl) hmeets
  have hticks := hagree.ticks
  rw [hwindow, hsize, hts, LabelLog.distinguishedTo, LabelLog.distinguishedTo, hsize,
    funext fun e => congrArg Fin.val (h.timestamp e)] at hticks
  revert hticks
  decide

end

end KeyTransparency
