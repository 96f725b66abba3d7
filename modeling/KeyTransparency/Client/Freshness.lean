/-
# What the timestamps of a session say

The clock check is about the timestamp field of a tree head, which no signature of
the server covers (`Accepted.head_timestamp`); the timestamps of the log entries, which
the signed root commits to, are compared with each other, one response at a time
(`AcceptedRun.timestamps_monotone`), and not with the clock.
-/

import KeyTransparency.Client.HonestHead
import KeyTransparency.Client.Session

namespace KeyTransparency

open LogMath LogVerifier

section

variable {P : Primitives} {env : Env} {c c' : KtClient} {data : List LeafData}

/-! ### The timestamp of the head -/

theorem KtClient.checkTimestampBounds_eq_ok {ts : U64} :
    c.checkTimestampBounds env ts = .ok () ↔
      ts.val ≤ saturatingAdd (env.now.getD ts).val c.config.maxAhead ∧
        (env.now.getD ts).val ≤ saturatingAdd ts.val c.config.maxBehind := by
  simp only [KtClient.checkTimestampBounds, Result.bind_eq_ok, ensure_eq_ok]
  exact ⟨fun ⟨_, h, h'⟩ => ⟨h, h'⟩, fun ⟨h, h'⟩ => ⟨(), h, h'⟩⟩

theorem KtClient.treeSizeForFth_updated {fth : FullTreeHead} {n : ℕ} {timestamp : Option U64}
    {updated : Bool} (h : c.treeSizeForFth env fth = .ok (n, timestamp, updated))
    (hupd : fth.headType = .updated) : ∃ th, fth.treeHead = some th ∧ n = th.treeSize ∧
      timestamp = some (asU64 th.timestamp) ∧ updated = true ∧
      ∀ prev ∈ c.state, prev.treeSize < n := by
  rw [treeSizeForFth, hupd] at h
  simp only [Result.bind_eq_ok, okOr_eq_ok] at h
  obtain ⟨th, hth, h⟩ := h
  refine ⟨th, hth, ?_⟩
  cases hprev : c.state with
  | none =>
    rw [hprev] at h
    obtain ⟨rfl, rfl, rfl⟩ := by simpa using h
    exact ⟨rfl, rfl, rfl, by simp⟩
  | some prev =>
    rw [hprev] at h
    simp only [Result.bind_eq_ok, ensure_eq_ok] at h
    obtain ⟨-, hlt, h⟩ := h
    obtain ⟨rfl, rfl, rfl⟩ := by simpa using h
    exact ⟨rfl, rfl, rfl, fun prev' hprev' => Option.some.inj hprev' ▸ hlt⟩

/-- What the commit of an updated head has checked, and what it leaves behind. -/
theorem KtClient.verifyHeadAndCommit_updated_eq_ok {fth : FullTreeHead} {n : ℕ}
    {timestamp : Option U64} {positions : List ℕ} {hashes elements : List Octets}
    {extraWanted : List ℕ} {captured : NodeMap}
    (h : c.verifyHeadAndCommit P fth n timestamp true positions hashes elements extraWanted =
      .ok (captured, c')) :
    ∃ th root, fth.treeHead = some th ∧
      calculateRootCapturing P positions hashes n elements c.retainedSubtrees
        (c.wantedNodes fth n extraWanted) = .ok (root, captured) ∧
      c.verifyTreeHeadSignature P th n root = .ok () ∧
      c'.state = some ⟨n, root, timestamp.getD 0⟩ ∧
      (c'.retainedSubtrees = fun id => if id ∈ getRoots n then captured id else none) ∧
      (c.config.mode = deploymentModeThirdPartyAuditing → ∃ auditor,
        c.verifyAuditorTreeHead P fth th n root captured = .ok auditor ∧
          c'.auditorHead = some auditor) := by
  simp only [verifyHeadAndCommit, Result.bind_eq_ok, Result.context_eq_ok, if_true,
    okOr_eq_ok] at h
  obtain ⟨⟨root, captured'⟩, hroot, th, hth, ⟨⟩, hsig, h⟩ := h
  refine ⟨th, root, hth, ?_⟩
  split_ifs at h with hmode
  · simp only [Result.bind_eq_ok, Result.context_eq_ok] at h
    obtain ⟨head, hhead, auditor, hauditor, h⟩ := h
    obtain rfl := Except.ok.inj hauditor
    obtain ⟨rfl, rfl⟩ := Prod.mk.inj (Except.ok.inj h)
    exact ⟨hroot, hsig, rfl, rfl, fun _ => ⟨head, hhead, rfl⟩⟩
  · obtain ⟨rfl, rfl⟩ := Prod.mk.inj (Except.ok.inj h)
    exact ⟨hroot, hsig, rfl, rfl, fun h => absurd h hmode⟩

theorem KtClient.verifyAuditorTreeHead_lag {fth : FullTreeHead} {th : TreeHead} {n : ℕ}
    {root : Octets} {captured : NodeMap} {auditor : ℕ × U64}
    (h : c.verifyAuditorTreeHead P fth th n root captured = .ok auditor) :
    auditor.2.val ≤ (asU64 th.timestamp).val ∧
      (asU64 th.timestamp).val - auditor.2.val ≤ c.config.maxAuditorLag := by
  simp only [verifyAuditorTreeHead, Result.bind_eq_ok, okOr_eq_ok, ensure_eq_ok] at h
  obtain ⟨ath, -, -, -, -, hahead, -, hlag, -, -, root, -, tbs, -, bytes, -, apk, -, -, -, h⟩ := h
  obtain rfl := Except.ok.inj h
  exact ⟨hahead, hlag⟩

/-- **Freshness, as far as it goes.**  When a client takes over an updated head, the
timestamp field of the head is within the bounds of its clock and is retained.  The
signature would verify with any other timestamp as well; in third-party auditing mode
the auditor has signed one that is at most the allowed lag older. -/
theorem Accepted.head_timestamp {r : Response} {fth : FullTreeHead}
    (h : Accepted P env c r data c') (hfth : r.fullTreeHead = some fth)
    (hupd : fth.headType = .updated) :
    ∃ th root, fth.treeHead = some th ∧
      (asU64 th.timestamp).val ≤
        saturatingAdd (env.now.getD (asU64 th.timestamp)).val c.config.maxAhead ∧
      (env.now.getD (asU64 th.timestamp)).val ≤
        saturatingAdd (asU64 th.timestamp).val c.config.maxBehind ∧
      c'.state = some ⟨th.treeSize, root, asU64 th.timestamp⟩ ∧
      (∀ timestamp, c.verifyTreeHeadSignature P { th with timestamp := timestamp } th.treeSize
        root = .ok ()) ∧
      (c.config.mode = deploymentModeThirdPartyAuditing → ∃ auditor,
        c'.auditorHead = some auditor ∧ auditor.2.val ≤ (asU64 th.timestamp).val ∧
          (asU64 th.timestamp).val - auditor.2.val ≤ c.config.maxAuditorLag) := by
  obtain ⟨fth', n, timestamp, updated, hfth', htaken⟩ :=
    h.takenOver.resolve_right fun hnone => by simp [hnone.1] at hfth
  obtain rfl : fth' = fth := Option.some.inj (hfth'.symm.trans hfth)
  obtain ⟨th, hth, rfl, rfl, rfl, -⟩ := KtClient.treeSizeForFth_updated htaken.head hupd
  have hbounds := htaken.bounds
  rw [KtClient.checkUpdatedBounds, Result.context_eq_ok] at hbounds
  obtain ⟨hahead, hbehind⟩ := KtClient.checkTimestampBounds_eq_ok.1 hbounds
  obtain ⟨elements, extraWanted, captured, committed, hcommit, same⟩ := htaken.commit
  obtain ⟨th', root, hth', -, hsig, hstate, -, haud⟩ :=
    KtClient.verifyHeadAndCommit_updated_eq_ok hcommit
  obtain rfl : th' = th := Option.some.inj (hth'.symm.trans hth)
  refine ⟨th', root, hth, hahead, hbehind, same.state ▸ hstate, fun _ => hsig, fun hmode => ?_⟩
  obtain ⟨auditor, hauditor, heq⟩ := haud hmode
  exact ⟨auditor, same.auditorHead ▸ heq, KtClient.verifyAuditorTreeHead_lag hauditor⟩

/-! ### The timestamps of the entries -/

/-- **Timestamps do not decrease within a response**, over any run of accepted ones. -/
theorem AcceptedRun.timestamps_monotone {log : List (Response × List LeafData)}
    (h : AcceptedRun P c log c') :
    ∀ entry ∈ log, entry.2.Pairwise fun a b => a.1 < b.1 ∧ a.2.1 ≤ b.2.1 := by
  induction h with
  | nil => simp
  | cons h _ ih =>
    intro entry hentry
    rcases List.mem_cons.1 hentry with rfl | hentry
    · rcases h.takenOver with ⟨fth, n, timestamp, updated, -, htaken⟩ | ⟨-, rfl, -⟩
      · exact htaken.monotone
      · exact List.Pairwise.nil
    · exact ih entry hentry

end

/-! ### What the checks leave open -/

/-- A client that pins the given key and counts nothing as distinguished, outside of
third-party auditing. -/
structure PlainClient (c : KtClient) (maxBehind : ℕ) : Prop where
  mode : c.config.mode = deploymentModeContactMonitoring
  window : c.config.reasonableMonitoringWindow = 2 ^ 64
  behind : c.config.maxBehind = maxBehind
  configured : ∃ bytes, serializeConfigurationPublic c.config = .ok bytes

/-- The head of a log that the pinned key has signed. -/
theorem KtClient.exists_signature {c : KtClient}
    (h : ∃ bytes, serializeConfigurationPublic c.config = .ok bytes) (n : ℕ) {root : Octets}
    (hroot : root.length = 32) : ∃ sigs, ∀ timestamp,
      c.verifyTreeHeadSignature Primitives.ideal ⟨n, timestamp, sigs⟩ n root = .ok () := by
  obtain ⟨bytes, hbytes⟩ := h
  let tbs := bytes ++ Octets.beBytes 8 n ++ root
  refine ⟨[⟨[], c.sigPk ++ tbs⟩], fun timestamp => ?_⟩
  have htbs : constructTreeHeadTbsPublic c.config n root = .ok tbs := by
    simp only [constructTreeHeadTbsPublic, treeHeadTbs, hbytes, Result.ok_bind, ensure_of hroot,
      Result.pure_eq]
    rfl
  have hverify := Primitives.ideal_verifyData c.sigPk tbs
  simp only [KtClient.verifyTreeHeadSignature, ensure_of, htbs, Result.context_ok, Result.ok_bind,
    KtClient.verifyAnySignature, hverify, ne_eq, List.cons_ne_nil, not_false_eq_true]

/-- Reading a proof about one entry, of which only the prefix root is shown. -/
theorem ProofReader.timestamps_singleton (pos : ℕ) (ts : U64) (root : Octets)
    (inclusion : Option InclusionProof) : ∃ r : ProofReader,
      (ProofReader.new ⟨[ts], [], [root], inclusion⟩).timestamps [pos] = .ok r ∧
        r.finish (fun _ => none) = .ok [(pos, ts, root)] := by
  have hfirst : ∃ r, (ProofReader.new ⟨[ts], [], [root], inclusion⟩).timestamp pos = .ok (ts, r) ∧
      r.proof = ⟨[ts], [], [root], inclusion⟩ ∧ r.tsIdx = 1 ∧ r.proofIdx = 0 ∧
        r.assignedTs.entries = [(pos, ts)] := by
    simp [ProofReader.timestamp, ProofReader.new, OrderedMap.get, OrderedMap.empty,
      OrderedMap.before, OrderedMap.after, OrderedMap.insert]
  obtain ⟨r, hr, hproof, hts, hidx, hentries⟩ := hfirst
  refine ⟨r, ?_, ?_⟩
  · rw [ProofReader.timestamps, hr]
    rfl
  · simp [ProofReader.finish, hproof, hts, hidx, hentries, ProofReader.surfaceRoots, ensure]

/-- A client that counts nothing as distinguished is shown the last entry of a log, and
commits. -/
theorem KtClient.verifyDistinguished_last {P : Primitives} {c c' : KtClient} {n : ℕ} (hn : n ≠ 0)
    (hfrontier : getFrontier n = [n - 1]) (hwindow : c.config.reasonableMonitoringWindow = 2 ^ 64)
    (hstate : ∀ prev ∈ c.state, prev.treeSize < n) {fth : FullTreeHead} {sigs : List Signature}
    {now ts : U64} {prefixRoot : Octets} {elements : List Octets} {captured : NodeMap}
    (hupd : fth.headType = .updated) (hth : fth.treeHead = some ⟨n, asI64 now, sigs⟩)
    (hcommit : c.verifyHeadAndCommit P fth n (some now) true [n - 1]
      [logLeafValue P ts prefixRoot] elements [] = .ok (captured, c')) :
    c.verifyDistinguished P ⟨some now, fun _ => .ok ()⟩ none
        ⟨some fth, some ⟨[ts], [], [prefixRoot], some ⟨elements⟩⟩⟩ =
      .ok ([(n - 1, ts, prefixRoot)], { c' with distinguishedEntries := .empty }) := by
  have hhead : c.treeSizeForFth ⟨some now, fun _ => .ok ()⟩ fth = .ok (n, some now, true) := by
    rw [KtClient.treeSizeForFth, hupd, hth]
    cases hprev : c.state with
    | none => simp
    | some prev => simp [ensure_of (hstate prev hprev)]
  have hbounds : c.checkTimestampBounds ⟨some now, fun _ => .ok ()⟩ now = .ok () := by
    have := now.isLt
    refine KtClient.checkTimestampBounds_eq_ok.2 ⟨?_, ?_⟩ <;>
      · simp only [Option.getD_some, saturatingAdd]
        omega
  obtain ⟨reader, hreader, hfinish⟩ :=
    ProofReader.timestamps_singleton (n - 1) ts prefixRoot (some ⟨elements⟩)
  let proof : CombinedTreeProof := ⟨[ts], [], [prefixRoot], some ⟨elements⟩⟩
  have hwalk : KtClient.distinguishedLoop n c.config.reasonableMonitoringWindow none (2 * n + 2)
      [(root n, 0, now)] [] reader = .ok ([], reader) := by
    have := now.isLt
    rw [KtClient.distinguishedLoop, if_pos (by rw [hwindow]; omega), KtClient.distinguishedLoop]
  have hcommitted : c.finishAndCommit P fth n (some now) true proof reader
      (fun _ => none) [] = .ok ([(n - 1, ts, prefixRoot)], captured, c') :=
    KtClient.finishAndCommit_eq_ok.2 ⟨hfinish, _, rfl, hcommit⟩
  simp only [KtClient.verifyDistinguished, okOr_some, Result.ok_bind]
  rw [hhead, Result.ok_bind]
  simp only [okOr_some, Result.ok_bind]
  rw [ensure_of hn, Result.ok_bind, KtClient.checkUpdatedBounds]
  rw [hbounds, Result.context_ok, Result.ok_bind, hfrontier, hreader,
    Result.ok_bind, hwalk, Result.ok_bind]
  dsimp only
  rw [List.flatMap_nil, hcommitted, Result.ok_bind]
  rfl

/-- A client takes over the head of a log of which it is shown the last entry only. -/
theorem PlainClient.accepts {c : KtClient} {maxBehind : ℕ} (h : PlainClient c maxBehind) (n m : ℕ)
    (leaves : List Octets) (hlen : leaves.length = n) (hleaf : ∀ l ∈ leaves, l.length = 32)
    (hn : 0 < n) (hn' : n ≤ 2 ^ 62) (hfrontier : getFrontier n = [n - 1]) (hm : m < n)
    (hret : RetainsPeaks Primitives.ideal c.retainedSubtrees leaves m)
    (hstate : ∀ prev ∈ c.state, prev.treeSize < n) {ts : U64} {prefixRoot : Octets}
    (hlast : leafAt leaves (n - 1) = logLeafValue Primitives.ideal ts prefixRoot) (now : U64) :
    ∃ env resp c', env.now = some now ∧ resp.fullTreeHead.map FullTreeHead.headType = some .updated ∧
      Accepted Primitives.ideal env c (.distinguished none resp) [(n - 1, ts, prefixRoot)] c' ∧
      PlainClient c' maxBehind ∧ RetainsPeaks Primitives.ideal c'.retainedSubtrees leaves n ∧
      c'.state = some ⟨n, logRoot Primitives.ideal leaves, now⟩ := by
  obtain ⟨sigs, hsigs⟩ :=
    KtClient.exists_signature h.configured n (length_logRoot (P := Primitives.ideal) hleaf)
  have hne : leaves ≠ [] := List.length_pos_iff.1 (by omega)
  let fth : FullTreeHead := ⟨.updated, some ⟨n, asI64 now, sigs⟩, none⟩
  obtain ⟨captured, retained, hret', hcommit⟩ : ∃ captured retained,
      RetainsPeaks Primitives.ideal retained leaves leaves.length ∧
      c.verifyHeadAndCommit Primitives.ideal fth leaves.length (some now) true [n - 1]
        (leavesAt leaves [n - 1]) (neededValues Primitives.ideal leaves [n - 1] m) [] =
          .ok (captured, { c with
            retainedHead := some ⟨n, asI64 now, sigs⟩
            state := some ⟨leaves.length, logRoot Primitives.ideal leaves, now⟩
            retainedSubtrees := retained }) :=
    KtClient.verifyHeadAndCommit_honest (by rw [h.mode]; decide) (hlen ▸ hn') hne
      (by simp; omega) (by rw [hlen]; simp) (by omega) hret rfl (by rw [hlen]; exact hsigs _)
  have hleaves : leavesAt leaves [n - 1] = [logLeafValue Primitives.ideal ts prefixRoot] := by
    rw [leavesAt, List.map_singleton, hlast]
  rw [hlen, hleaves] at hcommit
  have hverified := KtClient.verifyDistinguished_last (by omega) hfrontier h.window hstate rfl rfl
    hcommit
  exact ⟨_, _, _, rfl, rfl, .distinguished hverified, ⟨h.mode, h.window, h.behind, h.configured⟩,
    hlen ▸ hret', rfl⟩

/-- A configuration in contact monitoring mode with a tolerance of ten milliseconds. -/
def watchingConfig : PublicConfig where
  cipherSuite := 1
  mode := deploymentModeContactMonitoring
  serverSigPk := Octets.zeros 32
  vrfPublicKey := []
  leafPublicKey := none
  auditorPublicKey := none
  auditorStartPos := 0
  maxAuditorLag := 0
  maxAhead := 10
  maxBehind := 10
  reasonableMonitoringWindow := 2 ^ 64
  maximumLifetime := none

/-- A new client with it. -/
theorem exists_watchingClient : ∃ c, KtClient.withChannel Primitives.ideal watchingConfig = .ok c ∧
    PlainClient c 10 ∧ c.state = none ∧
      RetainsPeaks Primitives.ideal c.retainedSubtrees [] 0 :=
  ⟨_, rfl, ⟨rfl, rfl, rfl, _, rfl⟩, rfl, retainsPeaks_zero _ _⟩

/-- **An old log passes the clock check**: a new client whose clock shows 1000 accepts
the head of a log whose only entry, the rightmost one, carries the timestamp 0. -/
theorem stale_log_accepted : ∃ c env resp c' root,
    KtClient.withChannel Primitives.ideal watchingConfig = .ok c ∧ env.now = some 1000 ∧
      resp.fullTreeHead.map FullTreeHead.headType = some .updated ∧
      Accepted Primitives.ideal env c (.distinguished none resp) [(0, 0, root)] c' ∧
      (∀ state ∈ c'.state, state.treeSize = 1) ∧
      ¬ (1000 ≤ saturatingAdd 0 watchingConfig.maxBehind) := by
  obtain ⟨c, hc, hplain, hstate, hnothing⟩ := exists_watchingClient
  obtain ⟨env, resp, c', hnow, hupd, haccepted, -, -, hsize⟩ := hplain.accepts 1 0
    [logLeafValue Primitives.ideal (0 : U64) (Octets.zeros 32)] rfl (by simp)
    (by decide) (by decide) (by decide) (by decide)
    (hnothing.grow le_rfl List.nil_prefix) (by simp [hstate]) rfl 1000
  exact ⟨c, env, resp, c', _, hc, hnow, hupd, haccepted, by simp [hsize], by decide⟩

/-- A new client is shown the entries of a log of two, each when it is the last one. -/
theorem exists_growing_run : ∃ c r₁ r₂ c' root,
    KtClient.withChannel Primitives.ideal watchingConfig = .ok c ∧
      AcceptedRun Primitives.ideal c [(r₁, [(0, 100, root)]), (r₂, [(1, 50, root)])] c' := by
  obtain ⟨c, hc, hplain, hstate, hnothing⟩ := exists_watchingClient
  let first := logLeafValue Primitives.ideal (100 : U64) (Octets.zeros 32)
  let second := logLeafValue Primitives.ideal (50 : U64) (Octets.zeros 32)
  obtain ⟨env, resp, c', -, -, haccepted, hplain', hret, hsize⟩ := hplain.accepts 1 0 [first] rfl (by simp [first])
    (by decide) (by decide) (by decide) (by decide)
    (hnothing.grow le_rfl List.nil_prefix) (by simp [hstate]) rfl 1000
  obtain ⟨env', resp', c'', -, -, haccepted', -, -, -⟩ := hplain'.accepts 2 1
    [first, second] rfl (by simp [first, second])
    (by decide) (by decide) (by decide) (by decide) (hret.grow (by simp) ⟨[second], rfl⟩)
    (fun prev hprev => by simp [← Option.some.inj (hsize.symm.trans hprev)]) rfl 1001
  exact ⟨c, _, _, c'', _, hc, .cons haccepted (.cons haccepted' (.nil _))⟩

/-- **A later entry with an earlier timestamp**: a client accepts the first entry of a
log with the timestamp 100 and, when the log has grown, the second one with 50. -/
theorem decreasing_log_accepted : ∃ c r₁ r₂ c' d₁ d₂,
    KtClient.withChannel Primitives.ideal watchingConfig = .ok c ∧
      AcceptedRun Primitives.ideal c [(r₁, [d₁]), (r₂, [d₂])] c' ∧
      ¬ (d₁.1 ≤ d₂.1 → d₁.2.1 ≤ d₂.2.1) := by
  obtain ⟨c, r₁, r₂, c', root, hc, hrun⟩ := exists_growing_run
  exact ⟨c, r₁, r₂, c', (0, 100, root), (1, 50, root), hc, hrun, fun h =>
    absurd (h (Nat.zero_le 1)) (show ¬ (100 : U64) ≤ 50 by decide)⟩

/-- The bounds at the head of a log of one entry, as a new client takes it over. -/
theorem head_timestamp_first : ∃ (env : Env) (c c' : KtClient) (th : TreeHead) (root : Octets),
    c'.state = some ⟨th.treeSize, root, asU64 th.timestamp⟩ ∧
      (asU64 th.timestamp).val ≤
        saturatingAdd (env.now.getD (asU64 th.timestamp)).val c.config.maxAhead ∧
      (env.now.getD (asU64 th.timestamp)).val ≤
        saturatingAdd (asU64 th.timestamp).val c.config.maxBehind := by
  obtain ⟨c, -, hplain, hstate, hnothing⟩ := exists_watchingClient
  obtain ⟨env, resp, c', -, hupd, haccepted, -⟩ := hplain.accepts 1 0
    [logLeafValue Primitives.ideal (0 : U64) (Octets.zeros 32)] rfl (by simp)
    (by decide) (by decide) (by decide) (by decide)
    (hnothing.grow le_rfl List.nil_prefix) (by simp [hstate]) rfl 1000
  obtain ⟨fth, hfth, hupd⟩ := Option.map_eq_some_iff.1 hupd
  obtain ⟨th, root, -, hahead, hbehind, hstate', -⟩ := haccepted.head_timestamp hfth hupd
  exact ⟨env, c, c', th, root, hstate', hahead, hbehind⟩

/-- Two responses of a growing log, whose timestamps are monotone one by one. -/
theorem timestamps_monotone_growing : ∃ log : List (Response × List LeafData), log.length = 2 ∧
    ∀ entry ∈ log, entry.2.Pairwise fun a b => a.1 < b.1 ∧ a.2.1 ≤ b.2.1 := by
  obtain ⟨c, r₁, r₂, c', root, -, hrun⟩ := exists_growing_run
  exact ⟨_, rfl, hrun.timestamps_monotone⟩

end KeyTransparency
