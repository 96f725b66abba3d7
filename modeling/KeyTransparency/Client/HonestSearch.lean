/-
# Searches for the greatest version are complete

A client of a log (`KtClient.ClientOf`) retains the peaks of the size it has seen, so
that it is an honest client of the log at every later size
(`KtClient.ClientOf.headOf`).  Whatever that size is, it accepts what an honest server
answers to a search for the greatest version (`greatest_search_complete`).
-/

import KeyTransparency.Client.IssuedCredential

namespace KeyTransparency

open BinaryLadder LogMath MerkleLog Octets

section

variable {P : Primitives} {env : Env} {t : Tree} {c c' : KtClient} {server : PrivateConfig}
  {leaves : List Octets} {label : Octets} {L : LabelLog} {m target : ℕ} {proof : CombinedTreeProof}
  {binaryLadder : List BinaryLadderStep} {epochs : List Epoch}

/-! ### Clients of a log -/

/-- **A client of a log** has accepted responses since it was made for the log's server,
and the head that it trusts, if it has one, is a head of the log, as it is after every
honest response. -/
structure KtClient.ClientOf (P : Primitives) (c : KtClient) (server : PrivateConfig)
    (leaves : List Octets) : Prop where
  reached : ∃ config c₀, KtClient.withChannel P config = .ok c₀ ∧ c₀.Knows P server ∧
    Relation.ReflTransGen (Step P fun _ _ => True) c₀ c
  head : ∀ prev ∈ c.state, prev.treeSize ≤ leaves.length ∧
    prev.rootHash = logRoot P (leaves.take prev.treeSize)

/-- The size that a client has seen. -/
def KtClient.seenSize (c : KtClient) : ℕ := (c.state.map TrustedState.treeSize).getD 0

/-- The commit of a head leaves the keys alone. -/
theorem KtClient.verifyHeadAndCommit_keys {fth : FullTreeHead} {n : ℕ} {timestamp : Option U64}
    {updated : Bool} {positions : List ℕ} {hashes elements : List Octets} {extraWanted : List ℕ}
    {captured : NodeMap}
    (h : c.verifyHeadAndCommit P fth n timestamp updated positions hashes elements extraWanted =
      .ok (captured, c')) : c'.config = c.config ∧ c'.vrfPk = c.vrfPk ∧ c'.sigPk = c.sigPk := by
  unfold verifyHeadAndCommit at h
  obtain ⟨⟨root, captured'⟩, -, h⟩ := Result.bind_eq_ok.1 h
  cases updated with
  | true =>
    simp only [if_true, Result.bind_eq_ok] at h
    obtain ⟨th, -, ⟨⟩, -, h⟩ := h
    split_ifs at h
    · obtain ⟨head, -, auditor, -, h⟩ := by simpa only [Result.bind_eq_ok] using h
      obtain ⟨-, rfl⟩ := Prod.mk.inj (Except.ok.inj h)
      exact ⟨rfl, rfl, rfl⟩
    · obtain ⟨-, rfl⟩ := Prod.mk.inj (Except.ok.inj h)
      exact ⟨rfl, rfl, rfl⟩
  | false =>
    simp only [Bool.false_eq_true, if_false, Result.bind_eq_ok] at h
    obtain ⟨prev, -, ⟨⟩, -, h⟩ := h
    obtain ⟨-, rfl⟩ := Prod.mk.inj (Except.ok.inj h)
    exact ⟨rfl, rfl, rfl⟩

theorem Accepted.knows {r : Response} {data : List LeafData} (h : Accepted P env c r data c')
    (hc : c.Knows P server) : c'.Knows P server := by
  rcases h.takenOver with ⟨fth, n, timestamp, updated, -, htaken⟩ | ⟨-, -, rfl⟩
  · obtain ⟨elements, extraWanted, captured, committed, hcommit, same⟩ := htaken.commit
    obtain ⟨hconfig, hvrf, hsig⟩ := KtClient.verifyHeadAndCommit_keys hcommit
    constructor
    · rw [← same.config, hconfig]
      exact hc.config
    · rw [← same.vrfPk, hvrf]
      exact hc.vrfPk
    · rw [← same.sigPk, hsig]
      exact hc.signatures
  · exact hc

namespace KtClient.ClientOf

theorem knows (h : c.ClientOf P server leaves) : c.Knows P server := by
  obtain ⟨⟨config, c₀, -, hknows, run⟩, -⟩ := h
  induction run with
  | refl => exact hknows
  | tail _ hstep ih =>
    obtain ⟨env, r, data, -, haccepted⟩ := hstep
    exact haccepted.knows ih

/-- **Along a run** no trusted head is empty, and the peaks of its log are retained. -/
theorem retains (hP : Function.Injective P.sha256) (h : c.ClientOf P server leaves) :
    (∀ prev ∈ c.state, 0 < prev.treeSize) ∧
    (c.state = none → c.retainedSubtrees = fun _ => none) ∧
    ∀ prev leaves, c.state = some prev → LogOf P prev.treeSize prev.rootHash leaves →
      RetainsPeaks P c.retainedSubtrees leaves prev.treeSize := by
  obtain ⟨⟨config, c₀, hnew, -, run⟩, -⟩ := h
  induction run with
  | refl =>
    simp only [withChannel, Result.bind_eq_ok] at hnew
    obtain ⟨-, -, pk, -, hnew⟩ := hnew
    obtain rfl := Except.ok.inj hnew
    exact ⟨fun _ h => (by cases h), fun _ => rfl, fun _ _ h => (by cases h)⟩
  | tail _ hstep ih =>
    obtain ⟨env, r, data, -, haccepted⟩ := hstep
    obtain ⟨hpos, hnone, hpeaks⟩ := ih
    refine ⟨haccepted.state_pos hpos, fun hstate => ?_, fun prev leaves hstate hlog =>
      haccepted.retainsPeaks hP hpeaks hstate hlog⟩
    rcases haccepted.takenOver with ⟨fth, n, timestamp, updated, -, htaken⟩ | ⟨-, -, rfl⟩
    · -- a head that was taken over is trusted
      obtain ⟨elements, extraWanted, captured, committed, hcommit, same⟩ := htaken.commit
      obtain ⟨head, hhead, -⟩ := KtClient.verifyHeadAndCommit_derived htaken.head hcommit
      rw [← same.state, hhead] at hstate
      cases hstate
    · exact hnone hstate

theorem seenSize_le (h : c.ClientOf P server leaves) : c.seenSize ≤ leaves.length := by
  unfold seenSize
  cases hstate : c.state with
  | none => exact Nat.zero_le _
  | some prev => exact (h.head prev hstate).1

/-- **A client of a log is an honest client** of what it has seen of the log. -/
theorem honestClient (hP : Function.Injective P.sha256) (h : c.ClientOf P server leaves)
    (hn : leaves.length ≤ 2 ^ 62) (hdigest : ∀ l ∈ leaves, l.length = 32) :
    HonestClient P c leaves c.seenSize := by
  obtain ⟨hpos, hnone, hpeaks⟩ := h.retains hP
  unfold seenSize
  cases hstate : c.state with
  | none =>
    refine ⟨?_, fun prev hprev => ?_, fun _ => rfl, fun _ => hstate⟩
    · rw [hnone hstate]
      exact fun k i => (if_neg List.not_mem_nil).symm
    · rw [hstate] at hprev
      cases hprev
  | some prev =>
    obtain ⟨hle, hroot⟩ := h.head prev hstate
    have hlen : (leaves.take prev.treeSize).length = prev.treeSize := List.length_take_of_le hle
    have hlog : LogOf P prev.treeSize prev.rootHash (leaves.take prev.treeSize) :=
      ⟨hlen, hle.trans hn, fun l hl => hdigest l (List.mem_of_mem_take hl), hroot⟩
    have hlt := hpos prev hstate
    refine ⟨?_, fun prev' hprev' => ?_, fun hnone' => ?_, fun hzero => ?_⟩
    · exact (hpeaks prev _ hstate hlog).grow hlen.ge (List.take_prefix _ _)
    · rw [hstate] at hprev'
      obtain rfl := Option.some.inj hprev'
      exact ⟨rfl, hroot⟩
    · rw [hstate] at hnone'
      cases hnone'
    · exact absurd hzero hlt.ne'

end KtClient.ClientOf

/-! ### The head -/

/-- The timestamp of the head that a client has after a server's answer. -/
def KtClient.headTimestamp (c : KtClient) (t : Tree) : U64 :=
  match c.state with
  | some prev => if prev.treeSize = t.treeSize then prev.timestamp
    else t.latest.elim 0 fun th => asU64 th.timestamp
  | none => t.latest.elim 0 fun th => asU64 th.timestamp

/-- **The heads of an honest server and of a client of its log are in order**, when the
one that the client will have is in time. -/
theorem KtClient.ClientOf.meets (hP : Function.Injective P.sha256) (h : HonestLog P t epochs)
    (hauditors : t.auditors = []) (hmode : t.config.mode ≠ deploymentModeThirdPartyAuditing)
    (hlabel : label.length < 256) (hdist : Distinct P t.config epochs label)
    (hc : c.ClientOf P t.config (leavesOf P epochs)) (h₀ : 0 < epochs.length)
    (hclock : c.checkTimestampBounds env (c.headTimestamp t) = .ok ()) :
    c.Meets P env t (h.labelLog hlabel hdist) c.seenSize (c.headTimestamp t) := by
  have hleaves := h.leaves_eq hlabel hdist
  have hlen : (leavesOf P epochs).length = epochs.length := by simp [leavesOf]
  have hsize : t.treeSize = epochs.length := by
    have hserves := h.serves hlabel hdist fun _ => false
    rw [Tree.without_none] at hserves
    exact hserves.size
  have hconfig : c.config.mode = t.config.mode := by rw [hc.knows.config]; rfl
  constructor
  case client =>
    rw [hleaves]
    exact hc.honestClient hP (hlen ▸ h.run.size_le) fun l hl => by
      rw [← hleaves] at hl
      obtain ⟨ts, root, -, rfl⟩ := LabelLog.isLogLeaf _ l hl
      exact length_logLeafValue P ts root
  case known => exact hc.seenSize_le.trans_eq hlen
  case newer =>
    intro hlt
    have hlatest : t.latest.elim 0 TreeHead.treeSize = epochs.length := hsize
    cases hth : t.latest with
    | none =>
      rw [hth] at hlatest
      exact absurd hlatest h₀.ne
    | some th =>
      obtain ⟨now, hsigned⟩ := h.run.headSigned th hth
      refine ⟨th, rfl, ?_, ?_⟩
      · unfold headTimestamp
        unfold seenSize at hlt
        rw [hth, hsize]
        cases hstate : c.state with
        | none => rfl
        | some prev =>
          rw [hstate] at hlt
          exact (if_neg (show ¬prev.treeSize = epochs.length from ne_of_lt hlt)).symm
      · rw [hleaves]
        exact KtClient.verifyTreeHeadSignature_signHead hc.knows.config hc.knows.signatures hsigned
  case same =>
    intro heq
    have heq' : c.seenSize = epochs.length := heq
    unfold seenSize at heq'
    unfold headTimestamp
    cases hstate : c.state with
    | none =>
      rw [hstate] at heq'
      exact absurd heq' h₀.ne
    | some prev =>
      rw [hstate] at heq'
      refine ⟨prev, rfl, ?_⟩
      dsimp only
      rw [hsize, if_pos (show prev.treeSize = epochs.length from heq')]
  case clock => exact hclock
  case audited => exact fun hmode' => absurd (hconfig ▸ hmode') hmode
  case unaudited => exact fun _ => hauditors

namespace KtClient.Meets

variable {H : U64}

theorem headOf (h : c.Meets P env t L m H) (hmode : c.config.mode ≠ deploymentModeThirdPartyAuditing)
    (ht : t.treeSize = L.size) (h₀ : 0 < L.size) :
    c.HeadOf P L m (t.getFullTreeHead (c.state.map TrustedState.treeSize)) (decide (m < L.size)) where
  mode := hmode
  retained := h.client.retains
  known := h.known
  newer hnewer := by
    have hlt := of_decide_eq_true hnewer
    obtain ⟨th, hth, -, hsigned⟩ := h.newer hlt
    refine ⟨th, ?_, hsigned⟩
    rw [h.head_eq ht h₀, if_pos hlt, hth]
  same hsame := by
    have hknown := h.known
    have heq : m = L.size := by
      have := of_decide_eq_false hsame
      omega
    obtain ⟨prev, hprev, -⟩ := h.same heq
    obtain ⟨hsize, hroot⟩ := h.client.state prev hprev
    refine ⟨heq, prev, hprev, hsize.trans heq, ?_⟩
    rw [hroot, heq, ← L.length_leaves P, List.take_length]

end KtClient.Meets

/-! ### The search -/

/-- The loop of a search is the loop over a frontier with the search's step. -/
theorem KtClient.greatestWalk_eq {commitment : Octets} {rightmost : ℕ} {entries : List ℕ} :
    ∀ {first : Option ℕ} {s : SearchState},
    c.greatestWalk P label target binaryLadder commitment rightmost entries first s =
      frontierWalk (fun entry => c.verifyEntryLadder P label target binaryLadder commitment true
        (entry == rightmost) entry) entries first s := by
  induction entries with
  | nil => exact fun {_ _} => rfl
  | cons entry entries ih =>
    intro first s
    unfold greatestWalk frontierWalk
    exact congrArg _ (funext fun _ => ih)

/-- **The walk of a search for the greatest version** ends with the first entry of the
frontier that holds it. -/
theorem KtClient.searchWalk_honest (ht : Transcript P L (L.greatestVisits target) m proof)
    (h₀ : 0 < L.size) (hn : L.size ≤ 2 ^ 62)
    (hwire : L.Wire (some target) (laddersOf (L.greatestVisits target)) (baseBinaryLadder target)
      binaryLadder) (hverify : c.CanVerify P label L)
    (hgreatest : L.greatest (L.size - 1) = some target) {reader : ProofReader}
    (hreader : reader.At L proof (entriesOf (frontierVisits L.size)) 0) :
    ∃ terminal s, L.firstWith target = some terminal ∧
      c.searchWalk P label none L.size target binaryLadder (L.commitment target)
        ⟨reader, .new (baseBinaryLadder target), fun _ => none⟩ = .ok (terminal, s) ∧
      s.Searching P L proof target (getFrontier L.size) := by
  obtain ⟨s, hrun, -, hs⟩ := frontierWalk_eq
    (fun entry => c.verifyEntryLadder P label target binaryLadder (L.commitment target) true
      (entry == L.size - 1) entry) (L.relation target)
    (fun seen rest s => seen ++ rest = getFrontier L.size ∧ s.Searching P L proof target seen)
    (fun seen e rest s h => by
      obtain ⟨pp, reader, ladders, entryRoots, hpp, hladder, hrecord, hnext⟩ :=
        h.2.next ht hn h.1 hwire hverify hgreatest
      refine ⟨⟨reader, ladders, entryRoots⟩, ?_, by rw [List.append_assoc]; exact h.1, hnext⟩
      unfold verifyEntryLadder
      rw [hpp, Result.ok_bind]
      dsimp only
      rw [hladder, Result.context_ok, Result.ok_bind]
      dsimp only
      rw [hrecord]
      rfl) (getFrontier L.size) [] none _ ⟨rfl, SearchState.searching_start hreader⟩
  obtain ⟨terminal, hterminal⟩ := LabelLog.exists_firstWith h₀ hn hgreatest
  rw [Option.none_or, LabelLog.find?_relation hn hgreatest, hterminal] at hrun
  refine ⟨terminal, s, hterminal, ?_, hs⟩
  unfold searchWalk
  dsimp only
  rw [getLast?_getFrontier h₀ hn]
  dsimp only [Option.elim]
  rw [Result.ok_bind, greatestWalk_eq, hrun]
  rfl

/-- **A client accepts the answer** to a search for the greatest version. -/
theorem KtClient.verifySearch_honest {H : U64} (hmeets : c.Meets P env t L m H)
    (hmode : c.config.mode ≠ deploymentModeThirdPartyAuditing) (hsize : t.treeSize = L.size)
    (h₀ : 0 < L.size) (hn : L.size ≤ 2 ^ 62) (hverify : c.CanVerify P label L)
    (hgreatest : L.greatest (L.size - 1) = some target) {value : UpdateValue} {opening : Octets}
    (hcommit : commit P label target value.value none opening = .ok (L.commitment target))
    (ht : Transcript P L (L.greatestVisits target) m proof)
    (hwire : L.Wire (some target) (laddersOf (L.greatestVisits target)) (baseBinaryLadder target)
      binaryLadder) (hlength : binaryLadder.length = (baseBinaryLadder target).length) :
    ∃ v committed head, c.verifySearch P env label none
        ⟨some (t.getFullTreeHead (c.state.map TrustedState.treeSize)), some target, opening, some value,
          binaryLadder, some proof⟩ = .ok (v, committed) ∧
      v.targetVersion = target ∧ L.firstWith target = some v.terminal ∧
      committed.state = some head ∧ head.treeSize = L.size ∧ head.rootHash = logRoot P (L.leaves P) := by
  obtain ⟨reader, hreader, hat⟩ := ProofReader.frontier_honest ht (List.prefix_append _ _)
  obtain ⟨terminal, s, hterminal, hwalk, hs⟩ :=
    searchWalk_honest ht h₀ hn hwire hverify hgreatest hat
  obtain ⟨captured, head, th, retained, hfinish, hheadSize, hheadRoot, -⟩ :=
    @KtClient.finishAndCommit_honest P L _ _ _ _ _ _ (hmeets.headOf hmode hsize h₀) hn h₀ ht
      (LabelLog.mem_greatestVisits.2 (last_mem_getFrontier h₀ hn)) (some H) _ hs.follows.reader _
      hs.follows.roots []
  refine ⟨⟨terminal, target, s.ladders, L.data P (L.greatestVisits target)⟩,
    { c with retainedHead := th, state := some head, retainedSubtrees := retained }, head, ?_, rfl,
    hterminal, rfl, hheadSize, hheadRoot⟩
  unfold verifySearch
  dsimp only
  rw [okOr_some, Result.ok_bind, okOr_some, Result.ok_bind, hmeets.treeSizeForFth_eq hsize h₀, Result.ok_bind]
  dsimp only
  rw [ensure_of h₀.ne', Result.ok_bind, okOr_some, Result.ok_bind, Option.none_or, okOr_some, Result.ok_bind,
    if_pos rfl, ensure_of fun _ => hlength, Result.ok_bind, hcommit, Result.context_ok, Result.ok_bind,
    hmeets.checkUpdatedBounds_eq, Result.ok_bind, hreader, Result.ok_bind, hwalk, Result.ok_bind]
  dsimp only
  rw [hs.slots, ensure_of hlength, Result.ok_bind, hfinish]
  rfl

/-- **Searches for the greatest version are complete.**  A client of a log, at any size it
has seen, accepts what an honest server of the log answers to a search for the greatest
version of a label, unless this version is erased: the version that it accepts is the
greatest one, the value the stored one, and it is again a client of the log.  The binary
ladder has the base ladder's steps in its order, with the commitments that the ladders of
the frontier's entries need. -/
theorem greatest_search_complete (hP : Function.Injective P.sha256) (h : HonestLog P t epochs)
    (hmode : t.config.mode = deploymentModeContactMonitoring) (hauditors : t.auditors = [])
    (hlabel : label.length < 256) (hdist : Distinct P t.config epochs label) (gone : ℕ → Bool) {g : ℕ}
    (hg : (h.labelLog hlabel hdist).greatest (epochs.length - 1) = some g) {value : UpdateValue}
    {opening : Octets} (hstored : (t.without gone).extractValueAndOpening (t.store.history label) g =
      .ok (value, opening))
    (hc : c.ClientOf P t.config (leavesOf P epochs))
    (hclock : c.checkTimestampBounds env (c.headTimestamp t) = .ok ())
    (hsave : ∀ c', env.saveState c' = .ok ()) :
    ∃ resp v c', (t.without gone).search P ⟨c.state.map TrustedState.treeSize, label, none⟩ = .ok resp ∧
      resp.version = some g ∧ resp.value = some value ∧
      c.verifySearch P env label none resp = .ok (v, c') ∧ v.targetVersion = g ∧
      (h.labelLog hlabel hdist).firstWith g = some v.terminal ∧
      c.verifySearchResponse P env label none resp = (.ok (), c'.retain label v) ∧
      (c'.retain label v).ClientOf P t.config (leavesOf P epochs) ∧
      resp.binaryLadder.length = (baseBinaryLadder g).length ∧
      (h.labelLog hlabel hdist).Wire (some g) ((getFrontier epochs.length).map fun e =>
        (e, (h.labelLog hlabel hdist).searchLadder g e)) (baseBinaryLadder g) resp.binaryLadder := by
  have h₀ : 0 < epochs.length := by
    refine List.length_pos_iff.2 fun hnil => ?_
    subst hnil
    cases hg
  have hn := h.run.size_le
  have hs := h.serves hlabel hdist gone
  have hmode' : t.config.mode ≠ deploymentModeThirdPartyAuditing := by rw [hmode]; decide
  have hmeets := hc.meets hP h hauditors hmode' hlabel hdist h₀ hclock
  have hsmall := (h.labelLog hlabel hdist).small (show epochs.length - 1 < epochs.length by omega) hg
  have hcommit := hs.opened g hsmall value opening hstored
  obtain ⟨proof, steps, htraverse, htranscript, hwire, hlength⟩ := Tree.traverseGreatestSearch_honest hs
    hauditors h₀ hn hmeets.known hg hstored
  have hconfig : c.config.mode ≠ deploymentModeThirdPartyAuditing := by
    rw [hc.knows.config]
    exact hmode'
  obtain ⟨v, c', head, hverified, hversion, hterminal, hhead, hheadSize, hheadRoot⟩ :=
    KtClient.verifySearch_honest hmeets hconfig hs.size h₀ hn (hc.knows.canVerify h hlabel hdist) hg hcommit
      htranscript hwire hlength
  have hresponse : c.verifySearchResponse P env label none
      ⟨some (t.getFullTreeHead (c.state.map TrustedState.treeSize)), some g, opening, some value, steps,
        some proof⟩ = (.ok (), c'.retain label v) := by
    unfold KtClient.verifySearchResponse
    rw [hverified]
    dsimp only
    rw [hsave]
  refine ⟨_, v, c', ?_, rfl, rfl, hverified, hversion, hterminal, hresponse, ⟨?_, ?_⟩, hlength, ?_⟩
  · unfold Tree.search
    rw [Tree.treeSize_without, if_neg (show ¬t.treeSize = 0 from hs.size.trans_ne h₀.ne')]
    dsimp only
    have hlast : Tree.traverseGreatestSearch P (t.without gone) epochs.length label
        ((c.state.map TrustedState.treeSize).getD 0) = _ := htraverse
    rw [show t.treeSize = epochs.length from hs.size, hlast, Result.ok_bind, if_pos rfl]
    rfl
  · obtain ⟨config, c₀, hnew, hknows, run⟩ := hc.reached
    exact ⟨config, c₀, hnew, hknows, run.tail ⟨env, _, _, trivial, .search hverified (hsave c')⟩⟩
  · intro prev hprev
    obtain rfl : head = prev := Option.some.inj (hhead.symm.trans hprev)
    have hlen := (h.labelLog hlabel hdist).length_leaves P
    rw [h.leaves_eq hlabel hdist] at hheadRoot hlen
    refine ⟨(hheadSize.trans hlen.symm).le, ?_⟩
    rw [hheadRoot, hheadSize, ← hlen, List.take_length]
  · rw [LabelLog.laddersOf_greatestVisits] at hwire
    exact hwire

end

/-- Two entries, with a version of the label in each. -/
def renewedPlan : List (U64 × List Octets) := [(10, [[]]), (20, [[0], []])]

/-- A client without a head finds the second version. -/
theorem greatest_search_complete_renewed : ∃ (t : Tree) (env : Env) (resp : SearchResponse)
    (v : KtClient.Verified) (c' : KtClient),
    t.search Primitives.ideal ⟨none, [], none⟩ = .ok resp ∧ resp.version = some 1 ∧
      (sampleClient 15).verifySearchResponse Primitives.ideal env [] none resp = (.ok (), c'.retain [] v) := by
  obtain ⟨t, epochs, h, hconfig, hauditors, hplan, hdist, -⟩ := exists_plannedLog 15 renewedPlan
    (by decide) (by decide) (by decide) (by decide) (by decide)
  have hlength : epochs.length = 2 := by
    have hplanned := congrArg List.length hplan
    rwa [List.length_map] at hplanned
  have hlabel : ([] : Octets).length < 256 := by decide
  have hcount : ∀ e, versionCount epochs [] e =
      ((renewedPlan.take (e + 1)).flatMap Prod.snd).count [] := fun e => by
    rw [versionCount_planned, hplan]
  have hlast : (h.labelLog hlabel hdist).greatest (epochs.length - 1) = some 1 := by
    change lastVersion (versionCount epochs [] (epochs.length - 1)) = some 1
    rw [hlength, hcount]
    rfl
  obtain ⟨p, hp⟩ : ∃ p, (1, p) ∈ t.store.history [] :=
    h.exists_position (e := 1) (by rw [hcount]; decide)
  obtain ⟨⟨value, opening⟩, hopen⟩ := h.stored hp
  have hclock : (sampleClient 15).checkTimestampBounds ⟨none, fun _ => .ok ()⟩
      ((sampleClient 15).headTimestamp t) = .ok () := by
    refine KtClient.checkTimestampBounds_eq_ok.2 ?_
    rw [Option.getD_none, saturatingAdd, saturatingAdd]
    omega
  obtain ⟨resp, v, c', hsearch, hversion, -, -, -, -, hresponse, -⟩ := greatest_search_complete
    Primitives.ideal_sha256_injective h (by rw [hconfig]; rfl) hauditors hlabel hdist (fun _ => false) hlast
    (by rw [Tree.without_none]; exact hopen) (c := sampleClient 15)
    ⟨⟨_, _, withChannel_sampleClient 15, hconfig ▸ sampleClient_knows 15, .refl⟩, fun prev hprev => by
      cases hprev⟩ hclock fun _ => rfl
  rw [Tree.without_none] at hsearch
  exact ⟨t, _, resp, v, c', hsearch, hversion, hresponse⟩

end KeyTransparency
