/-
# When searches for a fixed version are complete

Both walks of a search come to the same last entry, and only when the version is not the
greatest one there and an entry of the path is expired do they look for an entry that
vouches for it at different places: the server among all distinguished entries left of the
one that brought the version, the client among the entries that the path went right at.
The last entry itself is not one of these, so that a client rejects a search that only its
last entry vouches for (`LabelLog.Overlooked`); this is the only case
(`fixed_search_accepted_iff`).
-/

import KeyTransparency.Client.FixedWalk
import KeyTransparency.Client.HonestSearch

namespace KeyTransparency

open BinaryLadder InOrder LogMath MerkleLog Octets

/-! ### The entry that is overlooked -/

namespace LabelLog

/-- **An entry is overlooked** by a search for a version: it is distinguished, not expired,
and lacks the version, which the next entry has beneath a greater one; it has no right
child; and the ancestors on its left, of which there is one, are all expired. -/
structure Overlooked (L : LabelLog) (lifetime : Option ℕ) (target : ℕ) (dset : List ℕ) (p : ℕ) : Prop where
  next : p + 1 < L.size
  lacks : (L.greatest p).all (· < target) = true
  brings : (L.greatest (p + 1)).any (target < ·) = true
  distinguished : p ∈ dset
  unexpired : L.expired lifetime p = false
  last : ibstRightChild p L.size = none
  passed : ∃ a ∈ L.pathTo p, a < p
  expired : ∀ a ∈ L.pathTo p, a < p → L.expired lifetime a = true

variable {L : LabelLog} {lifetime : Option ℕ} {target z p : ℕ} {dset : List ℕ} {visits : List Visit}
  {rmw : ℕ} {bounds : U64 × U64}

theorem goes_eq_lt : L.goes lifetime target z = .lt ↔
    L.expired lifetime z = true ∨ (L.greatest z).all (· < target) = true := by
  unfold goes
  cases L.expired lifetime z with
  | true => simp
  | false => simp [relation_eq_lt]

theorem vouches_iff : L.vouches lifetime dset z = true ↔ z ∈ dset ∧ L.expired lifetime z = false := by
  unfold vouches
  simp

/-- **Entries stay unexpired** further right. -/
theorem unexpired_of_le {e e' : ℕ} (hle : e ≤ e') (hlt : e' < L.size) (h : L.expired lifetime e = false) :
    L.expired lifetime e' = false := by
  by_contra hexp
  rw [expired_of_le hle hlt (by simpa using hexp)] at h
  cases h

namespace Overlooked

theorem goes (h : L.Overlooked lifetime target dset p) : L.goes lifetime target p = .lt :=
  goes_eq_lt.2 (.inr h.lacks)

/-- **A search ends** at the entry that it overlooks. -/
theorem endsAt (h : L.Overlooked lifetime target dset p) (hn : L.size < 2 ^ 64) :
    EndsAt (L.goes lifetime target) L.size (L.pathTo p) p := by
  have hnext := h.next
  obtain ⟨g, hg, htarget⟩ := (Option.any_eq_true _ _).1 h.brings
  constructor
  case right => exact fun a ha hlt => goes_eq_lt.2 (.inl (h.expired a ha hlt))
  case left =>
    intro a ha hlt
    have ha' : a < L.size := (ibstDirectPathLoop_lt hn ha).trans_eq (Nat.zero_add _)
    obtain ⟨g', hg', hle⟩ := L.growing (show p + 1 ≤ a from hlt) ha' hg
    exact goes_eq_gt.2 ⟨unexpired_of_le hlt.le ha' h.unexpired, g', hg',
      (of_decide_eq_true htarget).trans_le hle⟩
  case stops => exact .inr (.inl ⟨h.goes, h.last⟩)

theorem not_vouched (h : L.Overlooked lifetime target dset p) : ¬ KtClient.Vouched L lifetime target dset p := by
  obtain ⟨a, ha, hlt⟩ := h.passed
  rintro (hhere | hvouched)
  · rw [h.goes] at hhere
    cases hhere
  · obtain ⟨b, hb, hvouches⟩ := List.any_eq_true.1 (hvouched (List.any_eq_true.2
      ⟨a, List.mem_append_left _ ha, h.expired a ha hlt⟩))
    obtain ⟨hb, hb'⟩ := List.mem_filter.1 hb
    have hexpired := h.expired b hb (of_decide_eq_true hb')
    rw [(vouches_iff.1 hvouches).2] at hexpired
    cases hexpired

/-- The version was brought by the next entry. -/
theorem identified (h : L.Overlooked lifetime target dset p) (h₀ : 0 < L.size) (hn : L.size < 2 ^ 64) :
    L.identified lifetime target (L.pathTo p ++ [p]) = some (p + 1) := by
  have hends := h.endsAt hn
  have hlt := h.next
  have hlevel : Nat.log2 L.size < 65 := by
    have := (Nat.log2_lt (show L.size ≠ 0 by omega)).2 hn
    omega
  have hnext : p + 1 ∈ L.pathTo p := by
    rcases @Block.next_ancestor _ _ hn h.last _ _ _ 65 (.root h₀) hlevel (by omega) (by omega) with hend | hmem
    · omega
    · rwa [Nat.zero_mul] at hmem
  refine List.min?_eq_some_iff.2 ⟨List.mem_filter.2 ⟨List.mem_append_left _ hnext,
    decide_eq_true (hends.left _ hnext (by omega))⟩, fun a ha => ?_⟩
  obtain ⟨ha, hgt⟩ := List.mem_filter.1 ha
  have hgt' := of_decide_eq_true hgt
  rcases Nat.lt_trichotomy a p with hap | rfl | hap
  · rcases List.mem_append.1 ha with ha | ha
    · rw [hends.right a ha hap] at hgt'
      cases hgt'
    · rw [List.mem_singleton.1 ha] at hap
      omega
  · rw [h.goes] at hgt'
    cases hgt'
  · exact hap

end Overlooked

/-! ### Where the version was brought -/

section

variable {first : ℕ} (hends : EndsAt (L.goes lifetime target) L.size (L.pathTo z) z)
  (hother : L.goes lifetime target z ≠ .eq)
  (hfirst : L.identified lifetime target (L.pathTo z ++ [z]) = some first)

include hfirst in
theorem identified_le {a : ℕ} (ha : a ∈ L.pathTo z ++ [z]) (hgt : L.goes lifetime target a = .gt) :
    first ≤ a :=
  (List.min?_eq_some_iff.1 hfirst).2 a (List.mem_filter.2 ⟨ha, decide_eq_true hgt⟩)

include hends hother hfirst in
/-- The version was brought right of the path's end, if not there. -/
theorem identified_cases : z < first ∨ first = z ∧ isLeaf z = true := by
  obtain ⟨hmem, hgoes⟩ := mem_of_identified hfirst
  have hhere : first = z → isLeaf z = true := by
    rintro rfl
    exact ((hends.stops.resolve_left hother).resolve_left fun h => by rw [hgoes] at h; cases h.1).2
  rcases List.mem_append.1 hmem with hmem | hmem
  · rcases Nat.lt_trichotomy first z with hlt | heq | hgt
    · rw [hends.right first hmem hlt] at hgoes
      cases hgoes
    · exact .inr ⟨heq, hhere heq⟩
    · exact .inl hgt
  · exact .inr ⟨List.mem_singleton.1 hmem, hhere (List.mem_singleton.1 hmem)⟩

include hends hother hfirst in
/-- **Right of the path's end** it was brought by an ancestor, and the next entry is one. -/
theorem next_mem_pathTo (h₀ : 0 < L.size) (hn : L.size < 2 ^ 64) (hz : z < L.size) (hlt : z < first) :
    L.goes lifetime target z = .lt ∧ ibstRightChild z L.size = none ∧ z + 1 ∈ L.pathTo z := by
  have hlevel : Nat.log2 L.size < 65 := by
    have := (Nat.log2_lt (show L.size ≠ 0 by omega)).2 hn
    omega
  have hsize : first < L.size := by
    rcases List.mem_append.1 (mem_of_identified hfirst).1 with hmem | hmem
    · exact (ibstDirectPathLoop_lt hn hmem).trans_eq (Nat.zero_add _)
    · rwa [List.mem_singleton.1 hmem]
  obtain ⟨hlack, hchild⟩ := (hends.stops.resolve_left hother).resolve_right fun h => by
    have := identified_le hfirst (List.mem_append_right _ List.mem_cons_self) h.1
    omega
  refine ⟨hlack, hchild, ?_⟩
  rcases @Block.next_ancestor _ _ hn hchild _ _ _ 65 (.root h₀) hlevel (by omega) (by omega) with hend | hmem
  · omega
  · rwa [Nat.zero_mul] at hmem

end

/-- **A search that is served but not taken over** overlooks its last entry. -/
theorem overlooked_of_served (h₀ : 0 < L.size) (hn : L.size < 2 ^ 64)
    (hdset : Bounds L.timestamp rmw L.size dset (Nat.log2 L.size) 0 L.size bounds true)
    (hlt : ∀ d ∈ dset, d < L.size) (hz : z < L.size)
    (hends : EndsAt (L.goes lifetime target) L.size (L.pathTo z) z)
    (hserved : L.Served lifetime target dset z visits) (hvouched : ¬ KtClient.Vouched L lifetime target dset z) :
    L.Overlooked lifetime target dset z := by
  have hlevel : Nat.log2 L.size < 65 := by
    have := (Nat.log2_lt (show L.size ≠ 0 by omega)).2 hn
    omega
  have hancestors : ∀ d ∈ dset, ∀ a ∈ L.pathTo d, a ∈ dset := fun d hd a ha =>
    hdset.directPath_mem hn hd hlevel (by omega) (by have := hlt d hd; omega) a (by rwa [Nat.zero_mul])
  have hbound : ∀ a ∈ L.pathTo z, a < L.size := fun a ha =>
    (ibstDirectPathLoop_lt hn ha).trans_eq (Nat.zero_add _)
  unfold KtClient.Vouched at hvouched
  push Not at hvouched
  obtain ⟨hother, hany, hnone⟩ := hvouched
  have hpassed : ∀ a ∈ L.pathTo z, a < z → L.vouches lifetime dset a ≠ true := fun a ha halt hvouches =>
    hnone (List.any_eq_true.2 ⟨a, List.mem_filter.2 ⟨ha, decide_eq_true halt⟩, hvouches⟩)
  cases hserved with
  | found here => exact absurd here hother
  | brought elsewhere here vouched =>
    rename_i first
    obtain ⟨d, hdlt, hd⟩ := vouched hany
    obtain ⟨hdmem, hdexp⟩ := vouches_iff.1 hd
    have hdsize := hlt d hdmem
    have hroot : Block L.size (Nat.log2 L.size) 0 L.size := .root h₀
    have hstart : 0 * 2 ^ (Nat.log2 L.size + 1) = 0 := Nat.zero_mul _
    -- the walk's last entry vouches for the version
    have hhere : L.vouches lifetime dset z = true ∧ z < first := by
      rcases Nat.lt_trichotomy d z with hdz | rfl | hdz
      · rcases @Block.ancestor_between _ _ _ hn hdz _ _ _ 65 hroot (by omega) (by omega) (by omega) with
          hmem | hmem | ⟨a, ha, ha', hda, haz⟩
        · rw [hstart] at hmem
          exact absurd hd (hpassed d hmem hdz)
        · have hinner := Block.ancestor_inner hn hdz hroot (by omega) (by omega) (by omega) hmem
          rw [hstart] at hmem
          refine ⟨vouches_iff.2 ⟨hancestors d hdmem z hmem, unexpired_of_le hdz.le hz hdexp⟩,
            (identified_cases hends hother here).resolve_right fun h => ?_⟩
          rw [hinner] at h
          cases h.2
        · rw [hstart] at ha ha'
          exact absurd (vouches_iff.2 ⟨hancestors d hdmem a ha', unexpired_of_le hda.le (hbound a ha) hdexp⟩)
            (hpassed a ha haz)
      · exact ⟨hd, hdlt⟩
      · obtain ⟨-, -, hmem⟩ := next_mem_pathTo hends hother here h₀ hn hz (hdz.trans hdlt)
        have := identified_le here (List.mem_append_left _ hmem) (hends.left _ hmem (by omega))
        omega
    obtain ⟨hvouches, hzfirst⟩ := hhere
    obtain ⟨hlack, hchild, hnext⟩ := next_mem_pathTo hends hother here h₀ hn hz hzfirst
    obtain ⟨hzmem, hzexp⟩ := vouches_iff.1 hvouches
    obtain ⟨-, g, hg, htarget⟩ := goes_eq_gt.1 (hends.left _ hnext (by omega))
    have hexpired : ∀ a ∈ L.pathTo z, a < z → L.expired lifetime a = true := fun a ha halt => by
      by_contra hexp
      exact hpassed a ha halt (vouches_iff.2 ⟨hancestors z hzmem a ha, by simpa using hexp⟩)
    refine ⟨hbound _ hnext, (goes_eq_lt.1 hlack).resolve_left (by rw [hzexp]; simp),
      (Option.any_eq_true _ _).2 ⟨g, hg, decide_eq_true htarget⟩, hzmem, hzexp, hchild, ?_, hexpired⟩
    -- what has expired on the path lies left of the entry
    obtain ⟨a, ha, hexp⟩ := List.any_eq_true.1 hany
    rcases List.mem_append.1 ha with ha | ha
    · refine ⟨a, ha, ?_⟩
      by_contra hle
      rw [unexpired_of_le (show z ≤ a by omega) (hbound a ha) hzexp] at hexp
      cases hexp
    · rw [List.mem_singleton.1 ha, hzexp] at hexp
      cases hexp

end LabelLog

/-! ### The search -/

section

variable {P : Primitives} {env : Env} {t : Tree} {c : KtClient} {label : Octets} {L : LabelLog}
  {lifetime : Option ℕ} {m target z : ℕ} {dset : List ℕ} {visits : List Visit} {epochs : List Epoch}
  {resp : SearchResponse}

/-- **The answer to a search for a version** is accepted when the walk takes the version over,
and rejected as expired otherwise. -/
theorem KtClient.verifySearch_served {H : U64} (hmeets : c.Meets P env t L m H)
    (hmode : c.config.mode ≠ deploymentModeThirdPartyAuditing) (hsize : t.treeSize = L.size)
    (h₀ : 0 < L.size) (hn : L.size ≤ 2 ^ 62) {proof : CombinedTreeProof}
    {binaryLadder : List BinaryLadderStep} {value : UpdateValue} {opening : Octets} {version : Option ℕ}
    (hread : c.ReadsFixed P label L lifetime target visits m proof binaryLadder)
    (hdset : Bounds L.timestamp c.config.reasonableMonitoringWindow L.size dset (Nat.log2 L.size) 0 L.size
      (0, L.timestamp (L.size - 1)) true) (hz : z < L.size)
    (hends : EndsAt (L.goes lifetime target) L.size (L.pathTo z) z)
    (hserved : L.Served lifetime target dset z visits)
    (hcommit : commit P label target value.value none opening = .ok (L.commitment target))
    (hlength : binaryLadder.length = (versionsOf visits).length) :
    (Vouched L lifetime target dset z → ∃ v c', c.verifySearch P env label (some target)
      ⟨some (t.getFullTreeHead (c.state.map TrustedState.treeSize)), version, opening, some value,
        binaryLadder, some proof⟩ = .ok (v, c')) ∧
    (¬ Vouched L lifetime target dset z → c.verifySearch P env label (some target)
      ⟨some (t.getFullTreeHead (c.state.map TrustedState.treeSize)), version, opening, some value,
        binaryLadder, some proof⟩ = fail "Requested version of the label is expired") := by
  have hfrontier : frontierVisits L.size <+: visits := by
    cases hserved with
    | found => exact List.prefix_append _ _
    | brought => exact (List.prefix_append _ _).trans (List.prefix_append _ _)
  obtain ⟨reader, hreader, hat⟩ := ProofReader.frontier_honest hread.transcript hfrontier
  have hladders : laddersOf (frontierVisits L.size) = [] := laddersOf_stamps _
  have hstart : (SearchState.mk reader (.new []) fun _ => none).Tracks P L proof visits
      (frontierVisits L.size) := by
    refine ⟨⟨?_, fun e => ?_⟩, ?_, ⟨List.nil_prefix, fun v out h => by cases h⟩, fun v c h => by cases h⟩
    · rw [hladders]
      exact hat
    · rw [hladders]
      rfl
    · rw [versionsOf, hladders]
      rfl
  obtain ⟨haccepts, hrejects⟩ := simulateFixedSearch_served hread h₀ hn hdset hz hends hserved hstart
  have hsearch : ∃ k, c.verifySearch P env label (some target)
      ⟨some (t.getFullTreeHead (c.state.map TrustedState.treeSize)), version, opening, some value,
        binaryLadder, some proof⟩ = c.simulateFixedSearch P label L.size target binaryLadder
          (L.commitment target) ⟨reader, .new [], fun _ => none⟩ >>= k ∧
      ∀ r, k r = ensure (binaryLadder.length = r.2.ladders.wireIndex.length)
        s!"Binary ladder has {binaryLadder.length} steps but only {r.2.ladders.wireIndex.length} versions were looked up" >>=
          fun _ => c.finishAndCommit P (t.getFullTreeHead (c.state.map TrustedState.treeSize)) L.size (some H)
            (decide (m < L.size)) proof r.2.reader r.2.entryRoots [] >>=
          fun f => .ok (⟨r.1, target, r.2.ladders, f.1⟩, f.2.2) := by
    refine ⟨_, ?_, fun r => rfl⟩
    unfold verifySearch searchWalk
    dsimp only
    rw [okOr_some, Result.ok_bind, okOr_some, Result.ok_bind, hmeets.treeSizeForFth_eq hsize h₀, Result.ok_bind]
    dsimp only
    rw [ensure_of h₀.ne', Result.ok_bind, okOr_some, Result.ok_bind, Option.some_or, okOr_some, Result.ok_bind,
      if_neg (by simp), ensure_of (by simp), Result.ok_bind, hcommit, Result.context_ok, Result.ok_bind,
      hmeets.checkUpdatedBounds_eq, Result.ok_bind, hreader, Result.ok_bind]
    rfl
  obtain ⟨k, hsearch, hk⟩ := hsearch
  rw [hsearch]
  constructor
  · intro hvouched
    obtain ⟨terminal, s, hwalk, htracks⟩ := haccepts hvouched
    obtain ⟨captured, head, th, retained, hfinish, -⟩ :=
      @KtClient.finishAndCommit_honest P L _ _ _ _ _ _ (hmeets.headOf hmode hsize h₀) hn h₀ hread.transcript
        (last_mem_entriesOf h₀ hn hfrontier) (some H) _ htracks.follows.reader _ htracks.follows.roots []
    refine ⟨⟨terminal, target, s.ladders, L.data P visits⟩,
      { c with retainedHead := th, state := some head, retainedSubtrees := retained }, ?_⟩
    rw [hwalk, Result.ok_bind, hk]
    dsimp only
    rw [htracks.slots, ensure_of hlength, Result.ok_bind, hfinish]
    rfl
  · intro hvouched
    rw [hrejects hvouched]
    rfl

/-- **The walks over a log's answer**: the walk ends, the client accepts or rejects what
was served, and the value is the stored one. -/
theorem fixedSearch_decided (hP : Function.Injective P.sha256) (h : HonestLog P t epochs)
    (hmode : t.config.mode = deploymentModeContactMonitoring) (hauditors : t.auditors = [])
    (hlabel : label.length < 256) (hdist : Distinct P t.config epochs label) (gone : ℕ → Bool)
    (hc : c.ClientOf P t.config (leavesOf P epochs))
    (hclock : c.checkTimestampBounds env (c.headTimestamp t) = .ok ()) (h₀ : 0 < epochs.length)
    (hds : t.findDistinguishedNodes epochs.length = .ok dset) (hz : z < epochs.length)
    (hends : EndsAt ((h.labelLog hlabel hdist).goes t.config.maximumLifetime target) epochs.length
      ((h.labelLog hlabel hdist).pathTo z) z)
    (hsearch : (t.without gone).search P ⟨c.state.map TrustedState.treeSize, label, some target⟩ = .ok resp) :
    ∃ value visits, (t.without gone).extractValueAndOpening (t.store.history label) target =
        .ok (value, resp.opening) ∧ resp.value = some value ∧
      (h.labelLog hlabel hdist).Served t.config.maximumLifetime target dset z visits ∧
      (∃ proof, resp.search = some proof ∧ Transcript P (h.labelLog hlabel hdist) visits c.seenSize proof) ∧
      (KtClient.Vouched (h.labelLog hlabel hdist) t.config.maximumLifetime target dset z →
        ∃ v c', c.verifySearch P env label (some target) resp = .ok (v, c')) ∧
      (¬ KtClient.Vouched (h.labelLog hlabel hdist) t.config.maximumLifetime target dset z →
        c.verifySearch P env label (some target) resp =
          fail "Requested version of the label is expired") := by
  have hn := h.run.size_le
  have hs := h.serves hlabel hdist gone
  have hmode' : t.config.mode ≠ deploymentModeThirdPartyAuditing := by rw [hmode]; decide
  have hmeets := hc.meets hP h hauditors hmode' hlabel hdist h₀ hclock
  have hconfig : c.config.mode ≠ deploymentModeThirdPartyAuditing := by
    rw [hc.knows.config]
    exact hmode'
  have hdset := hds
  rw [Tree.findDistinguishedNodes_eq h₀ (hn.trans_lt (by decide)) Nat.lt_log2_self h.timestamp_eq] at hdset
  obtain rfl := Except.ok.inj hdset
  unfold Tree.search at hsearch
  rw [Tree.treeSize_without, if_neg (show ¬t.treeSize = 0 from hs.size.trans_ne h₀.ne')] at hsearch
  dsimp only at hsearch
  rw [show t.treeSize = epochs.length from hs.size] at hsearch
  obtain ⟨data, hdata, hsearch⟩ := Result.bind_eq_ok.1 hsearch
  obtain rfl := Except.ok.inj hsearch
  obtain ⟨visits, value, hserved, hvalue, hopen, htranscript, hwire, hlength⟩ :=
    Tree.traverseFixedSearch_served hs hauditors h₀ hn hmeets.known rfl
      ((Tree.findDistinguishedNodes_without t gone _).trans hds) pairwise_distinguishedIn
      (h.distinguished_lt h₀ hds) hz hends hdata
  -- the version looked for is one of the log
  have hbound : ∀ e ∈ (h.labelLog hlabel hdist).pathTo z ++ [z], e < epochs.length := fun e he =>
    LabelLog.walked_lt hn hz he
  have hsmall : target ≤ maxVersion := by
    cases hserved with
    | found here =>
      have hgreatest : (h.labelLog hlabel hdist).relation target z = .eq := by
        unfold LabelLog.goes at here
        split_ifs at here
        exact here
      exact (h.labelLog hlabel hdist).small hz (LabelLog.relation_eq_eq.1 hgreatest)
    | brought elsewhere here =>
      obtain ⟨hmem, hgoes⟩ := LabelLog.mem_of_identified here
      obtain ⟨-, g, hg, htarget⟩ := LabelLog.goes_eq_gt.1 hgoes
      exact htarget.le.trans ((h.labelLog hlabel hdist).small (hbound _ hmem) hg)
  have hcommit := hs.opened target hsmall value _ hopen
  have hread : c.ReadsFixed P label (h.labelLog hlabel hdist) t.config.maximumLifetime target visits c.seenSize
      data.combinedProof data.binaryLadder :=
    ⟨htranscript, hwire, hc.knows.canVerify h hlabel hdist, by rw [hc.knows.config]; rfl, hsmall⟩
  have hrmw : c.config.reasonableMonitoringWindow = t.config.reasonableMonitoringWindow := by
    rw [hc.knows.config]
    rfl
  have hbounds := Bounds.whole h₀ (h.labelLog hlabel hdist).timestamp t.config.reasonableMonitoringWindow
    ((h.labelLog hlabel hdist).timestamp (epochs.length - 1))
  obtain ⟨haccepts, hrejects⟩ := KtClient.verifySearch_served hmeets hconfig hs.size h₀ hn hread
    (hrmw.symm ▸ hbounds) hz hends hserved hcommit hlength
  exact ⟨value, visits, hopen, hvalue, hserved, ⟨_, rfl, htranscript⟩, hvalue ▸ haccepts, hvalue ▸ hrejects⟩

/-- **A version that an entry of the path brought** is served, if it is stored and an entry
vouches for it. -/
theorem HonestLog.search_brought (h : HonestLog P t epochs) (hauditors : t.auditors = [])
    (hlabel : label.length < 256) (hdist : Distinct P t.config epochs label) (h₀ : 0 < epochs.length)
    (hds : t.findDistinguishedNodes epochs.length = .ok dset) (hz : z < epochs.length)
    (hends : EndsAt ((h.labelLog hlabel hdist).goes t.config.maximumLifetime target) epochs.length
      ((h.labelLog hlabel hdist).pathTo z) z)
    (hother : (h.labelLog hlabel hdist).goes t.config.maximumLifetime target z ≠ .eq) {first : ℕ}
    (hfirst : (h.labelLog hlabel hdist).identified t.config.maximumLifetime target
      ((h.labelLog hlabel hdist).pathTo z ++ [z]) = some first)
    (hvouched : (((h.labelLog hlabel hdist).pathTo z ++ [z]).any
        ((h.labelLog hlabel hdist).expired t.config.maximumLifetime)) = true →
      ∃ d < first, (h.labelLog hlabel hdist).vouches t.config.maximumLifetime dset d = true)
    {value : UpdateValue} {opening : Octets}
    (hstored : t.extractValueAndOpening (t.store.history label) target = .ok (value, opening)) :
    ∃ resp, t.search P ⟨none, label, some target⟩ = .ok resp := by
  have hs := h.serves hlabel hdist fun _ => false
  rw [Tree.without_none] at hs
  have hn := h.run.size_le
  have hsorted := hds
  rw [Tree.findDistinguishedNodes_eq h₀ (hn.trans_lt (by decide)) Nat.lt_log2_self h.timestamp_eq] at hsorted
  obtain rfl := Except.ok.inj hsorted
  obtain ⟨r, hr⟩ := Tree.traverseFixedSearch_brought hs hauditors h₀ hn (Nat.zero_le _) rfl hds
    pairwise_distinguishedIn (h.distinguished_lt h₀ hds) hz hends hother hfirst hvouched hstored
  have hsize : t.treeSize = epochs.length := hs.size
  unfold Tree.search
  rw [if_neg (show ¬t.treeSize = 0 by omega), hsize]
  dsimp only
  have hr' : Tree.traverseFixedSearch P t epochs.length label target 0 = .ok r := hr
  rw [Option.getD_none, hr', Result.ok_bind]
  exact ⟨_, rfl⟩

/-- **Searches for a fixed version are complete but for what their last entry vouches for.**
A client of a log, at any size it has seen, accepts what an honest server of the log answers
to a search for a version, with the stored value, exactly when the log is not empty and has
no entry that the search overlooks. -/
theorem fixed_search_accepted_iff (hP : Function.Injective P.sha256) (h : HonestLog P t epochs)
    (hmode : t.config.mode = deploymentModeContactMonitoring) (hauditors : t.auditors = [])
    (hlabel : label.length < 256) (hdist : Distinct P t.config epochs label) (gone : ℕ → Bool)
    (hc : c.ClientOf P t.config (leavesOf P epochs))
    (hclock : c.checkTimestampBounds env (c.headTimestamp t) = .ok ())
    (hsave : ∀ c', env.saveState c' = .ok ()) (hds : t.findDistinguishedNodes epochs.length = .ok dset)
    (hsearch : (t.without gone).search P ⟨c.state.map TrustedState.treeSize, label, some target⟩ = .ok resp) :
    (∃ value c', (t.without gone).extractValueAndOpening (t.store.history label) target =
        .ok (value, resp.opening) ∧ resp.value = some value ∧
        c.verifySearchResponse P env label (some target) resp = (.ok (), c')) ↔
      0 < epochs.length ∧
        ¬ ∃ p, (h.labelLog hlabel hdist).Overlooked t.config.maximumLifetime target dset p := by
  have hn : epochs.length < 2 ^ 64 := h.run.size_le.trans_lt (by decide)
  constructor
  · rintro ⟨value, c', -, hvalue, haccepted⟩
    have h₀ : 0 < epochs.length := by
      refine Nat.pos_of_ne_zero fun hempty => ?_
      have hsize : t.treeSize = 0 := h.run.sound.1.size.trans hempty
      unfold Tree.search at hsearch
      rw [Tree.treeSize_without, if_pos hsize] at hsearch
      obtain rfl := Except.ok.inj hsearch
      cases hvalue
    refine ⟨h₀, ?_⟩
    rintro ⟨p, hp⟩
    have hlt : p < epochs.length := (Nat.lt_succ_self p).trans hp.next
    obtain ⟨-, -, -, -, -, -, -, hrejects⟩ := fixedSearch_decided hP h hmode hauditors hlabel hdist gone hc hclock h₀
      hds hlt (hp.endsAt hn) hsearch
    unfold KtClient.verifySearchResponse at haccepted
    rw [hrejects hp.not_vouched] at haccepted
    cases haccepted
  · rintro ⟨h₀, hnone⟩
    have hlevel : Nat.log2 epochs.length < 65 := by
      have := (Nat.log2_lt (show epochs.length ≠ 0 by omega)).2 hn
      omega
    obtain ⟨z, -, hz, hends⟩ := Block.exists_endsAt hn
      ((h.labelLog hlabel hdist).goes t.config.maximumLifetime target) (.root h₀) hlevel
    rw [Nat.zero_mul] at hz hends
    rw [Nat.zero_add] at hz
    obtain ⟨value, visits, hopen, hvalue, hserved, -, haccepts, -⟩ := fixedSearch_decided hP h hmode hauditors
      hlabel hdist gone hc hclock h₀ hds hz hends hsearch
    have hbounds := Bounds.whole h₀ (h.labelLog hlabel hdist).timestamp t.config.reasonableMonitoringWindow
      ((h.labelLog hlabel hdist).timestamp (epochs.length - 1))
    have hdset := hds
    rw [Tree.findDistinguishedNodes_eq h₀ hn Nat.lt_log2_self h.timestamp_eq] at hdset
    obtain rfl := Except.ok.inj hdset
    obtain ⟨v, c', hverified⟩ := haccepts (by
      by_contra hvouched
      exact hnone ⟨z, LabelLog.overlooked_of_served h₀ hn hbounds (h.distinguished_lt h₀ hds) hz hends hserved
        hvouched⟩)
    refine ⟨value, c'.retain label v, hopen, hvalue, ?_⟩
    unfold KtClient.verifySearchResponse
    rw [hverified]
    dsimp only
    rw [hsave]

end

/-! ### A search that is overlooked -/

/-- The client of a server that lets versions expire. -/
def expiringClient : KtClient :=
  { sampleClient 1000 with
    config := { watchingConfig with reasonableMonitoringWindow := 1000, maximumLifetime := some 50 } }

theorem expiringClient_knows : expiringClient.Knows Primitives.ideal expiringConfig :=
  ⟨rfl, rfl, (sampleClient_knows 1000).signatures⟩

theorem expiringClient_checks (t : Tree) : expiringClient.checkTimestampBounds ⟨none, fun _ => .ok ()⟩
    (expiringClient.headTimestamp t) = .ok () := by
  refine KtClient.checkTimestampBounds_eq_ok.2 ?_
  rw [Option.getD_none, saturatingAdd, saturatingAdd]
  omega

/-- Four entries that expire, and two versions of the label in the entry after the next one. -/
def overlookedPlan : List (U64 × List Octets) :=
  List.replicate 4 (10, [[0]]) ++ [(1015, [[0]]), (1020, [[], []])]

/-- **The fifth of the six entries is overlooked.** -/
theorem LabelLog.overlooked_fifth {L : LabelLog} (hsize : L.size = 6)
    (htimestamp : ∀ e, L.timestamp e = (overlookedPlan[e]?.map Prod.fst).getD 0)
    (hgreatest : ∀ e, L.greatest e = lastVersion (((overlookedPlan.take (e + 1)).flatMap Prod.snd).count []))
    {dset : List ℕ} (hdset : dset = distinguishedIn (fun p => (L.timestamp p).val) 1000 6 2 0 0
      (L.timestamp 5).val) : L.Overlooked (some 50) 0 dset 4 := by
  have hpath : L.pathTo 4 = [3, 5] := by
    rw [pathTo, hsize]
    decide
  have hexpired : ∀ e < 6, L.expired (some 50) e = decide (e < 4) := fun e he => by
    unfold expired KtClient.isExpired
    rw [hsize, htimestamp, htimestamp]
    obtain rfl | rfl | rfl | rfl | rfl | rfl : e = 0 ∨ e = 1 ∨ e = 2 ∨ e = 3 ∨ e = 4 ∨ e = 5 := by omega
    all_goals rfl
  constructor
  case next => omega
  case lacks =>
    rw [hgreatest]
    rfl
  case brings =>
    rw [hgreatest]
    rfl
  case distinguished =>
    rw [hdset]
    simp only [htimestamp]
    decide
  case unexpired => exact hexpired 4 (by omega)
  case last =>
    rw [hsize]
    decide
  case passed => exact ⟨3, by rw [hpath]; simp, by omega⟩
  case expired =>
    intro a ha hlt
    rw [hpath] at ha
    rw [hexpired a (by omega), decide_eq_true hlt]

/-- **A server that lets versions expire has committed a plan**, and has a client. -/
theorem exists_expiringLog (plan : List (U64 × List Octets))
    (hordered : plan.Pairwise fun p p' => p.1 ≤ p'.1) (hne : ∀ p ∈ plan, p.2 ≠ [])
    (hlabels : ∀ p ∈ plan, ∀ l ∈ p.2, l = [] ∨ l = [0]) (hsize : plan.length ≤ 2 ^ 62)
    (hsmall : (plan.flatMap Prod.snd).length ≤ maxVersion) (hlabel : ([] : Octets).length < 256) :
    ∃ t epochs, ∃ (h : HonestLog Primitives.ideal t epochs)
      (hdist : Distinct Primitives.ideal t.config epochs []),
      t.config = expiringConfig ∧ t.auditors = [] ∧ epochs.length = plan.length ∧
      (∀ e, (h.labelLog hlabel hdist).timestamp e = (plan[e]?.map Prod.fst).getD 0) ∧
      (∀ e, (h.labelLog hlabel hdist).greatest e =
        lastVersion (((plan.take (e + 1)).flatMap Prod.snd).count [])) ∧
      expiringClient.ClientOf Primitives.ideal t.config (leavesOf Primitives.ideal epochs) ∧
      ∀ e v, v < ((plan.take (e + 1)).flatMap Prod.snd).count [] → ∃ value opening,
        t.extractValueAndOpening (t.store.history []) v = .ok (value, opening) := by
  have hshort : ∀ p ∈ plan, ∀ l ∈ p.2, l.length < 256 := fun p hp l hl => by
    rcases hlabels p hp l hl with rfl | rfl <;> simp
  obtain ⟨t, epochs, h, hconfig, hauditors, hplan, -⟩ := @exists_honestLog Primitives.ideal expiringConfig
    ⟨_, rfl⟩ (vrfWorks_ideal _) plan hordered hne hshort hsize hsmall
  refine ⟨t, epochs, h, distinct_planned h hplan hlabels, hconfig, hauditors, ?_, fun e => ?_, fun e => ?_,
    ⟨⟨expiringClient.config, expiringClient, rfl, hconfig ▸ expiringClient_knows, .refl⟩, fun prev hprev => by cases hprev⟩,
    fun e v hv => ?_⟩
  · rw [← hplan, List.length_map]
  · change (epochs[e]?.map Epoch.timestamp).getD 0 = _
    rw [← hplan, List.getElem?_map, Option.map_map]
    rfl
  · change lastVersion (versionCount epochs [] e) = _
    rw [versionCount_planned, hplan]
  · rw [← hplan, ← versionCount_planned] at hv
    obtain ⟨p, hp⟩ : ∃ p, (v, p) ∈ t.store.history [] := h.exists_position hv
    obtain ⟨⟨value, opening⟩, hopen⟩ := h.stored hp
    exact ⟨value, opening, hopen⟩

/-- **The client rejects** the version that its server has looked up. -/
theorem fixed_search_overlooked : ∃ (t : Tree) (epochs : List Epoch) (env : Env) (resp : SearchResponse),
    HonestLog Primitives.ideal t epochs ∧ t.config.mode = deploymentModeContactMonitoring ∧ t.auditors = [] ∧
      expiringClient.ClientOf Primitives.ideal t.config (leavesOf Primitives.ideal epochs) ∧
      expiringClient.checkTimestampBounds env (expiringClient.headTimestamp t) = .ok () ∧
      (∀ c', env.saveState c' = .ok ()) ∧
      t.search Primitives.ideal ⟨none, [], some 0⟩ = .ok resp ∧
      expiringClient.verifySearch Primitives.ideal env [] (some 0) resp =
        fail "Requested version of the label is expired" := by
  have hlabel : ([] : Octets).length < 256 := by decide
  obtain ⟨t, epochs, h, hdist, hconfig, hauditors, hlength, htimestamp, hgreatest, hclient, hstored⟩ :=
    exists_expiringLog overlookedPlan (by decide) (by decide) (by decide) (by decide) (by decide) hlabel
  have hsize : epochs.length = 6 := hlength
  have hn : epochs.length < 2 ^ 64 := h.run.size_le.trans_lt (by decide)
  have hds := Tree.findDistinguishedNodes_eq (k := 2) (show 0 < epochs.length by omega) hn
    (by rw [hsize]; decide) h.timestamp_eq
  obtain ⟨dset, hdset⟩ : ∃ dset, dset = distinguishedIn
      (fun p => ((h.labelLog hlabel hdist).timestamp p).val) 1000 6 2 0 0
        ((h.labelLog hlabel hdist).timestamp 5).val := ⟨_, rfl⟩
  have hoverlooked : (h.labelLog hlabel hdist).Overlooked t.config.maximumLifetime 0 dset 4 := by
    rw [hconfig]
    exact LabelLog.overlooked_fifth hsize htimestamp hgreatest hdset
  have hfound : t.findDistinguishedNodes epochs.length = .ok dset := by
    rw [hds, hconfig, hsize, hdset]
    rfl
  obtain ⟨value, opening, hopen⟩ := hstored 5 0 (by decide)
  obtain ⟨resp, hsearch⟩ := h.search_brought hauditors hlabel hdist (by omega) hfound
    (show 4 < epochs.length by omega) (hoverlooked.endsAt hn) (by rw [hoverlooked.goes]; simp)
    (hoverlooked.identified (show 0 < epochs.length by omega) hn) (fun _ => ⟨4, by omega,
      LabelLog.vouches_iff.2 ⟨hoverlooked.distinguished, hoverlooked.unexpired⟩⟩) hopen
  have hclock := expiringClient_checks t
  have hsearch' : (t.without fun _ => false).search Primitives.ideal
      ⟨expiringClient.state.map TrustedState.treeSize, [], some 0⟩ = .ok resp := by
    rw [Tree.without_none]
    exact hsearch
  obtain ⟨-, -, -, -, -, -, -, hrejects⟩ := fixedSearch_decided Primitives.ideal_sha256_injective h
    (by rw [hconfig]; rfl) hauditors hlabel hdist (fun _ => false) hclient hclock (by omega) hfound
    (show 4 < epochs.length by omega) (hoverlooked.endsAt hn) hsearch'
  exact ⟨t, epochs, _, resp, h, by rw [hconfig]; rfl, hauditors, hclient, hclock, fun _ => rfl, hsearch,
    hrejects hoverlooked.not_vouched⟩

/-- **A log of one entry** with several versions of the label, of which one but the last is
searched for. -/
theorem exists_onlyLog (k v : ℕ) (hv : v + 1 < k) (hk : k ≤ maxVersion) (hlabel : ([] : Octets).length < 256) :
    ∃ t epochs, ∃ (h : HonestLog Primitives.ideal t epochs)
      (hdist : Distinct Primitives.ideal t.config epochs []) (resp : SearchResponse),
      t.config = expiringConfig ∧ t.auditors = [] ∧ epochs.length = 1 ∧
      expiringClient.ClientOf Primitives.ideal t.config (leavesOf Primitives.ideal epochs) ∧
      (h.labelLog hlabel hdist).greatest 0 = some (k - 1) ∧
      (h.labelLog hlabel hdist).pathTo 0 = [] ∧
      (h.labelLog hlabel hdist).goes t.config.maximumLifetime v 0 = .gt ∧
      t.search Primitives.ideal ⟨none, [], some v⟩ = .ok resp := by
  have hne : List.replicate k ([] : Octets) ≠ [] := by
    rw [ne_eq, List.replicate_eq_nil_iff]
    omega
  obtain ⟨t, epochs, h, hdist, hconfig, hauditors, hlength, htimestamp, hgreatest, hclient, hstored⟩ :=
    exists_expiringLog [(10, List.replicate k [])] (by simp) (by simpa using hne)
      (fun p hp l hl => .inl (by
        rw [List.mem_singleton.1 hp] at hl
        exact List.eq_of_mem_replicate hl)) (by simp) (by simpa using hk) hlabel
  have hcount : ((List.take (0 + 1) [((10 : U64), List.replicate k ([] : Octets))]).flatMap Prod.snd).count [] =
      k := by simp
  have hsize : (h.labelLog hlabel hdist).size = 1 := hlength
  have hn : epochs.length < 2 ^ 64 := h.run.size_le.trans_lt (by decide)
  have h₀ : 0 < epochs.length := by rw [show epochs.length = 1 from hlength]; decide
  have hds := Tree.findDistinguishedNodes_eq h₀ hn Nat.lt_log2_self h.timestamp_eq
  have hlast : (h.labelLog hlabel hdist).greatest 0 = some (k - 1) := by
    rw [hgreatest, hcount]
    obtain ⟨k, rfl⟩ := Nat.exists_eq_succ_of_ne_zero (show k ≠ 0 by omega)
    rfl
  have hpath : (h.labelLog hlabel hdist).pathTo 0 = [] := by
    rw [LabelLog.pathTo, hsize]
    decide
  have hexpired : (h.labelLog hlabel hdist).expired t.config.maximumLifetime 0 = false := by
    rw [LabelLog.expired, hsize, htimestamp, hconfig]
    rfl
  have hgoes : (h.labelLog hlabel hdist).goes t.config.maximumLifetime v 0 = .gt :=
    LabelLog.goes_eq_gt.2 ⟨hexpired, k - 1, hlast, by omega⟩
  obtain ⟨value, opening, hopen⟩ := hstored 0 v (by rw [hcount]; omega)
  obtain ⟨resp, hsearch⟩ := h.search_brought (z := 0) hauditors hlabel hdist h₀ hds h₀
    (by rw [hpath]; exact ⟨fun a ha => (by cases ha), fun a ha => (by cases ha),
      .inr (.inr ⟨hgoes, by decide⟩)⟩)
    (by rw [hgoes]; simp) (show _ = some 0 by rw [LabelLog.identified, hpath]; simp [hgoes])
    (by rw [hpath]; simp [hexpired]) hopen
  exact ⟨t, epochs, h, hdist, resp, hconfig, hauditors, hlength, hclient, hlast, hpath, hgoes, hsearch⟩

/-- The first of two versions of one entry is accepted. -/
theorem fixed_search_accepted_only : ∃ (t : Tree) (env : Env) (resp : SearchResponse) (value : UpdateValue)
    (c' : KtClient), t.search Primitives.ideal ⟨none, [], some 0⟩ = .ok resp ∧ resp.value = some value ∧
      expiringClient.verifySearchResponse Primitives.ideal env [] (some 0) resp = (.ok (), c') := by
  have hlabel : ([] : Octets).length < 256 := by decide
  obtain ⟨t, epochs, h, hdist, resp, hconfig, hauditors, hlength, hclient, -, -, -, hsearch⟩ :=
    exists_onlyLog 2 0 (by decide) (by decide) hlabel
  have hsize : (h.labelLog hlabel hdist).size = 1 := hlength
  have hn : epochs.length < 2 ^ 64 := h.run.size_le.trans_lt (by decide)
  have h₀ : 0 < epochs.length := by omega
  have hds := Tree.findDistinguishedNodes_eq h₀ hn Nat.lt_log2_self h.timestamp_eq
  have hsearch' : (t.without fun _ => false).search Primitives.ideal
      ⟨expiringClient.state.map TrustedState.treeSize, [], some 0⟩ = .ok resp := by
    rw [Tree.without_none]
    exact hsearch
  obtain ⟨value, c', -, hvalue, haccepted⟩ := (fixed_search_accepted_iff Primitives.ideal_sha256_injective h
    (by rw [hconfig]; rfl) hauditors hlabel hdist (fun _ => false) hclient (expiringClient_checks t)
    (fun _ => rfl) hds hsearch').2 ⟨h₀, fun ⟨p, hp⟩ => by
      have := hp.next
      omega⟩
  exact ⟨t, _, resp, value, c', hsearch, hvalue, haccepted⟩

end KeyTransparency
