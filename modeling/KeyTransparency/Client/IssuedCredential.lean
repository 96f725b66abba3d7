/-
# The credentials that a server issues

`get_credential` of an honest server gives a standard credential where a distinguished
entry holds the label's last version and a provisional one otherwise
(`HonestLog.getCredential_eq`).  A recipient accepts both when it has walked over the same
log, at any size, and come to the entry that the credential is anchored at
(`credential_complete`).
-/

import KeyTransparency.Client.HonestCredential
import KeyTransparency.Tree.Pruning

namespace KeyTransparency

open BinaryLadder InOrder LogMath MerkleLog Octets

section

variable {P : Primitives} {t : Tree} {c : KtClient} {label : Octets} {L : LabelLog} {e target : ℕ}
  {cred : Credential} {anchor : DistinguishedEntry}

/-! ### Anchors -/

/-- **An anchor of a log** is one of every log that agrees with it up to the entry. -/
theorem DistinguishedEntry.Anchors.transfer {leaves leaves' : List Octets} {position : ℕ}
    (h : anchor.Anchors P leaves position) (hlt : position < leaves'.length)
    (hsame : ∀ p ≤ position, leafAt leaves p = leafAt leaves' p) : anchor.Anchors P leaves' position where
  lt := hlt
  leaf := (hsame position le_rfl).symm.trans h.leaf
  peaks := by
    rw [h.peaks]
    refine List.map_congr_left fun c hc => value_congr ?_ fun p _ _ hp => hsame p (Nat.lt_succ_iff.1 hp)
    have hle := (mem_peaksFrom hc).1
    have hpos := Nat.two_pow_pos c.1
    have : c.2 * 2 ^ c.1 < (c.2 + 1) * 2 ^ c.1 := Nat.mul_lt_mul_of_pos_right (Nat.lt_succ_self _) hpos
    omega

theorem leafAt_of_beginning {leaves leaves' : List Octets} (h : leaves <+: leaves') {p : ℕ}
    (hp : p < leaves.length) : leafAt leaves p = leafAt leaves' p := by
  obtain ⟨rest, rfl⟩ := h
  rw [leafAt, leafAt, List.getD_eq_getElem?_getD, List.getD_eq_getElem?_getD,
    List.getElem?_append_left hp]

/-! ### The server -/

/-- The most recent of the entries that hold an update. -/
theorem Tree.standardNode_eq {p : ℕ} {holds : ℕ → Bool} : ∀ {nodes : List ℕ},
    (∀ d ∈ nodes, ∃ q, LogTree.getPrefixPtr t.store d = .ok q ∧ (p ≤ q ↔ holds d = true)) →
      t.standardNode p nodes = .ok (nodes.find? holds)
  | [], _ => rfl
  | d :: nodes, h => by
    obtain ⟨q, hq, hiff⟩ := h d List.mem_cons_self
    rw [standardNode, hq, Result.ok_bind, List.find?_cons]
    by_cases hle : p ≤ q
    · rw [if_pos hle, hiff.1 hle]
      rfl
    · rw [if_neg hle, Bool.eq_false_iff.2 (hiff.not.1 hle)]
      exact standardNode_eq fun d hd => h d (List.mem_cons_of_mem _ hd)

/-- A step of a credential's ladder. -/
def LabelLog.credentialStep (L : LabelLog) (target e v : ℕ) : BinaryLadderStep :=
  ⟨L.vrfProof v, if v = target then none else if L.present e v then some (L.commitment v) else none⟩

theorem Tree.Serves.credentialSteps_eq (hs : t.Serves P label L) (he : e < L.size) {versions : List ℕ}
    (hv : ∀ v ∈ versions, v ≤ maxVersion) :
    t.credentialSteps P label target (versions.map fun v => (v, L.contents e (L.key v))) =
      .ok (versions.map (L.credentialStep target e)) := by
  rw [credentialSteps, List.mapM_map]
  refine Result.mapM_eq_ok fun v hmem => ?_
  rw [Function.comp_apply]
  dsimp only
  rw [hs.vrf v (hv v hmem), Result.ok_bind, LabelLog.contents_key he (hv v hmem)]
  rfl

/-- **The ladder of a standard credential** is a wire ladder. -/
theorem LabelLog.wire_credentialStep {versions : List ℕ} (hnodup : versions.Nodup) :
    L.Wire (some target) [(e, versions)] versions (versions.map (L.credentialStep target e)) where
  nodup := hnodup
  step v hv := by
    refine ⟨L.credentialStep target e v, ?_, rfl, ?_, ?_, ?_⟩
    · rw [List.getElem?_map, List.getElem?_idxOf hv]
      rfl
    · intro c hc
      simp only [credentialStep, Option.mem_def] at hc
      split_ifs at hc
      exact (Option.some.inj hc).symm
    · rintro hne ⟨l, hl, -, hpresent⟩
      rw [List.mem_singleton.1 hl] at hpresent
      rw [credentialStep, if_neg fun h => hne (congrArg some h.symm), if_pos hpresent]
      rfl
    · intro hsome
      refine ⟨_, List.mem_singleton_self _, hv, ?_⟩
      dsimp only
      by_contra hnot
      rw [credentialStep] at hsome
      simp [hnot] at hsome

/-! ### The client -/

theorem LabelLog.leafAt_leaves (he : e < L.size) :
    leafAt (L.leaves P) e = logLeafValue P (L.timestamp e) (L.root P e) := by
  rw [leafAt, leaves, List.getD_eq_getElem _ _ (by simpa using he), List.getElem_map, List.getElem_range]

/-- **An honest standard credential verifies** against an anchor of its log. -/
theorem KtClient.verifyStandard_honest (hverify : c.CanVerify P cred.label L)
    (hP : Function.Injective P.sha256)
    (hlt : cred.position < L.size) (hgreatest : L.greatest cred.position = some cred.version)
    (hanchor : anchor.Anchors P (L.leaves P) cred.position) {pp : PrefixProof}
    (hpp : cred.distinguished = some pp)
    (hproves : pp.Proves P (L.contents cred.position) ((baseBinaryLadder cred.version).map L.key))
    (hladder : cred.binaryLadder =
      (baseBinaryLadder cred.version).map (L.credentialStep cred.version cred.position)) :
    c.verifyStandard P cred anchor (L.commitment cred.version) = .ok () := by
  have hself := LabelLog.searchLadder_self hgreatest
  have hnodup := nodup_baseBinaryLadder cred.version
  have hfirst : firstSeenAfter [] (baseBinaryLadder cred.version) = baseBinaryLadder cred.version :=
    (congrArg (firstSeenAfter []) (List.append_nil _).symm).trans (firstSeen_beginnings hnodup
      (fun l (hl : l ∈ [baseBinaryLadder cred.version]) => by rw [List.mem_singleton.1 hl])
      (List.mem_singleton_self _))
  rw [← hself] at hproves
  have hwire : L.Wire (some cred.version) [(cred.position, baseBinaryLadder cred.version)]
      (baseBinaryLadder cred.version)
      ((baseBinaryLadder cred.version).map (L.credentialStep cred.version cred.position)) :=
    LabelLog.wire_credentialStep hnodup
  have hright : true = true → true = true → L.greatest cred.position = some cred.version :=
    fun _ _ => hgreatest
  obtain ⟨ladders, hverified, hslots, -, -⟩ := verifyLadderProof_honest hwire hverify hlt
    (L.small hlt hgreatest) (s := .new [])
    (by rw [hself]; exact List.mem_singleton_self _)
    (fun _ l hl g hg => by
      rw [List.mem_singleton.1 hl, hgreatest] at hg
      exact (Option.some.inj hg).ge)
    hright hproves ⟨List.nil_prefix, fun v out h => by cases h⟩ (fun v c h => by cases h)
    (by
      rw [hself]
      exact hfirst.symm ▸ List.prefix_rfl)
  have hroot : L.root P cred.position = anchor.root := by
    have hleaf := hanchor.leaf
    rw [LabelLog.leafAt_leaves hlt] at hleaf
    exact (logLeafValue_inj hP (Fin.is_lt _) (Fin.is_lt _) hleaf).2
  rw [verifyStandard, hpp, okOr_some, Result.ok_bind, hladder, hverified, Result.context_ok, Result.ok_bind]
  dsimp only
  rw [hslots, hself]
  change (ensure (List.length _ = (firstSeenAfter [] (baseBinaryLadder cred.version)).length) _ >>= _) = _
  rw [hfirst, ensure_of (List.length_map _), Result.ok_bind, ensure_of hroot]

/-! ### Issuing -/

/-- **What a server issues** for a label of a log: a standard credential at an entry that
holds the last version, or a provisional one from an entry that does not. -/
structure Credential.Issued (P : Primitives) (t : Tree) (label : Octets) (L : LabelLog)
    (cred : Credential) : Prop where
  label : cred.label = label
  greatest : L.greatest (L.size - 1) = some cred.version
  value : ∃ value, cred.value = some value ∧
    commit P cred.label cred.version value.value none cred.opening = .ok (L.commitment cred.version)
  position : cred.position < L.size
  anchored : ∀ ds, t.findDistinguishedNodes L.size = .ok ds → cred.position ∈ ds
  standard : cred.credentialType = .standard → L.greatest cred.position = some cred.version ∧
    cred.binaryLadder =
      (baseBinaryLadder cred.version).map (L.credentialStep cred.version cred.position) ∧
    ∃ pp, cred.distinguished = some pp ∧
      pp.Proves P (L.contents cred.position) ((baseBinaryLadder cred.version).map L.key)
  provisional : cred.credentialType ≠ .standard → cred.credentialType = .provisional ∧
    cred.Answers P L (cred.position + 1) ∧ L.present cred.position cred.version = false ∧
    cred.treeHead = t.latest

variable {epochs : List Epoch}

/-- The history of a label at the end of the log. -/
theorem WrittenLog.history_versions (h : WrittenLog P t epochs) (h₀ : 0 < epochs.length) :
    (t.store.history label).map Prod.fst =
      List.range (versionCount epochs label (epochs.length - 1)) := by
  have hversions := h.run.consecutive.labelVersions label
  rw [versionCount, Nat.sub_add_cancel h₀, List.take_length, ← hversions, h.run.sound.1.history,
    historyOf, historyFrom_versions, List.filter_map, List.map_map]
  rfl

/-- **The place of the label's last version**: entries hold the version from there on. -/
theorem WrittenLog.last_history (h : WrittenLog P t epochs) (h₀ : 0 < epochs.length) {g : ℕ}
    (hg : lastVersion (versionCount epochs label (epochs.length - 1)) = some g) :
    ∃ p, (t.store.history label).getLast? = some (g, p) ∧
      ((t.store.history label).find? fun x => x.1 = g) = some (g, p) ∧
      ∀ e < epochs.length, p ≤ (updatesOf (epochs.take (e + 1))).length - 1 ↔
        g < versionCount epochs label e := by
  have hversions : (t.store.history label).map Prod.fst =
      List.range (versionCount epochs label (epochs.length - 1)) := h.history_versions h₀
  cases hcount : versionCount epochs label (epochs.length - 1) with
  | zero => simp [hcount, lastVersion] at hg
  | succ count =>
    obtain rfl : count = g := by simpa [hcount, lastVersion] using hg
    rw [hcount] at hversions
    have hfirst := congrArg List.getLast? hversions
    rw [List.getLast?_map, List.getLast?_range] at hfirst
    obtain ⟨⟨v, p⟩, hlast, hv⟩ := Option.map_eq_some_iff.1 hfirst
    obtain rfl : v = count := hv
    have hmem := List.mem_of_getLast? hlast
    have hsome : ((t.store.history label).find? fun x => x.1 = v).isSome :=
      List.find?_isSome.2 ⟨_, hmem, decide_eq_true rfl⟩
    obtain ⟨⟨v', p'⟩, hfind⟩ := Option.isSome_iff_exists.1 hsome
    obtain rfl : v' = v := by simpa using List.find?_some hfind
    rw [← h.position_unique hmem (List.mem_of_find?_eq_some hfind)] at hfind
    refine ⟨p, hlast, hfind, fun e he => ?_⟩
    rw [← h.position_lt_iff he hmem]
    have hpos := h.updates_pos he
    omega

theorem WrittenLog.timestamp_eq (h : WrittenLog P t epochs) : ∀ e < epochs.length,
    t.store.timestamp e = some ((epochs[e]?.map Epoch.timestamp).getD 0) := fun e he => by
  rw [h.run.sound.1.timestamp e he, List.getElem?_eq_getElem he]
  rfl

/-- The distinguished entries are entries of the log. -/
theorem WrittenLog.distinguished_lt (h : WrittenLog P t epochs) (h₀ : 0 < epochs.length) {ds : List ℕ}
    (hds : t.findDistinguishedNodes epochs.length = .ok ds) : ∀ d ∈ ds, d < epochs.length := by
  have hn := h.run.size_le
  have hpow : (2 : ℕ) ^ 62 < 2 ^ 64 := by decide
  rw [Tree.findDistinguishedNodes_eq h₀ (by omega) Nat.lt_log2_self h.timestamp_eq] at hds
  obtain rfl := Except.ok.inj hds
  exact fun d hd => (mem_distinguishedIn hd).1

/-- **The credential of an honest server** for a label whose last version is not erased:
there is one where the log has a distinguished entry. -/
theorem HonestLog.getCredential_cases (h : HonestLog P t epochs) (hlabel : label.length < 256)
    (hdist : Distinct P t.config epochs label) (gone : ℕ → Bool) (hauditors : t.auditors = [])
    (h₀ : 0 < epochs.length) {g : ℕ} {value : UpdateValue} {opening : Octets}
    (hg : (h.labelLog hlabel hdist).greatest (epochs.length - 1) = some g)
    (hopen : (t.without gone).extractValueAndOpening (t.store.history label) g = .ok (value, opening))
    {ds : List ℕ} (hds : t.findDistinguishedNodes epochs.length = .ok ds) :
    (ds = [] ∧ (t.without gone).getCredential P ⟨label⟩ =
      fail "No distinguished log entry to anchor a credential") ∨
    (ds ≠ [] ∧ ∃ cred, (t.without gone).getCredential P ⟨label⟩ = .ok cred ∧
      cred.Issued P t label (h.labelLog hlabel hdist)) := by
  have hs := h.serves hlabel hdist gone
  have hsmall := (h.labelLog hlabel hdist).small (show epochs.length - 1 < epochs.length by omega) hg
  have hcommit := hs.opened g hsmall value opening hopen
  obtain ⟨p, hlast, hfind, hptr⟩ := h.last_history h₀ hg
  have hlt := h.distinguished_lt h₀ hds
  have hstandard : (t.without gone).standardNode p ds.reverse =
      .ok (ds.reverse.find? fun d => (h.labelLog hlabel hdist).present d g) :=
    Tree.standardNode_eq fun d hd => by
      have hd' := hlt d (List.mem_reverse.1 hd)
      refine ⟨_, by rw [LogTree.getPrefixPtr, show (t.without gone).store.prefixPtr d =
        t.store.prefixPtr d from rfl, h.run.sound.1.ptr d hd', okOr_some], ?_⟩
      rw [hptr d hd']
      change _ ↔ (lastVersion (versionCount epochs label d)).any (g ≤ ·) = true
      rw [lastVersion_any, decide_eq_true_eq]
  have hsize : (t.without gone).treeSize = epochs.length := hs.size
  rw [Tree.getCredential]
  dsimp only
  rw [hsize, if_neg (show ¬epochs.length = 0 by omega), Tree.history_without, hlast, Option.map_some,
    okOr_some, Result.ok_bind, hfind, Option.map_some]
  dsimp only [Option.elim]
  rw [Result.ok_bind, Tree.findDistinguishedNodes_without, hds, Result.ok_bind, hstandard, Result.ok_bind,
    hopen, Result.ok_bind]
  dsimp only
  cases hholds : ds.reverse.find? fun d => (h.labelLog hlabel hdist).present d g with
  | some d =>
    have hpresent := List.find?_some hholds
    have hmem := List.mem_reverse.1 (List.mem_of_find?_eq_some hholds)
    have hd := hlt d hmem
    obtain ⟨g', hg', hle⟩ := LabelLog.present_iff.1 hpresent
    obtain rfl : g' = g := le_antisymm (LabelLog.greatest_le hg hd hg') hle
    have hladder : searchBinaryLadder g' g' [] [] = baseBinaryLadder g' := by
      rw [← LabelLog.searchLadder_self hg', ← LabelLog.searchLadder_eq, hg']
      rfl
    have hversions : ∀ v ∈ baseBinaryLadder g', v ≤ maxVersion := fun v hv =>
      LabelLog.le_of_mem_searchLadder ((LabelLog.searchLadder_self hg').symm ▸ hv)
    have hmax : (t.without gone).getMaxVersionAt (t.store.history label) d = some g' :=
      (hs.greatest d hd).trans hg'
    obtain ⟨ptr, pp, hptr, hproof, hproves⟩ := hs.generateLadderProof hd hversions
    dsimp only
    rw [hmax, okOr_some, Result.ok_bind, hptr, Result.ok_bind, hladder, hproof, Result.ok_bind]
    dsimp only
    rw [hs.credentialSteps_eq hd hversions, Result.ok_bind]
    exact .inr ⟨List.ne_nil_of_mem hmem, _, rfl, rfl, hg, ⟨value, rfl, hcommit⟩, hd, fun ds' hds' => Except.ok.inj (hds.symm.trans hds') ▸ hmem, fun _ => ⟨hg', rfl, pp, rfl, hproves⟩,
      fun h => absurd rfl h⟩
  | none =>
    have habsent := List.find?_eq_none.1 hholds
    dsimp only
    cases hposition : ds.getLast? with
    | none => exact .inl ⟨List.getLast?_eq_none_iff.1 hposition, rfl⟩
    | some position =>
      have hlast' := hlt position (List.mem_of_getLast? hposition)
      obtain ⟨proof, steps, htraverse, htranscript, hwire, hlength⟩ := Tree.traverseGreatestSearch_honest hs
        hauditors h₀ h.run.size_le (show position + 1 ≤ epochs.length by omega) hg hopen
      have hsearch : (t.without gone).traverseGreatestSearch P epochs.length label (position + 1) = _ :=
        htraverse
      rw [okOr_some, Result.ok_bind, hsearch, Result.ok_bind]
      refine .inr ⟨(by rintro rfl; cases hposition), _, rfl, rfl, hg, ⟨value, rfl, hcommit⟩, hlast',
        fun ds' hds' => Except.ok.inj (hds.symm.trans hds') ▸ List.mem_of_getLast? hposition, fun h => ?_, fun _ => ⟨rfl,
        ⟨hg, ⟨value, rfl, hcommit⟩, hwire, hlength, ?_, proof, rfl, htranscript⟩, ?_, rfl⟩⟩
      · cases h
      · have hlatest : t.latest.elim 0 TreeHead.treeSize = epochs.length := hsize
        cases hth : t.latest with
        | none =>
          rw [hth] at hlatest
          exact absurd hlatest h₀.ne
        | some th =>
          rw [hth] at hlatest
          exact ⟨th, hth, hlatest⟩
      · exact Bool.eq_false_iff.2 (habsent position (List.mem_reverse.2 (List.mem_of_getLast? hposition)))

/-- **A server issues a credential** just where the log has a distinguished entry. -/
theorem HonestLog.issued (h : HonestLog P t epochs) (hlabel : label.length < 256)
    (hdist : Distinct P t.config epochs label) (gone : ℕ → Bool) (hauditors : t.auditors = [])
    (h₀ : 0 < epochs.length) {g : ℕ} {value : UpdateValue} {opening : Octets}
    (hg : (h.labelLog hlabel hdist).greatest (epochs.length - 1) = some g)
    (hopen : (t.without gone).extractValueAndOpening (t.store.history label) g = .ok (value, opening))
    {ds : List ℕ} (hds : t.findDistinguishedNodes epochs.length = .ok ds) :
    ((∃ cred, (t.without gone).getCredential P ⟨label⟩ = .ok cred) ↔ ds ≠ []) ∧
      ∀ cred, (t.without gone).getCredential P ⟨label⟩ = .ok cred →
        cred.Issued P t label (h.labelLog hlabel hdist) := by
  rcases h.getCredential_cases hlabel hdist gone hauditors h₀ hg hopen hds with
    ⟨hnil, hfail⟩ | ⟨hne, cred, hcred, hissued⟩
  · refine ⟨⟨?_, fun hne => absurd hnil hne⟩, fun cred hcred => ?_⟩
    · rintro ⟨cred, hcred⟩
      rw [hfail] at hcred
      cases hcred
    · rw [hfail] at hcred
      cases hcred
  · refine ⟨⟨fun _ => hne, fun _ => ⟨cred, hcred⟩⟩, fun cred' hcred' => ?_⟩
    rw [hcred] at hcred'
    exact Except.ok.inj hcred' ▸ hissued

/-! ### Accepting -/

/-- **A client has a server's keys**: its configuration is the public one, and it checks
what the server proves and signs. -/
structure KtClient.Knows (P : Primitives) (c : KtClient) (server : PrivateConfig) : Prop where
  config : c.config = { server.toPublic P with
    auditorPublicKey := (if server.mode = deploymentModeThirdPartyAuditing then
      server.auditorKeys.head? else none).or server.auditorPublicKey }
  vrfPk : c.vrfPk = server.vrfPublicKey
  signatures : ∀ data, P.verifyData c.sigPk data (P.signData server.sigKey data) = .ok ()

theorem KtClient.Knows.canVerify (hkeys : c.Knows P t.config) (h : HonestLog P t epochs)
    (hlabel : label.length < 256) (hdist : Distinct P t.config epochs label) :
    c.CanVerify P label (h.labelLog hlabel hdist) := by
  intro v _
  obtain ⟨-, -, input, hinput, hverify⟩ := vrfProve_eq h.vrf hlabel v
  refine ⟨input, hinput, ?_⟩
  rw [hkeys.vrfPk, hkeys.config]
  exact hverify

/-- A version that an entry before the first one of the frontier lacks comes later. -/
theorem LabelLog.lt_firstWith {position version terminal : ℕ}
    (hlt : position < L.size) (habsent : L.present position version = false)
    (hterminal : L.firstWith version = some terminal) : position < terminal := by
  by_contra hnot
  have hpresent := List.find?_some hterminal
  rw [L.present_later hpresent (Nat.not_lt.1 hnot) hlt] at habsent
  cases habsent

/-- **A recipient accepts an issued credential.** -/
theorem Credential.Issued.accepted (hP : Function.Injective P.sha256) (h : HonestLog P t epochs)
    {hlabel : label.length < 256} {hdist : Distinct P t.config epochs label}
    (hissued : cred.Issued P t label (h.labelLog hlabel hdist)) (hkeys : c.Knows P t.config)
    {leaves all : List Octets} (hwalked : c.WalkedOver P leaves) (hview : leaves <+: all)
    (hlog : leavesOf P epochs <+: all) (hretained : (c.distinguishedEntries.get cred.position).isSome) :
    c.verifyCredential P cred = .ok () := by
  obtain ⟨anchor, hanchor⟩ := Option.isSome_iff_exists.1 hretained
  obtain ⟨value, hvalue, hcommit⟩ := hissued.value
  have hn := h.run.size_le
  have hposition : cred.position < (leavesOf P epochs).length := by
    rw [← h.leaves_eq hlabel hdist, LabelLog.length_leaves]
    exact hissued.position
  have hanchors : anchor.Anchors P ((h.labelLog hlabel hdist).leaves P) cred.position := by
    have hwalk := hwalked.anchors hP hanchor
    rw [h.leaves_eq]
    refine hwalk.transfer hposition fun p hp => ?_
    rw [leafAt_of_beginning hview (hp.trans_lt hwalk.lt), leafAt_of_beginning hlog (hp.trans_lt hposition)]
  have hverify : c.CanVerify P cred.label (h.labelLog hlabel hdist) := by
    rw [hissued.label]
    exact hkeys.canVerify h hlabel hdist
  rw [KtClient.verifyCredential, hanchor, okOr_some, Result.ok_bind, hvalue, okOr_some, Result.ok_bind, hcommit,
    Result.context_ok, Result.ok_bind]
  by_cases htype : cred.credentialType = .standard
  · obtain ⟨hgreatest, hladder, pp, hpp, hproves⟩ := hissued.standard htype
    rw [if_pos htype]
    exact KtClient.verifyStandard_honest hverify hP hissued.position hgreatest hanchors hpp hproves hladder
  · obtain ⟨hprovisional, hanswers, habsent, hhead⟩ := hissued.provisional htype
    rw [if_neg htype, if_neg (not_not.2 hprovisional)]
    refine KtClient.verifyProvisional_honest hanswers hn hverify hanchors (fun th hth => ?_)
      fun terminal => LabelLog.lt_firstWith hissued.position habsent
    obtain ⟨now, hsigned⟩ := h.run.headSigned th (hhead.symm.trans hth)
    rw [h.leaves_eq]
    exact KtClient.verifyTreeHeadSignature_signHead hkeys.config hkeys.signatures hsigned

/-- **Credential completeness.**  An honest server issues a credential for a label whose
last version is not erased just where its log has a distinguished entry, and every
recipient that has walked over the same log and come to the credential's entry accepts it.
The terminal entry of a provisional one is the first of the frontier that holds the
version. -/
theorem credential_complete (hP : Function.Injective P.sha256) (h : HonestLog P t epochs)
    (hauditors : t.auditors = []) (hlabel : label.length < 256)
    (hdist : Distinct P t.config epochs label) (gone : ℕ → Bool) {g : ℕ}
    (hg : (h.labelLog hlabel hdist).greatest (epochs.length - 1) = some g)
    (hunerased : (t.without gone).Stored label g) :
    ((∃ cred, (t.without gone).getCredential P ⟨label⟩ = .ok cred) ↔
      t.findDistinguishedNodes epochs.length ≠ .ok []) ∧
    ∀ cred, (t.without gone).getCredential P ⟨label⟩ = .ok cred →
      ∀ (c : KtClient) (leaves all : List Octets), c.Knows P t.config → c.WalkedOver P leaves →
        leaves <+: all → leavesOf P epochs <+: all →
        (c.distinguishedEntries.get cred.position).isSome → c.verifyCredential P cred = .ok () ∧
          (cred.credentialType = .provisional → ∃ terminal, c.credentialTerminal P cred = .ok terminal ∧
            (h.labelLog hlabel hdist).firstWith g = some terminal) := by
  obtain ⟨⟨value, opening⟩, hopen⟩ := hunerased
  have h₀ : 0 < epochs.length := by
    refine List.length_pos_iff.2 fun hnil => ?_
    subst hnil
    cases hg
  have hn := h.run.size_le
  have hpow : (2 : ℕ) ^ 62 < 2 ^ 64 := by decide
  obtain ⟨ds, hds⟩ : ∃ ds, t.findDistinguishedNodes epochs.length = .ok ds :=
    ⟨_, Tree.findDistinguishedNodes_eq h₀ (by omega) Nat.lt_log2_self h.timestamp_eq⟩
  obtain ⟨hiff, hissued⟩ := h.issued hlabel hdist gone hauditors h₀ hg hopen hds
  refine ⟨hiff.trans (by rw [hds]; simp), fun cred hcred c leaves all hkeys hwalked hview hlog hretained =>
    ⟨(hissued cred hcred).accepted hP h hkeys hwalked hview hlog hretained, fun htype => ?_⟩⟩
  have hcred := hissued cred hcred
  have hversion : cred.version = g := Option.some.inj (hcred.greatest.symm.trans hg)
  obtain ⟨-, hanswers, -, -⟩ := hcred.provisional (by rw [htype]; exact fun hne => by cases hne)
  obtain ⟨terminal, hterminal⟩ := LabelLog.exists_firstWith h₀ hn hcred.greatest
  refine ⟨terminal, KtClient.credentialTerminal_honest hanswers h₀ hn ?_ hterminal, hversion ▸ hterminal⟩
  rw [hcred.label]
  exact hkeys.canVerify h hlabel hdist

end

/-- A sample client has the keys of the sample server. -/
theorem sampleClient_knows (window : ℕ) :
    (sampleClient window).Knows Primitives.ideal (sampleServerConfig window) := by
  refine ⟨rfl, rfl, fun data => ?_⟩
  exact ensure_of (show (zeros 32).take 33 ++ data = zeros 32 ++ data by
    rw [List.take_of_length_le (by simp)]) _

/-- A sample client that has walked over a log. -/
theorem exists_recipient (window : ℕ) {L : LabelLog} (hkeys : ∀ v ≤ maxVersion, IsKey (L.key v))
    (h₀ : 0 < L.size) (hn : L.size ≤ 2 ^ 62) (now : U64) : ∃ c : KtClient,
      c.Knows Primitives.ideal (sampleServerConfig window) ∧
        c.WalkedOver Primitives.ideal (L.leaves Primitives.ideal) ∧
          ∀ p ∈ L.distinguishedTo window now, (c.distinguishedEntries.get p).isSome := by
  obtain ⟨c, hwalked, hpositions⟩ := exists_walkedOver window hkeys h₀ hn now
  refine ⟨{ sampleClient window with distinguishedEntries := c.distinguishedEntries },
    ⟨rfl, rfl, (sampleClient_knows window).signatures⟩, hwalked, fun p hp => ?_⟩
  rw [← hpositions] at hp
  obtain ⟨e, he, rfl⟩ := List.mem_map.1 hp
  rw [OrderedMap.get_eq_some.2 he]
  rfl

/-- Two entries without the label, and a version that no distinguished entry holds. -/
def unanchoredPlan : List (U64 × List Octets) := [(10, [[0]]), (20, [[0]]), (20, [[]])]

/-- A provisional credential that is anchored at the second of three entries. -/
theorem credential_complete_provisional : ∃ (t : Tree) (c : KtClient) (cred : Credential),
    t.getCredential Primitives.ideal ⟨[]⟩ = .ok cred ∧ cred.credentialType = .provisional ∧
      c.verifyCredential Primitives.ideal cred = .ok () ∧
      c.credentialTerminal Primitives.ideal cred = .ok 2 := by
  obtain ⟨t, epochs, h, hconfig, hauditors, hplan, hdist, -⟩ := exists_plannedLog 15 unanchoredPlan
    (by decide) (by decide) (by decide) (by decide) (by decide)
  have hlength : epochs.length = 3 := by
    have hplanned := congrArg List.length hplan
    rwa [List.length_map] at hplanned
  have hlabel : ([] : Octets).length < 256 := by decide
  have hcount : ∀ e, versionCount epochs [] e =
      ((unanchoredPlan.take (e + 1)).flatMap Prod.snd).count [] := fun e => by
    rw [versionCount_planned, hplan]
  obtain ⟨L, hL⟩ : ∃ L, h.labelLog hlabel hdist = L := ⟨_, rfl⟩
  have hsize : L.size = 3 := hL ▸ hlength
  have hgreatest : ∀ e, L.greatest e =
      lastVersion (((unanchoredPlan.take (e + 1)).flatMap Prod.snd).count []) := fun e => by
    rw [← hcount, ← hL]
    rfl
  have htimestamp : L.timestamp = fun e => (unanchoredPlan[e]?.map Prod.fst).getD 0 := by
    rw [← hL, ← hplan]
    funext e
    rw [List.getElem?_map, Option.map_map]
    rfl
  have hkeys : ∀ v ≤ maxVersion, IsKey (L.key v) := fun v _ => hL ▸ (vrfProve_eq h.vrf hlabel v).2.1
  have hleaves : L.leaves Primitives.ideal = leavesOf Primitives.ideal epochs := hL ▸ h.leaves_eq hlabel hdist
  have hlast : (h.labelLog hlabel hdist).greatest (epochs.length - 1) = some 0 := by
    rw [hL, hlength, hgreatest]
    decide
  have hds : L.distinguishedTo 15 20 = [0, 1] := by
    rw [LabelLog.distinguishedTo, hsize, htimestamp]
    decide
  have hfound : t.findDistinguishedNodes epochs.length = .ok [0, 1] := by
    have hfind := Tree.findDistinguishedNodes_eq (t := t) (n := epochs.length) (by omega) (by omega)
      Nat.lt_log2_self h.timestamp_eq
    have hts : ∀ e, (epochs[e]?.map Epoch.timestamp).getD 0 = L.timestamp e := fun e => hL ▸ rfl
    simp only [hconfig, hts, hlength] at hfind
    rw [hlength, hfind, ← hds, LabelLog.distinguishedTo, hsize, htimestamp]
    rfl
  obtain ⟨p, hp⟩ : ∃ p, (0, p) ∈ t.store.history [] :=
    h.exists_position (e := 2) (by rw [hcount]; decide)
  obtain ⟨data, hopen⟩ := h.stored hp
  obtain ⟨hiff, haccepted⟩ := credential_complete Primitives.ideal_sha256_injective h hauditors hlabel hdist
    (fun _ => false) hlast (by rw [Tree.without_none]; exact ⟨data, hopen⟩)
  rw [Tree.without_none] at hiff haccepted
  obtain ⟨cred, hcred⟩ := hiff.2 (by rw [hfound]; decide)
  have hissued := (h.issued hlabel hdist (fun _ => false) hauditors (by omega) hlast
    (by rw [Tree.without_none]; exact hopen) hfound).2 cred (by rw [Tree.without_none]; exact hcred)
  rw [hL] at hissued
  obtain ⟨c, hknows, hwalked, hretained⟩ := exists_recipient 15 hkeys (by omega) (by omega) 20
  have hposition : cred.position ∈ [0, 1] := hissued.anchored _ (by rw [hsize, ← hlength]; exact hfound)
  obtain ⟨hverified, hterminal⟩ := haccepted cred hcred c _ _ (hconfig ▸ hknows) hwalked
    (List.prefix_refl _) (hleaves ▸ List.prefix_refl _) (hretained _ (hds ▸ hposition))
  have htype : cred.credentialType = .provisional := by
    refine (hissued.provisional fun hstandard => ?_).1
    have hversion := (hissued.standard hstandard).1
    rw [hgreatest] at hversion
    rcases List.mem_pair.1 hposition with h | h <;> rw [h] at hversion <;> cases hversion
  obtain ⟨terminal, hrun, hfirst⟩ := hterminal htype
  have hfrontier : getFrontier 3 = [1, 2] := by decide
  have hpresent : ∀ e, L.present e 0 = (L.greatest e).any (0 ≤ ·) := fun e => rfl
  rw [hL, LabelLog.firstWith, hsize, hfrontier] at hfirst
  simp only [hpresent, hgreatest] at hfirst
  obtain rfl := Option.some.inj (show some 2 = some terminal from hfirst)
  exact ⟨t, c, cred, hcred, htype, hverified, hrun⟩

end KeyTransparency
