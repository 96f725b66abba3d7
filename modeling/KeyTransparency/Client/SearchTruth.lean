/-
# What searches tell

Two clients that end at one head have been given the same, whatever the maps of the log
behind it hold (`no_equivocation`).  A client that ends at the head of an honest server's
log has been given what an update of the label brought, and at a search for the greatest
version what the last one brought, whoever has answered it (`search_sound`).
-/

import KeyTransparency.Client.OwnerAgreement
import KeyTransparency.Client.SearchSound

namespace KeyTransparency

open BinaryLadder LogMath MerkleLog

/-- **VRF outputs are unique** under the key that a client has. -/
def KtClient.VrfUnique (P : Primitives) (c : KtClient) : Prop :=
  ∀ {input proof proof' out out' : Octets}, P.ecvrfVerify c.config.cipherSuite c.vrfPk input proof = .ok out →
    P.ecvrfVerify c.config.cipherSuite c.vrfPk input proof' = .ok out' → out = out'

/-- The maps of a log. -/
def LabelLog.maps (L : LabelLog) : MapLog := ⟨L.size, L.timestamp, L.contents⟩

section

variable {P : Primitives} {env : Env} {c c' : KtClient} {label : Octets} {t : Tree} {epochs : List Epoch}
  {L : LabelLog} {target e v : ℕ}

theorem LabelLog.leaves_maps : L.maps.leaves P = L.leaves P := rfl

theorem LabelLog.held_maps (he : e < L.size) (hv : v ≤ maxVersion) :
    L.maps.held L.key e v = L.present e v := by
  have hcontents : L.maps.held L.key e v = (L.contents e (L.key v)).isSome := rfl
  rw [hcontents, LabelLog.contents_key he hv]
  cases L.present e v <;> rfl

/-- **The relation that a ladder shows** is that of the entry's greatest version. -/
theorem LabelLog.relation_maps (he : e < L.size) (htarget : target ≤ maxVersion)
    (h : L.maps.relation L.key target e = .eq) : L.greatest e = some target := by
  have hundecided := undecided_of_relationTo h
  have hcut : ladder.cut (L.maps.held L.key e) (searchEnds target) =
      ladder.cut (L.present e) (searchEnds target) := by
    have hrecord := ProbeTree.trace_cut (L.maps.held L.key e) (searchEnds target) ladder
    have hanswers : ∀ p ∈ (ladder.cut (L.maps.held L.key e) (searchEnds target)).map
        (fun v => (v, L.maps.held L.key e v)), p.2 = L.present e p.1 := fun p hp => by
      obtain ⟨w, hw, rfl⟩ := List.mem_map.1 hp
      exact held_maps he (mem_ladder_path (ProbeTree.mem_path_of_mem_cut hw))
    have hsame := hrecord.eq_cut hanswers
    have hfst := congrArg (List.map Prod.fst) hsame
    rw [List.map_map, List.map_map] at hfst
    exact (List.map_id _).symm.trans (hfst.trans (List.map_id _))
  refine LabelLog.relation_eq_eq.1 (L.relation_eq_of_undecided he htarget fun w hw => ?_)
  have hw' : w ∈ ladder.cut (L.maps.held L.key e) (searchEnds target) := hcut ▸ hw
  have hanswer := hundecided w hw'
  rw [held_maps he (mem_ladder_path (ProbeTree.mem_path_of_mem_cut hw))] at hanswer
  rw [hanswer, searchEnds]
  by_cases hle : w ≤ target
  · simp [hle]
  · simp [hle]

/-- What verifies under an honest server's key is its own key of a version. -/
theorem KtClient.Knows.keysAre (hc : c.Knows P t.config) (hunique : c.VrfUnique P) (h : HonestLog P t epochs)
    (hlabel : label.length < 256) (hdist : Distinct P t.config epochs label) :
    c.KeysAre P label (h.labelLog hlabel hdist).key := by
  intro v input proof out hinput hout
  obtain ⟨-, -, input', hinput', hverify⟩ := vrfProve_eq h.vrf hlabel v
  obtain rfl := Except.ok.inj (hinput'.symm.trans hinput)
  have hsuite : c.config.cipherSuite = t.config.cipherSuite := by
    rw [hc.config]
    rfl
  rw [← hsuite, ← hc.vrfPk] at hverify
  exact hunique hout hverify

/-- The leaves behind an honest server's head. -/
theorem HonestLog.logOf (h : HonestLog P t epochs) {head : TrustedState} (hsize : head.treeSize = epochs.length)
    (hroot : head.rootHash = logRoot P (leavesOf P epochs)) :
    LogOf P head.treeSize head.rootHash (leavesOf P epochs) := by
  refine ⟨by rw [hsize, length_leavesOf], hsize ▸ h.run.size_le, fun l hl => ?_, hroot⟩
  obtain ⟨e, -, rfl⟩ := List.mem_map.1 hl
  exact length_logLeafValue P _ _

end

/-- **An honest server's answer** to a search for the greatest version leaves a client of
its log at the log's head. -/
theorem HonestLog.exists_accepted_search {P : Primitives} {t : Tree} {epochs : List Epoch} {label : Octets}
    (hP : Function.Injective P.sha256) (h : HonestLog P t epochs)
    (hmode : t.config.mode = deploymentModeContactMonitoring) (hauditors : t.auditors = [])
    (hlabel : label.length < 256) (hdist : Distinct P t.config epochs label) {g : ℕ}
    (hg : (h.labelLog hlabel hdist).greatest (epochs.length - 1) = some g) {value : UpdateValue}
    {opening : Octets} (hstored : t.extractValueAndOpening (t.store.history label) g = .ok (value, opening))
    {env : Env} {c : KtClient} (hc : c.ClientOf P t.config (leavesOf P epochs))
    (hclock : c.checkTimestampBounds env (c.headTimestamp t) = .ok ())
    (hsave : ∀ c', env.saveState c' = .ok ()) :
    ∃ resp data c' head, resp.version = some g ∧ Accepted P env c (.search label none resp) data c' ∧
      c'.ClientOf P t.config (leavesOf P epochs) ∧ c'.state = some head ∧ head.treeSize = epochs.length ∧
      head.rootHash = logRoot P (leavesOf P epochs) := by
  have h₀ : 0 < epochs.length := by
    refine List.length_pos_iff.2 fun hnil => ?_
    subst hnil
    cases hg
  have hn := h.run.size_le
  have hs := h.serves hlabel hdist fun _ => false
  rw [Tree.without_none] at hs
  have hmode' : t.config.mode ≠ deploymentModeThirdPartyAuditing := by rw [hmode]; decide
  have hmeets := hc.meets hP h hauditors hmode' hlabel hdist h₀ hclock
  have hsmall := (h.labelLog hlabel hdist).small (show epochs.length - 1 < epochs.length by omega) hg
  obtain ⟨proof, steps, -, htranscript, hwire, hlength⟩ := Tree.traverseGreatestSearch_honest hs
    hauditors h₀ hn hmeets.known hg hstored
  have hconfig : c.config.mode ≠ deploymentModeThirdPartyAuditing := by
    rw [hc.knows.config]
    exact hmode'
  obtain ⟨v, c', head, hverified, -, -, hhead, hheadSize, hheadRoot⟩ :=
    KtClient.verifySearch_honest hmeets hconfig hs.size h₀ hn (hc.knows.canVerify h hlabel hdist) hg
      (hs.opened g hsmall value opening hstored) htranscript hwire hlength
  rw [h.leaves_eq hlabel hdist] at hheadRoot
  have haccepted := Accepted.search hverified (hsave c')
  exact ⟨_, _, _, head, rfl, haccepted,
    hc.next haccepted hhead (hheadSize.trans (length_leavesOf epochs).symm) hheadRoot, hhead, hheadSize, hheadRoot⟩

theorem KtClient.vrfUnique_ideal (c : KtClient) : c.VrfUnique Primitives.ideal := by
  intro input proof proof' out out' hout hout'
  obtain ⟨-, -, hout⟩ := Result.bind_eq_ok.1 hout
  obtain ⟨-, -, hout'⟩ := Result.bind_eq_ok.1 hout'
  exact (Except.ok.inj hout).symm.trans (Except.ok.inj hout')

/-- Every client of a sample log finds the second version of a label. -/
theorem exists_renewed_search : ∃ (t : Tree) (epochs : List Epoch) (_ : HonestLog Primitives.ideal t epochs),
    Distinct Primitives.ideal t.config epochs [] ∧ t.config = sampleServerConfig 15 ∧ t.auditors = [] ∧
      ∀ c : KtClient, c.ClientOf Primitives.ideal t.config (leavesOf Primitives.ideal epochs) →
        ∃ (resp : SearchResponse) (data : List LeafData) (c' : KtClient) (head : TrustedState),
          resp.version = some 1 ∧ Accepted Primitives.ideal ⟨none, fun _ => .ok ()⟩ c (.search [] none resp)
            data c' ∧ c'.ClientOf Primitives.ideal t.config (leavesOf Primitives.ideal epochs) ∧
          c'.state = some head ∧ head.treeSize = epochs.length ∧
          head.rootHash = logRoot Primitives.ideal (leavesOf Primitives.ideal epochs) := by
  obtain ⟨t, epochs, h, hconfig, hauditors, hplan, hdist, -⟩ := exists_plannedLog 15 renewedPlan
    (by decide) (by decide) (by decide) (by decide) (by decide)
  have hlength : epochs.length = 2 := by
    have hplanned := congrArg List.length hplan
    rwa [List.length_map] at hplanned
  have hlabel : ([] : Octets).length < 256 := by decide
  have hcount : ∀ e, versionCount epochs [] e =
      ((renewedPlan.take (e + 1)).flatMap Prod.snd).count [] := fun e => by
    rw [versionCount_planned, hplan]
  have hlast : (h.labelLog hlabel hdist).greatest (epochs.length - 1) = some 1 := by
    change lastVersion (versionCount epochs [] (epochs.length - 1)) = some 1
    rw [hlength, hcount]
    rfl
  obtain ⟨p, hp⟩ : ∃ p, (1, p) ∈ t.store.history [] :=
    h.exists_position (e := 1) (by rw [hcount]; decide)
  obtain ⟨⟨value, opening⟩, hopen⟩ := h.stored hp
  exact ⟨t, epochs, h, hdist, hconfig, hauditors, fun c hc => h.exists_accepted_search Primitives.ideal_sha256_injective
    (by rw [hconfig]; rfl) hauditors hlabel hdist hlast hopen hc (c.checkTimestampBounds_clockless _) fun _ => rfl⟩

theorem small_of_version {resp : SearchResponse} (h : resp.version = some 1) :
    ∀ v ∈ (none : Option ℕ).or resp.version, v ≤ maxVersion := fun v hv => by
  rw [Option.none_or, h] at hv
  obtain rfl := Option.some.inj hv
  decide

/-! ### What is told -/

/-- **Soundness of a search over an honest log.**  Whatever the response: a client that
accepts it, and is left with the head of the server's log, has been given a version of the
label with the value and the opening that its update brought; if it asked for the greatest
version, no update of the label came after this one. -/
theorem search_sound {P : Primitives} (hP : Function.Injective P.sha256) (hZ : ∀ m, P.sha256 m ≠ zeroValue)
    (hK : Function.Injective (P.hmacSha256 kc)) {t : Tree} {epochs : List Epoch} {label : Octets}
    (h : HonestLog P t epochs) (hlabel : label.length < 256) (hdist : Distinct P t.config epochs label)
    {env : Env} {c c' : KtClient} (hc : c.Knows P t.config) (hunique : c.VrfUnique P) {requested : Option ℕ}
    {resp : SearchResponse} {data : List LeafData} (hversion : ∀ v ∈ requested.or resp.version, v ≤ maxVersion)
    (haccepted : Accepted P env c (.search label requested resp) data c') {head : TrustedState}
    (hstate : c'.state = some head) (hsize : head.treeSize = epochs.length)
    (hroot : head.rootHash = logRoot P (leavesOf P epochs)) :
    ∃ u ∈ updatesOf epochs, u.label = label ∧ requested.or resp.version = some u.version ∧
      resp.value = some ⟨u.value⟩ ∧ resp.opening = u.opening ∧
      (requested = none → ∀ u' ∈ updatesOf epochs, u'.label = label → u'.version ≤ u.version) := by
  have hlog := h.logOf hsize hroot
  rw [← h.leaves_eq hlabel hdist, ← LabelLog.leaves_maps] at hlog
  obtain ⟨v, -, -, -, hshown⟩ := haccepted.search_shown hP hZ (hc.keysAre hunique h hlabel hdist) hversion hstate
    hlog
  have hsmall := hversion _ hshown.version
  have hlt : v.terminal < epochs.length := hshown.lt
  obtain ⟨⟨bytes⟩, comm, hvalue, hcommit, hheld⟩ := hshown.committed
  -- the version lies in the terminal entry's map, which an update has brought
  have hcontents := LabelLog.contents_key (L := h.labelLog hlabel hdist) hlt hsmall
  have hheld' : (h.labelLog hlabel hdist).contents v.terminal ((h.labelLog hlabel hdist).key v.targetVersion) =
    some comm := hheld
  rw [hheld'] at hcontents
  have hpresent : (h.labelLog hlabel hdist).present v.terminal v.targetVersion = true := by
    by_contra habsent
    rw [if_neg habsent] at hcontents
    cases hcontents
  rw [if_pos hpresent] at hcontents
  have hcount : v.targetVersion < versionCount epochs label v.terminal := by
    have hany : (lastVersion (versionCount epochs label v.terminal)).any (v.targetVersion ≤ ·) = true := hpresent
    rwa [lastVersion_any, decide_eq_true_eq] at hany
  obtain ⟨u, hu, hulabel, huversion⟩ := h.run.consecutive.exists_version.2 hcount
  have hu' := mem_updatesOf_of_take hu
  obtain ⟨-, hcommitted⟩ := h.precomputed_eq hu'
  have hcomm : comm = u.commitment := by
    rw [(h.update_eq hu').2, hulabel, huversion]
    exact Option.some.inj hcontents
  rw [hulabel, huversion, ← hcomm] at hcommitted
  obtain ⟨hbytes, hopening⟩ := commit_inj hK hcommit hcommitted
  dsimp only at hbytes
  refine ⟨u, hu', hulabel, by rw [huversion]; exact hshown.version, by rw [hvalue, hbytes], hopening, ?_⟩
  rintro hnone u' hu' hlabel'
  have hlast := LabelLog.relation_maps (L := h.labelLog hlabel hdist)
    (show epochs.length - 1 < epochs.length by omega) hsmall (hshown.greatest hnone)
  have hall : u'.version < versionCount epochs label (epochs.length - 1) := by
    refine h.run.consecutive.exists_version.1 ⟨u', ?_, hlabel', rfl⟩
    rwa [show epochs.length - 1 + 1 = epochs.length by omega, List.take_length]
  have hlast' : lastVersion (versionCount epochs label (epochs.length - 1)) = some v.targetVersion := hlast
  cases hcount' : versionCount epochs label (epochs.length - 1) with
  | zero => omega
  | succ count =>
    rw [hcount'] at hlast' hall
    obtain rfl : count = v.targetVersion := Option.some.inj hlast'
    omega

/-- A client without a head has been given the second version. -/
theorem search_sound_renewed : ∃ (t : Tree) (epochs : List Epoch) (resp : SearchResponse),
    HonestLog Primitives.ideal t epochs ∧ ∃ u ∈ updatesOf epochs, u.label = [] ∧
      (none : Option ℕ).or resp.version = some u.version ∧
      resp.value = some ⟨u.value⟩ ∧ resp.opening = u.opening ∧
      (none = (none : Option ℕ) → ∀ u' ∈ updatesOf epochs, u'.label = [] → u'.version ≤ u.version) := by
  obtain ⟨t, epochs, h, hdist, hconfig, -, hsearch⟩ := exists_renewed_search
  obtain ⟨resp, data, c', head, hversion, haccepted, -, hstate, hsize, hroot⟩ :=
    hsearch _ (sampleClient_clientOf hconfig _)
  exact ⟨t, epochs, resp, h, search_sound Primitives.ideal_sha256_injective Primitives.ideal_sha256_ne_zeros
    (Primitives.ideal_hmacSha256_injective kc) h (by decide) hdist (hconfig ▸ sampleClient_knows 15)
    (sampleClient 15).vrfUnique_ideal (small_of_version hversion) haccepted hstate hsize hroot⟩

end KeyTransparency
