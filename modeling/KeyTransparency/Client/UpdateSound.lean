/-
# What a credential update proves

An update shows the version of a provisional credential at the ancestors of its terminal
entry that lie to its right, in the log that the recipient has retained up to the update's
entry (`KtClient.verifyCredentialUpdate_sound`).  Where the terminal entry has no such
ancestor, no ladder is asked for, and an update is accepted that shows nothing of the
credential (`credential_update_tied_iff`).
-/

import KeyTransparency.Client.IssuedCredential
import KeyTransparency.Client.OwnerSound

namespace KeyTransparency

open BinaryLadder InOrder LogMath LogVerifier MerkleLog Octets

/-- The leaf hashes of a log whose entries have any maps. -/
def mapLeaves (P : Primitives) (timestamp : ℕ → U64) (contents : ℕ → Octets → Option Octets)
    (n : ℕ) : List Octets :=
  (List.range n).map fun e => logLeafValue P (timestamp e) (prefixRoot P (contents e))

/-- **A recipient has retained a log** up to an entry: the entry is one of its distinguished
ones, with the peaks of the log. -/
def KtClient.RetainsLog (P : Primitives) (c : KtClient) (timestamp : ℕ → U64)
    (contents : ℕ → Octets → Option Octets) (position : ℕ) : Prop :=
  ∃ anchor, c.distinguishedEntries.get position = some anchor ∧
    anchor.Anchors P (mapLeaves P timestamp contents (position + 1)) position

/-- The commitment to a credential's value. -/
def Credential.Commits (P : Primitives) (cred : Credential) (commitment : Octets) : Prop :=
  ∃ value, cred.value = some value ∧
    commit P cred.label cred.version value.value none cred.opening = .ok commitment

/-- An entry has an ancestor to its right in a log of some size. -/
def RightAncestor (entry n : ℕ) : Prop := ∃ a ∈ ibstDirectPath entry n, entry < a

instance (entry n : ℕ) : Decidable (RightAncestor entry n) :=
  inferInstanceAs (Decidable (∃ a ∈ ibstDirectPath entry n, entry < a))

/-- **Updates tie the credentials** with a terminal entry to the log retained up to an
entry: whoever accepts a credential and an update of it has retained a log that holds the
credential's version with its commitment. -/
def UpdatesTied (terminal position : ℕ) : Prop :=
  ∀ (P : Primitives) (c : KtClient) (cred : Credential) (update : CredentialUpdate)
    (key : ℕ → Octets) (timestamp : ℕ → U64) (contents : ℕ → Octets → Option Octets)
    (commitment : Octets), Function.Injective P.sha256 → (∀ m, P.sha256 m ≠ zeroValue) →
    c.KeysAre P cred.label key → c.RetainsLog P timestamp contents position →
    cred.version ≤ maxVersion → cred.Commits P commitment →
    c.verifyCredential P cred = .ok () → c.credentialTerminal P cred = .ok terminal →
    update.position = position → c.verifyCredentialUpdate P cred update = .ok () →
    ∃ e ≤ position, contents e (key cred.version) = some commitment

section

variable {P : Primitives} {c : KtClient} {cred : Credential} {update : CredentialUpdate}
  {key : ℕ → Octets} {timestamp : ℕ → U64} {contents : ℕ → Octets → Option Octets}
  {commitment : Octets} {terminal : ℕ}

/-! ### What is shown -/

@[simp] theorem length_mapLeaves (n : ℕ) : (mapLeaves P timestamp contents n).length = n := by
  simp [mapLeaves]

theorem leafAt_mapLeaves {n e : ℕ} (he : e < n) : leafAt (mapLeaves P timestamp contents n) e =
    logLeafValue P (timestamp e) (prefixRoot P (contents e)) := by
  rw [leafAt, mapLeaves, List.getD_eq_getElem _ _ (by simpa using he), List.getElem_map,
    List.getElem_range]

/-- An entry with an ancestor to its right has one to show. -/
theorem RightAncestor.contactList {n : ℕ} (h : RightAncestor terminal n) (dist : ℕ → Bool) :
    ∃ e list, contactList terminal n dist = e :: list := by
  obtain ⟨a, ha, hlt⟩ := h
  have hmem : a ∈ ((ibstDirectPath terminal n).filter (terminal < ·)).mergeSort (· ≤ ·) :=
    List.mem_mergeSort.2 (List.mem_filter.2 ⟨ha, by simpa using hlt⟩)
  rw [LogMath.contactList]
  cases hlist : ((ibstDirectPath terminal n).filter (terminal < ·)).mergeSort (· ≤ ·) with
  | nil => rw [hlist] at hmem; cases hmem
  | cons e list =>
    cases hfind : (e :: list).findIdx? dist with
    | none => exact ⟨e, list, by rw [Option.elim, List.take_length]⟩
    | some i => exact ⟨e, list.take i, rfl⟩

/-- What is recovered for a version is its key, and the commitment of the credential's one. -/
def Recovered (cred : Credential) (key : ℕ → Octets) (commitment : Octets)
    (material : ℕ → Option (Octets × Option Octets)) : Prop :=
  ∀ v out comm, material v = some (out, some comm) →
    out = key v ∧ IsKey out ∧ (v = cred.version → comm = commitment)

theorem KtClient.credentialMaterial_sound (hkeys : c.KeysAre P cred.label key) :
    ∀ {steps : List (BinaryLadderStep × ℕ)} {m m' : ℕ → Option (Octets × Option Octets)},
      c.credentialMaterial P cred commitment steps m = .ok m' → Recovered cred key commitment m →
      Recovered cred key commitment m'
  | [], m, m', h, hm => by
    obtain rfl := Except.ok.inj h
    exact hm
  | (step, w) :: steps, m, m', h, hm => by
    rw [credentialMaterial] at h
    by_cases hw : cred.version < w
    · rw [if_pos hw] at h
      exact credentialMaterial_sound hkeys h hm
    · rw [if_neg hw] at h
      obtain ⟨input, hinput, h⟩ := Result.bind_eq_ok.1 h
      obtain ⟨out', hout, h⟩ := Result.bind_eq_ok.1 h
      obtain ⟨comm', hcomm, h⟩ := Result.bind_eq_ok.1 h
      refine credentialMaterial_sound hkeys h fun v out comm hmat => ?_
      by_cases hv : v = w
      · subst hv
        rw [Function.update_self] at hmat
        obtain ⟨rfl, hcomm'⟩ := Prod.mk.inj (Option.some.inj hmat)
        obtain rfl := Option.some.inj hcomm'
        obtain ⟨hlength, hbytes⟩ := P.ecvrfVerify_bytes hout
        refine ⟨hkeys hinput hout, ⟨hlength, hbytes⟩, fun hversion => ?_⟩
        rw [if_pos hversion] at hcomm
        exact (Except.ok.inj hcomm).symm
      · rw [Function.update_of_ne hv] at hmat
        exact hm v out comm hmat

/-- The ladders of an update record the roots that they show. -/
theorem KtClient.updateLadders_kept {material : ℕ → Option (Octets × Option Octets)} {version n : ℕ} :
    ∀ {list : List ℕ} {reader reader' : ProofReader} {roots roots' : NodeMap}, (∀ e ∈ list, e < n) →
      updateLadders P material version list reader roots = .ok (reader', roots') →
      reader.Extends n reader' ∧ RootsKept roots roots'
  | [], reader, reader', roots, roots', _, h => by
    obtain ⟨rfl, rfl⟩ := Prod.mk.inj (Except.ok.inj h)
    exact ⟨.refl n _, .refl _⟩
  | e :: list, reader, reader', roots, roots', hlt, h => by
    simp only [updateLadders, Result.bind_eq_ok] at h
    obtain ⟨⟨ts, r₁⟩, hts, ⟨pp, r₂⟩, hpp, root, -, roots₁, hrecord, h⟩ := h
    obtain ⟨hext, hkept⟩ := updateLadders_kept (fun e he => hlt e (List.mem_cons_of_mem _ he)) h
    exact ⟨((ProofReader.timestamp_extends hts (hlt e List.mem_cons_self)).trans
      (ProofReader.prefixProof_extends hpp)).trans hext, (ProofReader.recordEntryRoot_kept hrecord).1.trans hkept⟩

/-- An update lies right of the terminal entry. -/
theorem KtClient.verifyCredentialUpdate_right (hterminal : c.credentialTerminal P cred = .ok terminal)
    (h : c.verifyCredentialUpdate P cred update = .ok ()) : terminal < update.position := by
  simp only [verifyCredentialUpdate, Result.bind_eq_ok, ensure_eq_ok] at h
  obtain ⟨terminal', hterminal', -, -, -, hfirst, -⟩ := h
  obtain rfl := Except.ok.inj (hterminal.symm.trans hterminal')
  have hmem := (List.min?_eq_some_iff.1 hfirst).1
  simpa using (List.mem_filter.1 hmem).2

/-- **Soundness of an update.**  The first ancestor right of the terminal entry holds the
credential's version with its commitment. -/
theorem KtClient.verifyCredentialUpdate_sound (hP : Function.Injective P.sha256)
    (hZ : ∀ m, P.sha256 m ≠ zeroValue) (hkeys : c.KeysAre P cred.label key)
    (hretains : c.RetainsLog P timestamp contents update.position) (hn : update.position < 2 ^ 62)
    (hversion : cred.version ≤ maxVersion) (hcommits : cred.Commits P commitment)
    (hterminal : c.credentialTerminal P cred = .ok terminal)
    (hright : RightAncestor terminal (update.position + 1))
    (h : c.verifyCredentialUpdate P cred update = .ok ()) :
    ∃ e ≤ update.position, contents e (key cred.version) = some commitment := by
  obtain ⟨anchor, hanchor, hanchors⟩ := hretains
  obtain ⟨value, hvalue, hcommit⟩ := hcommits
  simp only [verifyCredentialUpdate, Result.bind_eq_ok, Result.context_eq_ok, okOr_eq_ok, ensure_eq_ok] at h
  obtain ⟨terminal', hterminal', anchor', hanchor', -, -, proof, -, value', hvalue', commitment', hcommit',
    material, hmaterial, reader, hreader, ⟨ts, reader₁⟩, hts, a, ha, ⟨reader₂, roots⟩, hladders, data, hdata,
    inclusion, -, ⟨root, captured⟩, hroot, anchorRoot, hanchorRoot, heq⟩ := h
  obtain rfl := Except.ok.inj (hterminal.symm.trans hterminal')
  obtain rfl := Option.some.inj (hanchor.symm.trans hanchor')
  obtain rfl := Option.some.inj (hvalue.symm.trans hvalue')
  obtain rfl := Except.ok.inj (hcommit.symm.trans hcommit')
  dsimp only at hts ha hladders hdata hroot heq
  -- the view is the retained log
  have hleaves : (mapLeaves P timestamp contents (update.position + 1)).length = update.position + 1 :=
    length_mapLeaves _
  rw [hanchors.peaks, accumulatorFromPeaks_take hleaves.ge (by omega), List.take_of_length_le hleaves.le]
    at hanchorRoot
  obtain rfl := Except.ok.inj hanchorRoot
  obtain rfl := heq
  have hlog : LogOf P (update.position + 1) _ (mapLeaves P timestamp contents (update.position + 1)) :=
    ⟨hleaves, by omega, fun l hl => by
      obtain ⟨e, -, rfl⟩ := List.mem_map.1 hl
      exact length_logLeafValue P _ _, rfl⟩
  -- the first ancestor is read
  obtain ⟨e, list, hlist⟩ := hright.contactList a.ancestorDist
  have hlt : ∀ e' ∈ e :: list, e' < update.position + 1 := fun e' he' => by
    rw [← hlist] at he'
    exact contactList_lt (by omega) he'
  have hextLadders := (updateLadders_kept (hlist ▸ hlt) hladders).1
  rw [hlist, updateLadders] at hladders
  obtain ⟨⟨ts', r₁⟩, hts', hladders⟩ := Result.bind_eq_ok.1 hladders
  obtain ⟨⟨pp, r₂⟩, hpp, hladders⟩ := Result.bind_eq_ok.1 hladders
  obtain ⟨shown, hshown, hladders⟩ := Result.bind_eq_ok.1 hladders
  obtain ⟨roots₁, hrecord, hladders⟩ := Result.bind_eq_ok.1 hladders
  rw [Result.context_eq_ok] at hshown
  obtain ⟨hext, hkept⟩ := updateLadders_kept (fun e he => hlt e (List.mem_cons_of_mem _ he)) hladders
  have hread := hext.keeps ((ProofReader.prefixProof_extends (n := update.position + 1) hpp).keeps
    (ProofReader.mem_of_timestamp hts'))
  have hmem := ProofReader.finish_root hdata hread (hkept _ _ (ProofReader.recordEntryRoot_kept hrecord).2)
  have hreads : ReadsLog (update.position + 1) data := ReadsLog.of_finish (by omega) hreader
    (((ProofReader.timestamp_extends hts (by omega)).trans
      (ancestorLoop_extends (by omega) (root_lt (Nat.succ_pos update.position) (by omega)) ha)).trans hextLadders) hdata
  have hleaf := LogVerifier.leafAt_eq hP hlog (by omega) hreads
    ((ProofReader.finish_monotone hdata).imp And.left) hroot hmem
  have he := hlt e List.mem_cons_self
  rw [leafAt_mapLeaves he] at hleaf
  obtain ⟨-, hshownRoot⟩ := logLeafValue_inj hP (timestamp e).isLt ts'.isLt hleaf
  obtain ⟨out, comm, hmat, hcontents⟩ := verifyMonitoringLadder_sound hP hZ hversion hshownRoot.symm hshown
  obtain ⟨rfl, hkey, hcomm⟩ := credentialMaterial_sound hkeys hmaterial (fun v out comm h => by cases h)
    _ _ _ hmat
  exact ⟨e, Nat.lt_succ_iff.1 he, (hcontents hkey).trans (congrArg some (hcomm rfl))⟩

/-! ### What is not shown -/

/-- **What a client recovers from an honest credential**: the key and the commitment of each
version that the monitoring ladder looks up. -/
theorem KtClient.credentialMaterial_honest {L : LabelLog} {m : ℕ} (hanswers : cred.Answers P L m)
    (h₀ : 0 < L.size) (hn : L.size ≤ 2 ^ 62) (hverify : c.CanVerify P cred.label L) :
    ∃ material, c.credentialMaterial P cred (L.commitment cred.version)
        (cred.binaryLadder.zip (baseBinaryLadder cred.version)) (fun _ => none) = .ok material ∧
      ∀ v ∈ monitoringBinaryLadder cred.version [], material v = some (L.key v, some (L.commitment v)) := by
  have hlast := last_mem_getFrontier h₀ hn
  have hstep : ∀ v step, (step, v) ∈ cred.binaryLadder.zip (baseBinaryLadder cred.version) →
      step.proof = L.vrfProof v ∧ (v < cred.version → step.commitment = some (L.commitment v)) := by
    intro v step hmem
    obtain ⟨i, hi, hget⟩ := List.getElem_of_mem hmem
    rw [List.getElem_zip] at hget
    obtain ⟨rfl, rfl⟩ := Prod.mk.inj hget
    rw [List.length_zip, lt_min_iff] at hi
    obtain ⟨step, hstep, hfor⟩ := hanswers.wire.step _ (List.getElem_mem hi.2)
    rw [(nodup_baseBinaryLadder _).idxOf_getElem, List.getElem?_eq_getElem hi.1] at hstep
    obtain rfl := Option.some.inj hstep
    refine ⟨hfor.proof, fun hlt => ?_⟩
    have hfound := hfor.found (by simpa using hlt.ne') ⟨(L.size - 1, L.searchLadder cred.version (L.size - 1)), ?_, ?_, ?_⟩
    · obtain ⟨comm, hcomm⟩ := Option.isSome_iff_exists.1 hfound
      rw [hcomm, hfor.commitment comm hcomm]
    · rw [LabelLog.laddersOf_greatestVisits]
      exact List.mem_map_of_mem hlast
    · rw [LabelLog.searchLadder_self hanswers.greatest]
      exact List.getElem_mem hi.2
    · exact LabelLog.present_iff.2 ⟨_, hanswers.greatest, hlt.le⟩
  have hrun : ∀ {steps : List (BinaryLadderStep × ℕ)} {m : ℕ → Option (Octets × Option Octets)},
      (∀ x ∈ steps, x ∈ cred.binaryLadder.zip (baseBinaryLadder cred.version)) → ∃ m',
        c.credentialMaterial P cred (L.commitment cred.version) steps m = .ok m' ∧
          ∀ v, (v ≤ cred.version ∧ v ∈ steps.map Prod.snd ∨ m v = some (L.key v, some (L.commitment v))) →
            m' v = some (L.key v, some (L.commitment v)) := by
    intro steps
    induction steps with
    | nil => exact fun _ => ⟨_, rfl, fun v hv => hv.resolve_left (by simp)⟩
    | cons x steps ih =>
      obtain ⟨step, w⟩ := x
      intro m hsub
      have hrest := fun x hx => hsub x (List.mem_cons_of_mem _ hx)
      obtain ⟨hproof, hcomm⟩ := hstep w step (hsub _ List.mem_cons_self)
      rw [credentialMaterial]
      by_cases hw : cred.version < w
      · rw [if_pos hw]
        obtain ⟨m', hm', hmat⟩ := @ih m hrest
        refine ⟨m', hm', fun v hv => hmat v (hv.imp_left fun hv => ⟨hv.1, ?_⟩)⟩
        exact (List.mem_cons.1 hv.2).resolve_left fun heq => by
          have hle := hv.1
          rw [heq] at hle
          exact absurd hle (Nat.not_le.2 hw)
      · rw [if_neg hw]
        have hmax : w ≤ maxVersion :=
          (Nat.not_lt.1 hw).trans (L.small (show L.size - 1 < L.size by omega) hanswers.greatest)
        obtain ⟨input, hinput, hout⟩ := hverify w hmax
        have hcomm' : (if w = cred.version then pure (L.commitment cred.version)
            else okOr step.commitment s!"Credential ladder missing commitment for v={w}" : Result Octets) =
              .ok (L.commitment w) := by
          by_cases heq : w = cred.version
          · rw [if_pos heq, heq]
            rfl
          · rw [if_neg heq, hcomm (by omega), okOr_some]
        obtain ⟨m', hm', hmat⟩ := @ih (Function.update m w (some (L.key w, some (L.commitment w)))) hrest
        refine ⟨m', ?_, fun v hv => hmat v ?_⟩
        · rw [hinput, Result.ok_bind, hproof, hout, Result.ok_bind, hcomm', Result.ok_bind]
          exact hm'
        · by_cases hvw : v = w
          · exact .inr (by rw [hvw, Function.update_self])
          · rw [Function.update_of_ne hvw]
            exact hv.imp_left fun hv => ⟨hv.1, (List.mem_cons.1 hv.2).resolve_left hvw⟩
  obtain ⟨material, hmaterial, hmat⟩ := hrun (m := fun _ => none) fun x hx => hx
  refine ⟨material, hmaterial, fun v hv => hmat v (.inl ?_)⟩
  obtain ⟨hmem, hle⟩ := List.mem_filter.1 hv
  refine ⟨by simpa using hle, ?_⟩
  rw [List.map_snd_zip hanswers.length.ge]
  exact hmem

/-- An entry without an ancestor to its right has none to show. -/
theorem contactList_eq_nil {n : ℕ} (h : ¬RightAncestor terminal n) (dist : ℕ → Bool) :
    contactList terminal n dist = [] := by
  have hnil : (ibstDirectPath terminal n).filter (terminal < ·) = [] :=
    List.filter_eq_nil_iff.2 fun a ha hlt => h ⟨a, ha, by simpa using hlt⟩
  rw [contactList, hnil, List.mergeSort_nil, List.take_nil]

/-- **An update that shows nothing** is accepted: the timestamps of a log's frontier and their
proof, where the terminal entry has no ancestor to its right. -/
theorem KtClient.verifyCredentialUpdate_unshown {L : LabelLog} {proof : CombinedTreeProof}
    {anchor : DistinguishedEntry} (h₀ : 0 < L.size) (hn : L.size ≤ 2 ^ 62)
    (hterminal : c.credentialTerminal P cred = .ok terminal)
    (hget : c.distinguishedEntries.get (L.size - 1) = some anchor)
    (hanchors : anchor.Anchors P (L.leaves P) (L.size - 1))
    (hfirst : c.firstRight terminal = some (L.size - 1)) (hcommits : cred.Commits P commitment)
    {material : ℕ → Option (Octets × Option Octets)}
    (hmaterial : c.credentialMaterial P cred commitment (cred.binaryLadder.zip
      (baseBinaryLadder cred.version)) (fun _ => none) = .ok material)
    (hnone : ¬RightAncestor terminal L.size) (hwalk : root L.size = terminal ∨
      (L.timestamp (L.size - 1)).val < c.config.reasonableMonitoringWindow)
    (ht : Transcript P L (frontierVisits L.size) 0 proof) :
    c.verifyCredentialUpdate P cred ⟨L.size - 1, some proof⟩ = .ok () := by
  obtain ⟨value, hvalue, hcommit⟩ := hcommits
  have hsize : L.size - 1 + 1 = L.size := by omega
  have hlen := L.length_leaves P
  have hlast : L.size - 1 ∈ entriesOf (frontierVisits L.size) :=
    last_mem_entriesOf h₀ hn List.prefix_rfl
  obtain ⟨reader, hreader, hat⟩ := ProofReader.frontier_honest ht List.prefix_rfl
  obtain ⟨reader', hts, hat'⟩ := hat.timestamp ht (e := L.size - 1) (by rw [appendNew_of_mem hlast])
  rw [appendNew_of_mem hlast] at hat'
  -- the walk does not leave the frontier
  obtain ⟨a, ha, hata⟩ : ∃ a, ancestorLoop L.size c.config.reasonableMonitoringWindow terminal 65
      ⟨reader', (0, L.timestamp (L.size - 1)), true, fun _ => false, root L.size⟩ = .ok a ∧
        a.reader.At L proof (entriesOf (frontierVisits L.size)) 0 := by
    rw [ancestorLoop]
    by_cases hroot : root L.size = terminal
    · exact ⟨_, if_pos hroot, hat'⟩
    · have hwindow := hwalk.resolve_left hroot
      have hmem : root L.size ∈ entriesOf (frontierVisits L.size) := by
        rw [mem_entriesOf]
        refine ⟨.stamp (root L.size), List.mem_map_of_mem ?_, rfl⟩
        rw [getFrontier, if_neg (by omega)]
        exact List.mem_cons_self
      obtain ⟨reader'', hts'', hat''⟩ := hat'.timestamp ht (e := root L.size) (by rw [appendNew_of_mem hmem])
      rw [appendNew_of_mem hmem] at hat''
      rw [if_neg hroot]
      dsimp only
      rw [hts'', Result.ok_bind]
      dsimp only
      rw [if_pos (by simpa using hwindow)]
      exact ⟨_, rfl, hat''⟩
  have hladders : laddersOf (frontierVisits L.size) = [] := laddersOf_stamps _
  have hfinish : a.reader.finish (fun _ => none) = .ok (L.data P (frontierVisits L.size)) := by
    refine ProofReader.At.finish (by rw [hladders]; exact hata) ht fun e => ?_
    rw [hladders]
    rfl
  have hpositions : (L.data P (frontierVisits L.size)).map Prod.fst = sortedEntries (frontierVisits L.size) := by
    rw [LabelLog.data, List.map_map]
    exact List.map_id' _
  have hroot := calculateRootCapturing_neededValues (P := P) (hlen ▸ hn) (List.length_pos_iff.1 (by omega))
    (fun p (hp : p ∈ sortedEntries (frontierVisits L.size)) => by
      rw [hlen]
      exact ht.bound p (mem_sortedEntries.1 hp)) (Nat.zero_le _) (retainsPeaks_zero P (L.leaves P)) []
  rw [hlen] at hroot
  rw [verifyCredentialUpdate, hterminal, Result.ok_bind]
  dsimp only
  rw [hget, okOr_some, Result.ok_bind, ensure_of hfirst, Result.ok_bind, okOr_some, Result.ok_bind, hvalue,
    okOr_some, Result.ok_bind, hcommit, Result.ok_bind, hmaterial, Result.ok_bind, hsize, hreader,
    Result.ok_bind, hts, Result.ok_bind]
  dsimp only
  rw [ha, Result.ok_bind, contactList_eq_nil hnone, updateLadders, Result.ok_bind]
  dsimp only
  rw [hfinish, Result.ok_bind, ht.inclusion, okOr_some, Result.ok_bind, hpositions,
    LabelLog.leavesAt_data ht.bound, hroot, Result.context_ok, Result.ok_bind]
  dsimp only
  rw [hanchors.peaks, hsize, accumulatorFromPeaks_take hlen.ge (hlen ▸ hn), Result.ok_bind, ← hlen,
    List.take_length, ensure_of rfl]

end

/-! ### Two logs of one server -/

/-- A log that never has the empty label. -/
def absentLog (n : ℕ) : LabelLog :=
  sampleLog n (fun _ => 0) (fun _ => none) (fun _ _ => le_rfl) (@noVersions_growing n)
    (@noVersions_small n)

/-- A log that has the first version of the empty label from its last entry on. -/
def forkedLog (terminal : ℕ) (commitment : Octets) : LabelLog :=
  let L := sampleLog (terminal + 1) (fun _ => 0) (fun e => if e < terminal then none else some 0)
    (fun _ _ => le_rfl)
    (fun {e e' g} hle _ h => by
      split_ifs at h with hlt
      · exact ⟨g, by rw [if_neg (by omega), h], le_rfl⟩)
    fun {e g} _ h => by
      split_ifs at h
      · cases h
        exact Nat.zero_le _
  { L with
    contents := fun e key => (L.contents e key).map fun _ => commitment
    commitment := fun _ => commitment
    lookup := fun he hv => by
      rw [L.lookup he hv]
      split_ifs <;> rfl }

/-- The two logs have the same first entries. -/
theorem leafAt_forkedLog {terminal n p : ℕ} (commitment : Octets) (hp : p < terminal) (hn : terminal ≤ n) :
    leafAt ((absentLog n).leaves Primitives.ideal) p =
      leafAt ((forkedLog terminal commitment).leaves Primitives.ideal) p := by
  have hcontents : (forkedLog terminal commitment).contents p = (absentLog n).contents p := by
    funext key
    simp [forkedLog, absentLog, sampleLog, hp]
  have habsent := @leafAt_mapLeaves Primitives.ideal (absentLog n).timestamp (absentLog n).contents n p
    (by omega)
  have hforked := @leafAt_mapLeaves Primitives.ideal (forkedLog terminal commitment).timestamp
    (forkedLog terminal commitment).contents (terminal + 1) p (by omega)
  rw [hcontents] at hforked
  exact habsent.trans hforked.symm

/-- The first entry has the root of every larger log to its right. -/
theorem rightAncestor_zero {n : ℕ} (h : 1 < n) (hn : n < 2 ^ 64) : RightAncestor 0 n := by
  have hlog : 1 ≤ Nat.log2 n := (Nat.le_log2 (by omega)).2 h
  have hpow : 2 ^ 1 ≤ 2 ^ Nat.log2 n := Nat.pow_le_pow_right (by omega) hlog
  refine ⟨2 ^ Nat.log2 n - 1, ?_, by omega⟩
  rw [ibstDirectPath, List.mem_reverse, ibstDirectPathLoop, if_pos (by omega), log2_eq hn,
    Nat.one_shiftLeft]
  dsimp only
  rw [if_neg (by omega), if_pos (by omega), Nat.zero_add]
  exact List.mem_cons_self

/-- **An update that ties nothing.**  A recipient that has retained a log without the label
accepts a credential from another log, and an update of it: the terminal entry has no ancestor
to its right in the retained log. -/
theorem exists_untied_update {position window : ℕ} (hlt : terminal < position) (hn : position < 2 ^ 62)
    (hnone : ¬RightAncestor terminal (position + 1))
    (hwalk : LogMath.root (position + 1) = terminal ∨ 0 < window) {entries : OrderedMap DistinguishedEntry}
    (hentries : ∀ p d, entries.get p = some d →
      d.Anchors Primitives.ideal ((absentLog (position + 1)).leaves Primitives.ideal) p)
    (hfirst : (entries.get 0).isSome) (hlast : (entries.get position).isSome)
    (hbetween : ∀ p d, entries.get p = some d → terminal < p → position ≤ p) :
    ∃ c cred update commitment, c = { sampleClient window with distinguishedEntries := entries } ∧
      cred.label = [] ∧ cred.version = 0 ∧ cred.Commits Primitives.ideal commitment ∧
      c.verifyCredential Primitives.ideal cred = .ok () ∧
      c.credentialTerminal Primitives.ideal cred = .ok terminal ∧ update.position = position ∧
      c.verifyCredentialUpdate Primitives.ideal cred update = .ok () := by
  have hterminal₀ : 0 < terminal := Nat.pos_of_ne_zero fun h =>
    hnone (h ▸ rightAncestor_zero (by omega) (by omega))
  obtain ⟨c, hc⟩ : ∃ c, c = { sampleClient window with distinguishedEntries := entries } := ⟨_, rfl⟩
  obtain ⟨commitment, hcommit⟩ : ∃ commitment,
      commit Primitives.ideal [] 0 [] none (zeros 16) = .ok commitment := ⟨_, rfl⟩
  obtain ⟨B, hB⟩ : ∃ B, B = forkedLog terminal commitment := ⟨_, rfl⟩
  have hsize : B.size = terminal + 1 := hB ▸ rfl
  have hnB : B.size ≤ 2 ^ 62 := by omega
  have hgreatest : ∀ e, B.greatest e = if e < terminal then none else some 0 := fun e => hB ▸ rfl
  have hlastB : B.greatest (B.size - 1) = some 0 := by
    rw [hgreatest, hsize, if_neg (by omega)]
  have hkeys : ∀ v ≤ maxVersion, IsKey (B.key v) := fun v _ => hB ▸ isKey_sampleKey v
  have hverify : c.CanVerify Primitives.ideal [] B := by
    rw [hc, hB]
    exact sampleClient_canVerify rfl fun _ => rfl
  -- the credential
  obtain ⟨search, hsearch⟩ : ∃ proof, Transcript Primitives.ideal B (B.greatestVisits 0) 1 proof :=
    LabelLog.exists_transcript hkeys
      (fun e he => mem_getFrontier_lt hnB (LabelLog.mem_greatestVisits.1 he)) (fun l hl v hv => by
        rw [LabelLog.laddersOf_greatestVisits] at hl
        obtain ⟨e, -, rfl⟩ := List.mem_map.1 hl
        exact LabelLog.le_of_mem_searchLadder hv) 1
  have hdigest : ∀ l ∈ B.leaves Primitives.ideal, l.length = 32 := fun l hl => by
    obtain ⟨e, -, rfl⟩ := List.mem_map.1 hl
    exact length_logLeafValue _ _ _
  obtain ⟨sigs, hsigs⟩ := KtClient.exists_signature (c := c) (by rw [hc]; exact ⟨_, rfl⟩) B.size
    (length_logRoot (P := Primitives.ideal) hdigest)
  let cred : Credential := ⟨[], 0, zeros 16, some ⟨[]⟩,
    (baseBinaryLadder 0).map (B.stepAfter (laddersOf (B.greatestVisits 0))), 0, .provisional, none,
    some ⟨B.size, 0, sigs⟩, some search⟩
  have hcommits : cred.Commits Primitives.ideal commitment := ⟨⟨[]⟩, rfl, hcommit⟩
  have hanswers : cred.Answers Primitives.ideal B 1 := {
    greatest := hlastB
    value := ⟨⟨[]⟩, rfl, hB ▸ hcommit⟩
    wire := (LabelLog.wire_map (nodup_baseBinaryLadder 0)).of_none (some 0)
    length := List.length_map _
    treeHead := ⟨_, rfl, rfl⟩
    search := ⟨search, rfl, hsearch⟩ }
  have hfirstWith : B.firstWith 0 = some terminal := by
    obtain ⟨e, he⟩ := LabelLog.exists_firstWith (by omega) hnB hlastB
    have hpresent := List.find?_some he
    have hmem := mem_getFrontier_lt hnB (List.mem_of_find?_eq_some he)
    obtain ⟨g, hg, -⟩ := LabelLog.present_iff.1 hpresent
    rw [hgreatest] at hg
    split_ifs at hg with hlt
    rw [he, show e = terminal by omega]
  have hcredential : c.credentialTerminal Primitives.ideal cred = .ok terminal :=
    KtClient.credentialTerminal_honest hanswers (by omega) hnB hverify hfirstWith
  obtain ⟨first, hfirst⟩ := Option.isSome_iff_exists.1 hfirst
  have hanchor : first.Anchors Primitives.ideal (B.leaves Primitives.ideal) 0 := by
    rw [hB]
    refine (hentries 0 first hfirst).transfer ?_ fun p hp => leafAt_forkedLog commitment (by omega) (by omega)
    rw [LabelLog.length_leaves]
    exact Nat.succ_pos terminal
  have haccepted : c.verifyCredential Primitives.ideal cred = .ok () := by
    have hget : c.distinguishedEntries.get 0 = some first := by rw [hc]; exact hfirst
    rw [KtClient.verifyCredential, hget, okOr_some, Result.ok_bind, okOr_some, Result.ok_bind, hcommit,
      Result.context_ok, Result.ok_bind, if_neg (by simp [cred]), if_neg (by simp [cred])]
    have hcommitment : commitment = B.commitment cred.version := hB ▸ rfl
    rw [hcommitment]
    refine KtClient.verifyProvisional_honest hanswers hnB hverify hanchor (fun th hth => ?_)
      fun t ht => ?_
    · obtain rfl := Option.some.inj hth
      exact hsigs 0
    · rw [hfirstWith] at ht
      exact Option.some.inj ht ▸ hterminal₀
  -- the update
  have hsmall : (absentLog (position + 1)).size ≤ 2 ^ 62 := (by omega : position + 1 ≤ 2 ^ 62)
  obtain ⟨proof, hproof⟩ : ∃ proof, Transcript Primitives.ideal (absentLog (position + 1))
      (frontierVisits (position + 1)) 0 proof :=
    LabelLog.exists_transcript (fun v _ => isKey_sampleKey v) (fun e he => by
      obtain ⟨visit, hvisit, rfl⟩ := mem_entriesOf.1 he
      obtain ⟨q, hq, rfl⟩ := List.mem_map.1 hvisit
      exact mem_getFrontier_lt hsmall hq) (fun l hl => by
        rw [frontierVisits, laddersOf_stamps] at hl
        cases hl) 0
  obtain ⟨last, hlast⟩ := Option.isSome_iff_exists.1 hlast
  obtain ⟨material, hmaterial, -⟩ := KtClient.credentialMaterial_honest hanswers (by omega) hnB hverify
  refine ⟨c, cred, ⟨position, some proof⟩, commitment, hc, rfl, rfl, hcommits, haccepted, hcredential, rfl, ?_⟩
  have hright : c.firstRight terminal = some position := by
    rw [KtClient.firstRight, List.min?_eq_some_iff, hc]
    refine ⟨List.mem_filter.2 ⟨List.mem_map.2 ⟨_, OrderedMap.get_eq_some.1 hlast, rfl⟩, by simpa using hlt⟩,
      fun p hp => ?_⟩
    obtain ⟨hp, hright⟩ := List.mem_filter.1 hp
    obtain ⟨⟨q, d⟩, hmem, rfl⟩ := List.mem_map.1 hp
    exact hbetween q d (OrderedMap.get_eq_some.2 hmem) (by simpa using hright)
  have hmaterial : c.credentialMaterial Primitives.ideal cred commitment (cred.binaryLadder.zip
      (baseBinaryLadder cred.version)) (fun _ => none) = .ok material := by
    rw [show commitment = B.commitment cred.version from hB ▸ rfl]
    exact hmaterial
  exact KtClient.verifyCredentialUpdate_unshown (Nat.succ_pos position) hsmall hcredential
    (by rw [hc]; exact hlast) (hentries position last hlast) hright hcommits hmaterial hnone
    (hwalk.imp_right fun h => by rw [hc]; exact h) hproof

/-- What a client retains of a log without the label. -/
theorem exists_absentEntry (n : ℕ) : ∃ entry : ℕ → DistinguishedEntry, ∀ p < n,
    (entry p).Anchors Primitives.ideal ((absentLog n).leaves Primitives.ideal) p := by
  obtain ⟨L, hL⟩ : ∃ L, L = absentLog n := ⟨_, rfl⟩
  rw [← hL]
  refine ⟨fun p => ⟨L.timestamp p, L.root Primitives.ideal p, (peaks (p + 1)).map fun c =>
    value (logPar Primitives.ideal) (leafAt (L.leaves Primitives.ideal)) (p + 1) c.1 c.2⟩,
    fun p hp => ?_⟩
  have hlt : p < L.size := hL ▸ hp
  have hleaf : leafAt (L.leaves Primitives.ideal) p =
      logLeafValue Primitives.ideal (L.timestamp p) (L.root Primitives.ideal p) := LabelLog.leafAt_leaves hlt
  refine ⟨by rwa [L.length_leaves], ?_, rfl⟩
  dsimp only
  rw [hleaf]

/-- A client that has retained the log is not told that it lacks the version. -/
theorem not_updatesTied {position window : ℕ} (hlt : terminal < position) (hn : position < 2 ^ 62)
    (hnone : ¬RightAncestor terminal (position + 1))
    (hwalk : LogMath.root (position + 1) = terminal ∨ 0 < window) {entries : OrderedMap DistinguishedEntry}
    (hentries : ∀ p d, entries.get p = some d →
      d.Anchors Primitives.ideal ((absentLog (position + 1)).leaves Primitives.ideal) p)
    (hfirst : (entries.get 0).isSome) (hlast : (entries.get position).isSome)
    (hbetween : ∀ p d, entries.get p = some d → terminal < p → position ≤ p) :
    ¬UpdatesTied terminal position := by
  intro htied
  obtain ⟨c, cred, update, commitment, hc, hlabel, hversion, hcommits, haccepted, hterminal, hposition, hupdate⟩ :=
    exists_untied_update hlt hn hnone hwalk hentries hfirst hlast hbetween
  obtain ⟨last, hlast⟩ := Option.isSome_iff_exists.1 hlast
  obtain ⟨e, -, he⟩ := htied Primitives.ideal c cred update sampleKey (fun _ => 0)
    (absentLog (position + 1)).contents commitment Primitives.ideal_sha256_injective
    Primitives.ideal_sha256_ne_zeros
    (by
      rw [hc, hlabel]
      exact fun hinput hout => sampleClient_keysAre window hinput hout)
    ⟨last, by rw [hc]; exact hlast, hentries position last hlast⟩
    (by rw [hversion]; exact Nat.zero_le _) hcommits haccepted hterminal hposition hupdate
  simp [absentLog, sampleLog] at he

/-- **When updates tie the credentials with a terminal entry**: when it has an ancestor to its
right in the log that is retained up to the update's entry.  An update at an entry that is not
right of the terminal one is rejected. -/
theorem credential_update_tied_iff {terminal position : ℕ} (hn : position < 2 ^ 62) :
    UpdatesTied terminal position ↔ position ≤ terminal ∨ RightAncestor terminal (position + 1) := by
  constructor
  · intro htied
    by_contra hnot
    rw [not_or, Nat.not_le] at hnot
    obtain ⟨hlt, hnone⟩ := hnot
    obtain ⟨entry, hentry⟩ := exists_absentEntry (position + 1)
    have hget : ∀ p d, ((OrderedMap.empty.insert 0 (entry 0)).insert position (entry position)).get p =
        some d → (p = position ∨ p = 0) ∧ d = entry p := fun p d hd => by
      rw [OrderedMap.get_insert, OrderedMap.get_insert, OrderedMap.get_empty] at hd
      split_ifs at hd with hp hp₀
      · exact ⟨.inl hp, by rw [hp]; exact (Option.some.inj hd).symm⟩
      · exact ⟨.inr hp₀, by rw [hp₀]; exact (Option.some.inj hd).symm⟩
    refine @not_updatesTied terminal position 1 hlt hn hnone (.inr Nat.one_pos)
      ((OrderedMap.empty.insert 0 (entry 0)).insert position (entry position)) (fun p d hd => ?_) ?_ ?_
      (fun p d hd hp => ?_) htied
    · obtain ⟨hp, rfl⟩ := hget p d hd
      exact hentry p (by omega)
    · rw [OrderedMap.get_insert, OrderedMap.get_insert, if_neg (by omega), if_pos rfl]
      rfl
    · rw [OrderedMap.get_insert, if_pos rfl]
      rfl
    · have := (hget p d hd).1
      omega
  · rintro h P c cred update key timestamp contents commitment hP hZ hkeys hretains hversion hcommits -
      hterminal rfl haccepted
    rcases h with hle | hright
    · exact absurd (KtClient.verifyCredentialUpdate_right hterminal haccepted) (Nat.not_lt.2 hle)
    · exact KtClient.verifyCredentialUpdate_sound hP hZ hkeys hretains hn hversion hcommits hterminal hright haccepted

/-- In a log of four the third entry lies below the last one. -/
theorem credential_update_tied_four : UpdatesTied 2 3 :=
  (credential_update_tied_iff (by decide)).2 (.inr (by decide))

/-- **An update of a version that the log does not have**: a recipient that has walked over a
log of three entries accepts the credential of a version that none of them holds, whose
terminal entry is the root, and the update at the last entry. -/
theorem untied_update_three : ¬UpdatesTied 1 2 ∧ ∃ (walker c : KtClient) (cred : Credential)
    (update : CredentialUpdate),
    walker.WalkedOver Primitives.ideal ((absentLog 3).leaves Primitives.ideal) ∧
    c = { sampleClient 0 with distinguishedEntries := walker.distinguishedEntries } ∧
    c.verifyCredential Primitives.ideal cred = .ok () ∧
    c.credentialTerminal Primitives.ideal cred = .ok 1 ∧ update.position = 2 ∧
    c.verifyCredentialUpdate Primitives.ideal cred update = .ok () ∧ cred.label = [] ∧
    ∀ e, (absentLog 3).contents e (sampleKey cred.version) = none := by
  obtain ⟨walker, hwalked, hpositions⟩ := exists_walkedOver 0 (L := absentLog 3)
    (fun v _ => isKey_sampleKey v) (by decide) (by decide) 0
  have hthree : walker.distinguishedPositions = [0, 1, 2] := hpositions.trans (by decide)
  have hentries : ∀ p d, walker.distinguishedEntries.get p = some d →
      d.Anchors Primitives.ideal ((absentLog (2 + 1)).leaves Primitives.ideal) p :=
    fun p d hd => hwalked.anchors Primitives.ideal_sha256_injective hd
  have hsome : ∀ p ∈ [0, 1, 2], (walker.distinguishedEntries.get p).isSome := fun p hp => by
    rw [← hthree] at hp
    obtain ⟨⟨q, d⟩, hmem, rfl⟩ := List.mem_map.1 hp
    rw [OrderedMap.get_eq_some.2 hmem]
    rfl
  have hnone : ¬RightAncestor 1 (2 + 1) := by decide
  have hroot : LogMath.root (2 + 1) = 1 := by decide
  have hbetween : ∀ p d, walker.distinguishedEntries.get p = some d → 1 < p → 2 ≤ p := fun _ _ _ h => h
  refine ⟨@not_updatesTied 1 2 0 (by decide) (by decide) hnone (.inl hroot) _ hentries (hsome 0 (by simp))
    (hsome 2 (by simp)) hbetween, ?_⟩
  obtain ⟨c, cred, update, commitment, hc, hlabel, -, -, haccepted, hterminal, hposition, hupdate⟩ :=
    @exists_untied_update 1 2 0 (by decide) (by decide) hnone (.inl hroot) _ hentries (hsome 0 (by simp))
      (hsome 2 (by simp)) hbetween
  exact ⟨walker, c, cred, update, hwalked, hc, haccepted, hterminal, hposition, hupdate, hlabel,
    fun e => by simp [absentLog, sampleLog]⟩

end KeyTransparency
