/-
# Strings that are signed and committed to

No two messages of one kind have one encoding: the input of the VRF, the string that `commit`
authenticates, and the strings that servers and auditors sign.  A configuration delimits
itself, in every deployment mode, so that what follows it is told apart; since an auditor's
string goes on for eight octets more than a server's, no string is of both kinds
(`encodings_injective`).
-/

import KeyTransparency.Crypto.Configuration

namespace KeyTransparency

open Octets

/-! ### The VRF input -/

theorem constructVrfInput_inj {label label' bytes : Octets} {version version' : ℕ}
    (hversion : version < 2 ^ 32) (hversion' : version' < 2 ^ 32)
    (h : constructVrfInput label version = .ok bytes)
    (h' : constructVrfInput label' version' = .ok bytes) : label = label' ∧ version = version' := by
  obtain ⟨⟨⟩, hlabel, h⟩ := Result.bind_eq_ok.1 h
  obtain ⟨⟨⟩, hlabel', h'⟩ := Result.bind_eq_ok.1 h'
  obtain ⟨opaqueLabel, hopaque, h⟩ := Result.bind_eq_ok.1 h
  obtain ⟨opaqueLabel', hopaque', h'⟩ := Result.bind_eq_ok.1 h'
  obtain ⟨hlt, rfl⟩ := opaqueBytes_eq_ok hopaque
  obtain ⟨hlt', rfl⟩ := opaqueBytes_eq_ok hopaque'
  have heq := (Except.ok.inj h).trans (Except.ok.inj h').symm
  obtain ⟨rfl, hrest⟩ := vector_append_inj hlt hlt' heq
  exact ⟨rfl, beBytes_inj (w := 4) hversion hversion' hrest⟩

/-! ### Commitments -/

/-- The string that `commit` authenticates. -/
def commitmentValue (label : Octets) (version : ℕ) (updateValue : Octets)
    (suffixSignature : Option Octets) (opening : Octets) : Result Octets := do
  ensure (opening.length = 16) "Invalid opening length"
  let label ← opaqueBytes 1 label
  let updateValue ← opaqueBytes 4 updateValue
  let suffix ← suffixSignature.elim (.ok []) (opaqueBytes 2)
  return opening ++ label ++ beBytes 4 version ++ updateValue ++ suffix

/-- **`commit` authenticates it.** -/
theorem commit_eq (P : Primitives) (label : Octets) (version : ℕ) (updateValue : Octets)
    (suffixSignature : Option Octets) (opening : Octets) :
    commit P label version updateValue suffixSignature opening =
      commitmentValue label version updateValue suffixSignature opening >>= fun value =>
        .ok (P.hmacSha256 kc value) := by
  cases suffixSignature <;>
    simp only [commit, commitmentValue, bind_assoc, Result.pure_eq, Result.ok_bind, Option.elim]

theorem commitmentValue_eq_ok {label updateValue opening bytes : Octets} {version : ℕ}
    {suffixSignature : Option Octets}
    (h : commitmentValue label version updateValue suffixSignature opening = .ok bytes) :
    opening.length = 16 ∧ label.length < 256 ^ 1 ∧ updateValue.length < 256 ^ 4 ∧
      (∀ sig ∈ suffixSignature, sig.length < 256 ^ 2) ∧
      bytes = opening ++ (vector 1 label ++ (beBytes 4 version ++ (vector 4 updateValue ++
        suffixSignature.elim [] (vector 2)))) := by
  obtain ⟨⟨⟩, hopening, h⟩ := Result.bind_eq_ok.1 h
  obtain ⟨_, hopaqueLabel, h⟩ := Result.bind_eq_ok.1 h
  obtain ⟨_, hopaqueValue, h⟩ := Result.bind_eq_ok.1 h
  obtain ⟨_, hsuffix, h⟩ := Result.bind_eq_ok.1 h
  obtain ⟨hlabel, rfl⟩ := opaqueBytes_eq_ok hopaqueLabel
  obtain ⟨hvalue, rfl⟩ := opaqueBytes_eq_ok hopaqueValue
  obtain rfl := Except.ok.inj h
  refine ⟨ensure_eq_ok.1 hopening, hlabel, hvalue, ?_⟩
  cases suffixSignature with
  | none =>
    obtain rfl := Except.ok.inj hsuffix
    refine ⟨fun sig hsig => absurd hsig (Option.not_mem_none sig), ?_⟩
    simp only [vector, List.append_assoc, Option.elim]
  | some sig =>
    obtain ⟨hsig, rfl⟩ := opaqueBytes_eq_ok hsuffix
    refine ⟨fun sig' hsig' => Option.mem_some_iff.1 hsig' ▸ hsig, ?_⟩
    simp only [vector, List.append_assoc, Option.elim]

/-- **What is committed to can be read off**, when both inputs have a suffix or neither has. -/
theorem commitmentValue_inj {label label' updateValue updateValue' opening opening' bytes : Octets}
    {version version' : ℕ} {suffixSignature suffixSignature' : Option Octets}
    (hversion : version < 2 ^ 32) (hversion' : version' < 2 ^ 32)
    (hsuffix : suffixSignature.isSome = suffixSignature'.isSome)
    (h : commitmentValue label version updateValue suffixSignature opening = .ok bytes)
    (h' : commitmentValue label' version' updateValue' suffixSignature' opening' = .ok bytes) :
    opening = opening' ∧ label = label' ∧ version = version' ∧ updateValue = updateValue' ∧
      suffixSignature = suffixSignature' := by
  obtain ⟨hopening, hlabel, hvalue, hsig, rfl⟩ := commitmentValue_eq_ok h
  obtain ⟨hopening', hlabel', hvalue', hsig', heq⟩ := commitmentValue_eq_ok h'
  obtain ⟨rfl, hlabels⟩ := List.append_inj heq (hopening.trans hopening'.symm)
  obtain ⟨rfl, hfields⟩ := vector_append_inj hlabel hlabel' hlabels
  obtain ⟨rfl, hvalues⟩ := beBytes_append_inj (w := 4) hversion hversion' hfields
  obtain ⟨rfl, hrest⟩ := vector_append_inj hvalue hvalue' hvalues
  refine ⟨rfl, rfl, rfl, rfl, ?_⟩
  cases suffixSignature with
  | none => exact (Option.isSome_eq_false_iff.1 hsuffix.symm |> Option.isNone_iff_eq_none.1).symm
  | some sig =>
    obtain ⟨sig', rfl⟩ := Option.isSome_iff_exists.1 hsuffix.symm
    have hvector : vector 2 sig ++ [] = vector 2 sig' ++ [] := congrArg (· ++ []) hrest
    exact congrArg some (vector_append_inj (hsig sig rfl) (hsig' sig' rfl) hvector).1

/-! ### Configurations -/

namespace PublicConfig

/-- The values are of the types of their fields; the mode is any octet. -/
structure Sized (c : PublicConfig) : Prop where
  cipherSuite : c.cipherSuite < 2 ^ 16
  mode : c.mode < 2 ^ 8
  auditorStartPos : c.auditorStartPos < 2 ^ 64
  maxAuditorLag : c.maxAuditorLag < 2 ^ 64
  maxAhead : c.maxAhead < 2 ^ 64
  maxBehind : c.maxBehind < 2 ^ 64
  reasonableMonitoringWindow : c.reasonableMonitoringWindow < 2 ^ 64
  maximumLifetime : ∀ v ∈ c.maximumLifetime, v < 2 ^ 64

/-- **Two configurations agree** in every field that their mode encodes; without a leaf key
they agree with an empty one. -/
structure SameFields (c c' : PublicConfig) : Prop where
  cipherSuite : c.cipherSuite = c'.cipherSuite
  mode : c.mode = c'.mode
  serverSigPk : c.serverSigPk = c'.serverSigPk
  vrfPublicKey : c.vrfPublicKey = c'.vrfPublicKey
  auditor : c.mode = deploymentModeThirdPartyAuditing → c.auditorStartPos = c'.auditorStartPos ∧
    c.maxAuditorLag = c'.maxAuditorLag ∧ c.auditorPublicKey = c'.auditorPublicKey
  leafPublicKey : c.mode ≠ deploymentModeThirdPartyAuditing →
    c.leafPublicKey.getD [] = c'.leafPublicKey.getD []
  maxAhead : c.maxAhead = c'.maxAhead
  maxBehind : c.maxBehind = c'.maxBehind
  reasonableMonitoringWindow : c.reasonableMonitoringWindow = c'.reasonableMonitoringWindow
  maximumLifetime : c.maximumLifetime = c'.maximumLifetime

variable {c c' : PublicConfig} {bytes bytes' rest rest' : Octets}

/-- The fields after the mode's delimit themselves. -/
theorem serialized_append_inj {modeData modeData' : Octets} (hc : c.Sized) (hc' : c'.Sized)
    (hsig : c.serverSigPk.length < 2 ^ 16) (hsig' : c'.serverSigPk.length < 2 ^ 16)
    (hvrf : c.vrfPublicKey.length < 2 ^ 16) (hvrf' : c'.vrfPublicKey.length < 2 ^ 16)
    (hmode : c.mode = c'.mode → ∀ x y, modeData ++ x = modeData' ++ y → x = y)
    (h : c.serialized modeData ++ rest = c'.serialized modeData' ++ rest') :
    c.cipherSuite = c'.cipherSuite ∧ c.mode = c'.mode ∧ c.serverSigPk = c'.serverSigPk ∧
      c.vrfPublicKey = c'.vrfPublicKey ∧ modeData = modeData' ∧ c.maxAhead = c'.maxAhead ∧
      c.maxBehind = c'.maxBehind ∧ c.reasonableMonitoringWindow = c'.reasonableMonitoringWindow ∧
      c.maximumLifetime = c'.maximumLifetime ∧ rest = rest' := by
  simp only [serialized, List.append_assoc] at h
  obtain ⟨hsuite, h⟩ := beBytes_append_inj (w := 2) hc.cipherSuite hc'.cipherSuite h
  obtain ⟨hmodes, h⟩ := beBytes_append_inj (w := 1) hc.mode hc'.mode h
  obtain ⟨hsigs, h⟩ := vector_append_inj (w := 2) hsig hsig' h
  obtain ⟨hvrfs, h⟩ := vector_append_inj (w := 2) hvrf hvrf' h
  have htail := hmode hmodes _ _ h
  have hdata : modeData = modeData' := by
    rw [htail] at h
    exact List.append_cancel_right h
  obtain ⟨hahead, htail⟩ := beBytes_append_inj (w := 8) hc.maxAhead hc'.maxAhead htail
  obtain ⟨hbehind, htail⟩ := beBytes_append_inj (w := 8) hc.maxBehind hc'.maxBehind htail
  obtain ⟨hwindow, htail⟩ := beBytes_append_inj (w := 8) hc.reasonableMonitoringWindow
    hc'.reasonableMonitoringWindow htail
  obtain ⟨hlifetime, htail⟩ := optional_append_inj (fun v hv v' hv' heq =>
    beBytes_append_inj (w := 8) (hc.maximumLifetime v hv) (hc'.maximumLifetime v' hv') heq) htail
  exact ⟨hsuite, hmodes, hsigs, hvrfs, hdata, hahead, hbehind, hwindow, hlifetime, htail⟩

/-- What the serializer writes for the mode. -/
theorem serialize_modeData (h : serializeConfigurationPublic c = .ok bytes) :
    c.serverSigPk.length < 2 ^ 16 ∧ c.vrfPublicKey.length < 2 ^ 16 ∧ ∃ modeData,
      bytes = c.serialized modeData ∧
      (c.mode = 3 → ∃ apk, c.auditorPublicKey = some apk ∧ apk.length < 2 ^ 16 ∧
        modeData = beBytes 8 c.auditorStartPos ++ (beBytes 8 c.maxAuditorLag ++ vector 2 apk)) ∧
      (c.mode ≠ 3 → (c.leafPublicKey.getD []).length < 2 ^ 16 ∧
        modeData = vector 2 (c.leafPublicKey.getD [])) := by
  by_cases hmode : c.mode = 3
  · obtain ⟨hsig, hvrf, apk, hapk, hkey, rfl⟩ := (serialize_of_eq hmode).1 h
    exact ⟨hsig, hvrf, _, rfl, fun _ => ⟨apk, hapk, hkey, List.append_assoc ..⟩, fun hne => absurd hmode hne⟩
  · obtain ⟨hsig, hvrf, hleaf, rfl⟩ := (serialize_of_ne hmode).1 h
    exact ⟨hsig, hvrf, _, rfl, fun heq => absurd heq hmode, fun _ => ⟨hleaf, rfl⟩⟩

/-- **A configuration delimits itself**, and shows the fields that its mode encodes. -/
theorem serialize_append_inj (hc : c.Sized) (hc' : c'.Sized)
    (h : serializeConfigurationPublic c = .ok bytes) (h' : serializeConfigurationPublic c' = .ok bytes')
    (heq : bytes ++ rest = bytes' ++ rest') : c.SameFields c' ∧ rest = rest' := by
  obtain ⟨hsig, hvrf, modeData, rfl, hauditing, hleaf⟩ := serialize_modeData h
  obtain ⟨hsig', hvrf', modeData', rfl, hauditing', hleaf'⟩ := serialize_modeData h'
  -- the mode is read first, and tells how its fields are laid out
  have hfields : c.mode = c'.mode → ∀ x y, modeData ++ x = modeData' ++ y →
      (c.mode = 3 → c.auditorStartPos = c'.auditorStartPos ∧ c.maxAuditorLag = c'.maxAuditorLag ∧
        c.auditorPublicKey = c'.auditorPublicKey) ∧
      (c.mode ≠ 3 → c.leafPublicKey.getD [] = c'.leafPublicKey.getD []) ∧ x = y := by
    intro hmodes x y hdata
    by_cases hmode : c.mode = 3
    · obtain ⟨apk, hapk, hkey, rfl⟩ := hauditing hmode
      obtain ⟨apk', hapk', hkey', rfl⟩ := hauditing' (hmodes.symm.trans hmode)
      simp only [List.append_assoc] at hdata
      obtain ⟨hstart, hdata⟩ := beBytes_append_inj (w := 8) hc.auditorStartPos hc'.auditorStartPos hdata
      obtain ⟨hlag, hdata⟩ := beBytes_append_inj (w := 8) hc.maxAuditorLag hc'.maxAuditorLag hdata
      obtain ⟨rfl, hrest⟩ := vector_append_inj (w := 2) hkey hkey' hdata
      exact ⟨fun _ => ⟨hstart, hlag, hapk.trans hapk'.symm⟩, fun hne => absurd hmode hne, hrest⟩
    · obtain ⟨hlen, rfl⟩ := hleaf hmode
      obtain ⟨hlen', rfl⟩ := hleaf' fun heq => hmode (hmodes.trans heq)
      obtain ⟨hkeys, hrest⟩ := vector_append_inj (w := 2) hlen hlen' hdata
      exact ⟨fun heq => absurd heq hmode, fun _ => hkeys, hrest⟩
  obtain ⟨hsuite, hmodes, hsigs, hvrfs, hdata, hahead, hbehind, hwindow, hlifetime, hrest⟩ :=
    serialized_append_inj hc hc' hsig hsig' hvrf hvrf'
      (fun hmodes x y hxy => (hfields hmodes x y hxy).2.2) heq
  obtain ⟨hauditor, hleaves, -⟩ := hfields hmodes [] [] (congrArg (· ++ []) hdata)
  exact ⟨⟨hsuite, hmodes, hsigs, hvrfs, hauditor, hleaves, hahead, hbehind, hwindow, hlifetime⟩, hrest⟩

end PublicConfig

/-! ### Tree heads -/

section

variable {c c' : PublicConfig} {treeSize treeSize' : ℕ} {timestamp timestamp' : U64}
  {rootHash rootHash' bytes bytes' : Octets}

theorem constructTreeHeadTbsPublic_eq_ok (h : constructTreeHeadTbsPublic c treeSize rootHash = .ok bytes) :
    rootHash.length = 32 ∧ ∃ config, serializeConfigurationPublic c = .ok config ∧
      bytes = config ++ (beBytes 8 treeSize ++ rootHash) := by
  obtain ⟨config, hconfig, h⟩ := Result.bind_eq_ok.1 h
  obtain ⟨⟨⟩, hroot, h⟩ := Result.bind_eq_ok.1 h
  exact ⟨ensure_eq_ok.1 hroot, config, hconfig, ((List.append_assoc ..).symm.trans (Except.ok.inj h)).symm⟩

theorem constructAuditorTreeHeadTbsPublic_eq_ok
    (h : constructAuditorTreeHeadTbsPublic c treeSize timestamp rootHash = .ok bytes) :
    rootHash.length = 32 ∧ ∃ config, serializeConfigurationPublic c = .ok config ∧
      bytes = config ++ (beBytes 8 timestamp ++ (beBytes 8 treeSize ++ rootHash)) := by
  obtain ⟨config, hconfig, h⟩ := Result.bind_eq_ok.1 h
  obtain ⟨⟨⟩, hroot, h⟩ := Result.bind_eq_ok.1 h
  refine ⟨ensure_eq_ok.1 hroot, config, hconfig, ?_⟩
  rw [← Except.ok.inj h, List.append_assoc, List.append_assoc]

/-- **What a server signs can be read off.** -/
theorem constructTreeHeadTbsPublic_inj (hc : c.Sized) (hc' : c'.Sized) (hsize : treeSize < 2 ^ 64)
    (hsize' : treeSize' < 2 ^ 64) (h : constructTreeHeadTbsPublic c treeSize rootHash = .ok bytes)
    (h' : constructTreeHeadTbsPublic c' treeSize' rootHash' = .ok bytes) :
    c.SameFields c' ∧ treeSize = treeSize' ∧ rootHash = rootHash' := by
  obtain ⟨-, config, hconfig, rfl⟩ := constructTreeHeadTbsPublic_eq_ok h
  obtain ⟨-, config', hconfig', heq⟩ := constructTreeHeadTbsPublic_eq_ok h'
  obtain ⟨hfields, hrest⟩ := PublicConfig.serialize_append_inj hc hc' hconfig hconfig' heq
  exact ⟨hfields, beBytes_append_inj (w := 8) hsize hsize' hrest⟩

/-- **What an auditor signs can be read off.** -/
theorem constructAuditorTreeHeadTbsPublic_agree (hc : c.Sized) (hc' : c'.Sized) (hsize : treeSize < 2 ^ 64)
    (hsize' : treeSize' < 2 ^ 64)
    (h : constructAuditorTreeHeadTbsPublic c treeSize timestamp rootHash = .ok bytes)
    (h' : constructAuditorTreeHeadTbsPublic c' treeSize' timestamp' rootHash' = .ok bytes) :
    c.SameFields c' ∧ treeSize = treeSize' ∧ timestamp = timestamp' ∧ rootHash = rootHash' := by
  obtain ⟨-, config, hconfig, rfl⟩ := constructAuditorTreeHeadTbsPublic_eq_ok h
  obtain ⟨-, config', hconfig', heq⟩ := constructAuditorTreeHeadTbsPublic_eq_ok h'
  obtain ⟨hfields, hrest⟩ := PublicConfig.serialize_append_inj hc hc' hconfig hconfig' heq
  obtain ⟨htime, hrest⟩ := beBytes_append_inj (w := 8) timestamp.isLt timestamp'.isLt hrest
  obtain ⟨hsizes, hroot⟩ := beBytes_append_inj (w := 8) hsize hsize' hrest
  exact ⟨hfields, hsizes, Fin.ext htime, hroot⟩

/-- **No string is signed by a server and by an auditor**: after the configuration one is
eight octets shorter. -/
theorem constructTreeHeadTbsPublic_ne_auditor (hc : c.Sized) (hc' : c'.Sized)
    (h : constructTreeHeadTbsPublic c treeSize rootHash = .ok bytes)
    (h' : constructAuditorTreeHeadTbsPublic c' treeSize' timestamp rootHash' = .ok bytes') :
    bytes ≠ bytes' := by
  obtain ⟨hroot, config, hconfig, rfl⟩ := constructTreeHeadTbsPublic_eq_ok h
  obtain ⟨hroot', config', hconfig', rfl⟩ := constructAuditorTreeHeadTbsPublic_eq_ok h'
  intro heq
  have hrest := congrArg List.length (PublicConfig.serialize_append_inj hc hc' hconfig hconfig' heq).2
  simp only [List.length_append, length_beBytes] at hrest
  omega

end

/-- The strings of a tree head under a configuration: clients build one, and a server the
one for an auditor's key. -/
inductive HeadTbs (P : Primitives) : PublicConfig → ℕ → Octets → Octets → Prop
  | client {c : PublicConfig} {treeSize : ℕ} {rootHash bytes : Octets}
      (h : constructTreeHeadTbsPublic c treeSize rootHash = .ok bytes) : HeadTbs P c treeSize rootHash bytes
  | server {c : PrivateConfig} {auditorPk : Option Octets} {treeSize : ℕ} {rootHash bytes : Octets}
      (h : constructTreeHeadTbs P c auditorPk treeSize rootHash = .ok bytes) :
      HeadTbs P (c.signedFor P auditorPk) treeSize rootHash bytes

/-- The strings of an auditor's tree head under a configuration. -/
inductive AuditorTbs (P : Primitives) : PublicConfig → ℕ → U64 → Octets → Octets → Prop
  | client {c : PublicConfig} {treeSize : ℕ} {timestamp : U64} {rootHash bytes : Octets}
      (h : constructAuditorTreeHeadTbsPublic c treeSize timestamp rootHash = .ok bytes) :
      AuditorTbs P c treeSize timestamp rootHash bytes
  | server {c : PrivateConfig} {auditorPk : Octets} {treeSize : ℕ} {timestamp : U64}
      {rootHash bytes : Octets}
      (h : constructAuditorTreeHeadTbs P c auditorPk treeSize timestamp rootHash = .ok bytes) :
      AuditorTbs P (c.signedFor P (some auditorPk)) treeSize timestamp rootHash bytes

theorem HeadTbs.eq_ok {P : Primitives} {c : PublicConfig} {treeSize : ℕ} {rootHash bytes : Octets}
    (h : HeadTbs P c treeSize rootHash bytes) :
    constructTreeHeadTbsPublic c treeSize rootHash = .ok bytes := by
  cases h with
  | client h => exact h
  | server h => exact h

theorem AuditorTbs.eq_ok {P : Primitives} {c : PublicConfig} {treeSize : ℕ} {timestamp : U64}
    {rootHash bytes : Octets} (h : AuditorTbs P c treeSize timestamp rootHash bytes) :
    constructAuditorTreeHeadTbsPublic c treeSize timestamp rootHash = .ok bytes := by
  cases h with
  | client h => exact h
  | server h => exact h

/-- **Signed and committed encodings are injective**: the VRF input in label and version; the
string that `commit` authenticates in all its inputs, with a suffix and without; what servers
and auditors sign in every field that the deployment mode encodes.  No string is of both of
these kinds. -/
theorem encodings_injective (P : Primitives) :
    (∀ (label label' bytes : Octets) (version version' : ℕ), version < 2 ^ 32 → version' < 2 ^ 32 →
      constructVrfInput label version = .ok bytes → constructVrfInput label' version' = .ok bytes →
      label = label' ∧ version = version') ∧
    ((∀ label version updateValue suffixSignature opening,
      commit P label version updateValue suffixSignature opening =
        commitmentValue label version updateValue suffixSignature opening >>= fun value =>
          .ok (P.hmacSha256 kc value)) ∧
      ∀ (label label' updateValue updateValue' opening opening' bytes : Octets) (version version' : ℕ)
        (suffixSignature suffixSignature' : Option Octets), version < 2 ^ 32 → version' < 2 ^ 32 →
        suffixSignature.isSome = suffixSignature'.isSome →
        commitmentValue label version updateValue suffixSignature opening = .ok bytes →
        commitmentValue label' version' updateValue' suffixSignature' opening' = .ok bytes →
        opening = opening' ∧ label = label' ∧ version = version' ∧ updateValue = updateValue' ∧
          suffixSignature = suffixSignature') ∧
    ∀ c c' : PublicConfig, c.Sized → c'.Sized → ∀ treeSize < 2 ^ 64, ∀ treeSize' < 2 ^ 64,
      ∀ (timestamp timestamp' : U64) (rootHash rootHash' bytes : Octets),
        (HeadTbs P c treeSize rootHash bytes → HeadTbs P c' treeSize' rootHash' bytes →
          c.SameFields c' ∧ treeSize = treeSize' ∧ rootHash = rootHash') ∧
        (AuditorTbs P c treeSize timestamp rootHash bytes →
          AuditorTbs P c' treeSize' timestamp' rootHash' bytes →
          c.SameFields c' ∧ treeSize = treeSize' ∧ timestamp = timestamp' ∧ rootHash = rootHash') ∧
        (HeadTbs P c treeSize rootHash bytes → ¬ AuditorTbs P c' treeSize' timestamp' rootHash' bytes) := by
  refine ⟨fun label label' bytes version version' => constructVrfInput_inj,
    ⟨fun label version updateValue suffixSignature opening => commit_eq P .., ?_⟩, ?_⟩
  · intro label label' updateValue updateValue' opening opening' bytes version version' suffixSignature
      suffixSignature' hversion hversion' hsuffix h h'
    exact commitmentValue_inj hversion hversion' hsuffix h h'
  · intro c c' hc hc' treeSize hsize treeSize' hsize' timestamp timestamp' rootHash rootHash' bytes
    refine ⟨fun h h' => ?_, fun h h' => ?_, fun h h' => ?_⟩
    · exact constructTreeHeadTbsPublic_inj hc hc' hsize hsize' h.eq_ok h'.eq_ok
    · exact constructAuditorTreeHeadTbsPublic_agree hc hc' hsize hsize' h.eq_ok h'.eq_ok
    · exact constructTreeHeadTbsPublic_ne_auditor hc hc' h.eq_ok h'.eq_ok rfl

/-- The two strings of a new server with an auditor. -/
theorem encodings_injective_audited : ∃ bytes bytes',
    HeadTbs Primitives.ideal newAuditedConfig 1 (zeros 32) bytes ∧
      AuditorTbs Primitives.ideal newAuditedConfig 1 0 (zeros 32) bytes' ∧ bytes ≠ bytes' := by
  have hsized : newAuditedConfig.Sized := ⟨by decide, by decide, by decide, by decide, by decide, by decide,
    by decide, fun v hv => by cases hv⟩
  have hhead : HeadTbs Primitives.ideal newAuditedConfig 1 (zeros 32) _ := .client rfl
  have hauditor : AuditorTbs Primitives.ideal newAuditedConfig 1 0 (zeros 32) _ := .client rfl
  refine ⟨_, _, hhead, hauditor, fun heq => ?_⟩
  exact ((encodings_injective Primitives.ideal).2.2 _ _ hsized hsized 1 (by decide) 1 (by decide) 0 0
    (zeros 32) (zeros 32) _).2.2 hhead (heq ▸ hauditor)

end KeyTransparency
