/-
# The configuration of the protocol

`Configuration` as the protocol lays it out, with the fields of each deployment mode, and a
decoder that recovers them.  `serialize_configuration` and its public copy lay out the same
fields, but for the auditing mode, where they write the start position before the lag: the
two are told apart by their order alone (`configuration_conformance_iff`).
-/

import KeyTransparency.Crypto.Signing
import KeyTransparency.Library.Framing

namespace KeyTransparency

open Octets

/-! ### The protocol's encoding -/

/-- The fields that depend on the deployment mode. -/
inductive ModeFields
  | contactMonitoring (leafPublicKey : Octets)
  | thirdPartyManagement (leafPublicKey : Octets)
  | thirdPartyAuditing (maxAuditorLag auditorStartPos : ℕ) (auditorPublicKey : Octets)
deriving DecidableEq, Repr

namespace ModeFields

def mode : ModeFields → ℕ
  | contactMonitoring _ => deploymentModeContactMonitoring
  | thirdPartyManagement _ => deploymentModeThirdPartyManagement
  | thirdPartyAuditing _ _ _ => deploymentModeThirdPartyAuditing

def encode : ModeFields → Octets
  | contactMonitoring leafPublicKey => vector 2 leafPublicKey
  | thirdPartyManagement leafPublicKey => vector 2 leafPublicKey
  | thirdPartyAuditing maxAuditorLag auditorStartPos auditorPublicKey =>
    beBytes 8 maxAuditorLag ++ beBytes 8 auditorStartPos ++ vector 2 auditorPublicKey

def decode (mode : ℕ) (input : Octets) : Option (ModeFields × Octets) :=
  match mode with
  | 1 => (readVector 2 input).map fun (key, rest) => (contactMonitoring key, rest)
  | 2 => (readVector 2 input).map fun (key, rest) => (thirdPartyManagement key, rest)
  | 3 => do
    let (maxAuditorLag, input) ← readUint 8 input
    let (auditorStartPos, input) ← readUint 8 input
    let (key, input) ← readVector 2 input
    return (thirdPartyAuditing maxAuditorLag auditorStartPos key, input)
  | _ => none

theorem mode_lt (m : ModeFields) : m.mode < 256 ^ 1 := by
  cases m <;> simp [mode, deploymentModeContactMonitoring, deploymentModeThirdPartyManagement,
    deploymentModeThirdPartyAuditing]

/-- The values fit their fields. -/
def Fits : ModeFields → Prop
  | contactMonitoring leafPublicKey => leafPublicKey.length < 2 ^ 16
  | thirdPartyManagement leafPublicKey => leafPublicKey.length < 2 ^ 16
  | thirdPartyAuditing maxAuditorLag auditorStartPos auditorPublicKey =>
    maxAuditorLag < 2 ^ 64 ∧ auditorStartPos < 2 ^ 64 ∧ auditorPublicKey.length < 2 ^ 16

theorem decode_encode {m : ModeFields} (h : m.Fits) (rest : Octets) :
    decode m.mode (m.encode ++ rest) = some (m, rest) := by
  cases m with
  | contactMonitoring key =>
    exact congrArg (Option.map _) (readVector_vector (w := 2) h rest)
  | thirdPartyManagement key =>
    exact congrArg (Option.map _) (readVector_vector (w := 2) h rest)
  | thirdPartyAuditing lag start key =>
    obtain ⟨hlag, hstart, hkey⟩ := h
    simp only [mode, deploymentModeThirdPartyAuditing, decode, encode, List.append_assoc]
    rw [readUint_beBytes (by omega)]
    simp only [Option.bind_eq_bind, Option.bind_some]
    rw [readUint_beBytes (by omega)]
    simp only [Option.bind_some]
    rw [readVector_vector (by omega)]
    rfl

end ModeFields

structure Configuration where
  cipherSuite : ℕ
  signaturePublicKey : Octets
  vrfPublicKey : Octets
  modeFields : ModeFields
  maxAhead : ℕ
  maxBehind : ℕ
  reasonableMonitoringWindow : ℕ
  maximumLifetime : Option ℕ
deriving DecidableEq, Repr

namespace Configuration

def encode (c : Configuration) : Octets :=
  beBytes 2 c.cipherSuite ++ beBytes 1 c.modeFields.mode ++ vector 2 c.signaturePublicKey ++
    vector 2 c.vrfPublicKey ++ c.modeFields.encode ++ beBytes 8 c.maxAhead ++ beBytes 8 c.maxBehind ++
    beBytes 8 c.reasonableMonitoringWindow ++ optional (beBytes 8) c.maximumLifetime

def decode (input : Octets) : Option (Configuration × Octets) := do
  let (cipherSuite, input) ← readUint 2 input
  let (mode, input) ← readUint 1 input
  let (signaturePublicKey, input) ← readVector 2 input
  let (vrfPublicKey, input) ← readVector 2 input
  let (modeFields, input) ← ModeFields.decode mode input
  let (maxAhead, input) ← readUint 8 input
  let (maxBehind, input) ← readUint 8 input
  let (reasonableMonitoringWindow, input) ← readUint 8 input
  let (maximumLifetime, input) ← readOptional (readUint 8) input
  return (⟨cipherSuite, signaturePublicKey, vrfPublicKey, modeFields, maxAhead, maxBehind,
    reasonableMonitoringWindow, maximumLifetime⟩, input)

/-- The values fit their fields. -/
structure Fits (c : Configuration) : Prop where
  cipherSuite : c.cipherSuite < 2 ^ 16
  signaturePublicKey : c.signaturePublicKey.length < 2 ^ 16
  vrfPublicKey : c.vrfPublicKey.length < 2 ^ 16
  modeFields : c.modeFields.Fits
  maxAhead : c.maxAhead < 2 ^ 64
  maxBehind : c.maxBehind < 2 ^ 64
  reasonableMonitoringWindow : c.reasonableMonitoringWindow < 2 ^ 64
  maximumLifetime : ∀ v ∈ c.maximumLifetime, v < 2 ^ 64

/-- **A decoder recovers every field.** -/
theorem decode_encode {c : Configuration} (h : c.Fits) (rest : Octets) :
    decode (c.encode ++ rest) = some (c, rest) := by
  have hmode := c.modeFields.mode_lt
  have hlifetime : ∀ v ∈ c.maximumLifetime,
      readUint 8 (beBytes 8 v ++ rest) = some (v, rest) := fun v hv =>
    readUint_beBytes (h.maximumLifetime v hv) rest
  simp only [decode, encode, List.append_assoc, Option.bind_eq_bind,
    readUint_beBytes (w := 2) h.cipherSuite, readUint_beBytes hmode,
    readVector_vector (w := 2) h.signaturePublicKey, readVector_vector (w := 2) h.vrfPublicKey,
    ModeFields.decode_encode h.modeFields, readUint_beBytes (w := 8) h.maxAhead,
    readUint_beBytes (w := 8) h.maxBehind, readUint_beBytes (w := 8) h.reasonableMonitoringWindow,
    readOptional_optional hlifetime, Option.bind_some, Option.pure_def]

end Configuration

/-! ### The code's encoding -/

namespace PublicConfig

/-- The fields of the deployment mode, in auditing mode when there is an auditor's key. -/
def modeFields (c : PublicConfig) : Option ModeFields :=
  match c.mode with
  | 1 => some (.contactMonitoring (c.leafPublicKey.getD []))
  | 2 => some (.thirdPartyManagement (c.leafPublicKey.getD []))
  | 3 => c.auditorPublicKey.map (.thirdPartyAuditing c.maxAuditorLag c.auditorStartPos)
  | _ => none

/-- The protocol's configuration that a pinned one stands for. -/
def configuration (c : PublicConfig) : Option Configuration :=
  c.modeFields.map fun fields => ⟨c.cipherSuite, c.serverSigPk, c.vrfPublicKey, fields, c.maxAhead,
    c.maxBehind, c.reasonableMonitoringWindow, c.maximumLifetime⟩

/-- The values are of the types of their fields, and the mode is one of the three. -/
structure Typed (c : PublicConfig) : Prop where
  cipherSuite : c.cipherSuite < 2 ^ 16
  mode : c.mode = deploymentModeContactMonitoring ∨ c.mode = deploymentModeThirdPartyManagement ∨
    c.mode = deploymentModeThirdPartyAuditing
  auditorStartPos : c.auditorStartPos < 2 ^ 64
  maxAuditorLag : c.maxAuditorLag < 2 ^ 64
  maxAhead : c.maxAhead < 2 ^ 64
  maxBehind : c.maxBehind < 2 ^ 64
  reasonableMonitoringWindow : c.reasonableMonitoringWindow < 2 ^ 64
  maximumLifetime : ∀ v ∈ c.maximumLifetime, v < 2 ^ 64

/-- **A serializer conforms** if what it returns is the protocol's encoding, so that a decoder
recovers every field. -/
def Conforms (c : PublicConfig) (serialized : Result Octets) : Prop :=
  ∀ bytes, serialized = .ok bytes → ∃ conf, c.configuration = some conf ∧ bytes = conf.encode ∧
    Configuration.decode bytes = some (conf, [])

/-- The auditor's fields can be told apart: in auditing mode, with keys that fit. -/
structure Swapped (c : PublicConfig) : Prop where
  mode : c.mode = deploymentModeThirdPartyAuditing
  serverSigPk : c.serverSigPk.length < 2 ^ 16
  vrfPublicKey : c.vrfPublicKey.length < 2 ^ 16
  auditorPublicKey : ∃ apk, c.auditorPublicKey = some apk ∧ apk.length < 2 ^ 16
  differ : c.auditorStartPos ≠ c.maxAuditorLag

theorem optionalU64_eq (o : Option ℕ) : optionalU64 o = optional (beBytes 8) o := by
  cases o <;> rfl

/-- What the serializer writes of the mode's fields. -/
def modeData (c : PublicConfig) : ModeFields → Octets
  | .thirdPartyAuditing _ _ apk =>
    beBytes 8 c.auditorStartPos ++ beBytes 8 c.maxAuditorLag ++ vector 2 apk
  | m => m.encode

theorem opaqueBytes_two {bytes out : Octets} :
    opaqueBytes 2 bytes = .ok out ↔ bytes.length < 2 ^ 16 ∧ out = vector 2 bytes := by
  unfold opaqueBytes
  split_ifs with h
  · have hlt : bytes.length < 2 ^ 16 := h
    simp only [Except.ok.injEq, hlt, true_and, vector, eq_comm]
  · have hlt : ¬ bytes.length < 2 ^ 16 := h
    simp only [fail_ne_ok, hlt, false_and]

theorem mode_of_modeFields {c : PublicConfig} {fields : ModeFields}
    (h : c.modeFields = some fields) : fields.mode = c.mode := by
  unfold modeFields at h
  split at h
  · rename_i hmode
    obtain rfl := Option.some.inj h
    exact hmode.symm
  · rename_i hmode
    obtain rfl := Option.some.inj h
    exact hmode.symm
  · rename_i hmode
    obtain ⟨apk, -, rfl⟩ := Option.map_eq_some_iff.1 h
    exact hmode.symm
  · cases h

/-- What the serializer writes around the mode's fields. -/
def serialized (c : PublicConfig) (modeData : Octets) : Octets :=
  beBytes 2 c.cipherSuite ++ beBytes 1 c.mode ++ vector 2 c.serverSigPk ++ vector 2 c.vrfPublicKey ++
    modeData ++ beBytes 8 c.maxAhead ++ beBytes 8 c.maxBehind ++
    beBytes 8 c.reasonableMonitoringWindow ++ optional (beBytes 8) c.maximumLifetime

theorem serialize_of_ne {c : PublicConfig} (hmode : c.mode ≠ 3) {bytes : Octets} :
    serializeConfigurationPublic c = .ok bytes ↔ c.serverSigPk.length < 2 ^ 16 ∧
      c.vrfPublicKey.length < 2 ^ 16 ∧ (c.leafPublicKey.getD []).length < 2 ^ 16 ∧
      bytes = c.serialized (vector 2 (c.leafPublicKey.getD [])) := by
  simp only [serializeConfigurationPublic, if_neg hmode, Result.bind_eq_ok, opaqueBytes_two,
    Result.pure_eq, Except.ok.injEq, optionalU64_eq]
  constructor
  · rintro ⟨_, ⟨hsig, rfl⟩, _, ⟨hvrf, rfl⟩, _, ⟨hleaf, rfl⟩, rfl⟩
    exact ⟨hsig, hvrf, hleaf, rfl⟩
  · rintro ⟨hsig, hvrf, hleaf, rfl⟩
    exact ⟨_, ⟨hsig, rfl⟩, _, ⟨hvrf, rfl⟩, _, ⟨hleaf, rfl⟩, rfl⟩

theorem serialize_of_eq {c : PublicConfig} (hmode : c.mode = 3) {bytes : Octets} :
    serializeConfigurationPublic c = .ok bytes ↔ c.serverSigPk.length < 2 ^ 16 ∧
      c.vrfPublicKey.length < 2 ^ 16 ∧ ∃ apk, c.auditorPublicKey = some apk ∧
        apk.length < 2 ^ 16 ∧ bytes = c.serialized
          (beBytes 8 c.auditorStartPos ++ beBytes 8 c.maxAuditorLag ++ vector 2 apk) := by
  simp only [serializeConfigurationPublic, if_pos hmode, Result.bind_eq_ok, opaqueBytes_two,
    okOr_eq_ok, Result.pure_eq, Except.ok.injEq, optionalU64_eq]
  constructor
  · rintro ⟨_, ⟨hsig, rfl⟩, _, ⟨hvrf, rfl⟩, apk, hapk, _, ⟨hkey, rfl⟩, _, rfl, rfl⟩
    exact ⟨hsig, hvrf, apk, hapk, hkey, rfl⟩
  · rintro ⟨hsig, hvrf, apk, hapk, hkey, rfl⟩
    exact ⟨_, ⟨hsig, rfl⟩, _, ⟨hvrf, rfl⟩, apk, hapk, _, ⟨hkey, rfl⟩, _, rfl, rfl⟩

/-- **What the serializer returns.** -/
theorem serializeConfigurationPublic_eq_ok {c : PublicConfig} (h : c.Typed) {bytes : Octets} :
    serializeConfigurationPublic c = .ok bytes ↔ ∃ conf, c.configuration = some conf ∧ conf.Fits ∧
      bytes = c.serialized (c.modeData conf.modeFields) := by
  have hfits : ∀ {fields : ModeFields}, c.serverSigPk.length < 2 ^ 16 → c.vrfPublicKey.length < 2 ^ 16 →
      fields.Fits → Configuration.Fits ⟨c.cipherSuite, c.serverSigPk, c.vrfPublicKey, fields, c.maxAhead,
        c.maxBehind, c.reasonableMonitoringWindow, c.maximumLifetime⟩ := fun hsig hvrf hfields =>
    ⟨h.cipherSuite, hsig, hvrf, hfields, h.maxAhead, h.maxBehind, h.reasonableMonitoringWindow,
      h.maximumLifetime⟩
  rw [configuration, modeFields]
  rcases h.mode with hmode | hmode | hmode
  · rw [serialize_of_ne (by rw [hmode]; decide), hmode]
    constructor
    · rintro ⟨hsig, hvrf, hleaf, rfl⟩
      exact ⟨_, rfl, hfits hsig hvrf hleaf, rfl⟩
    · rintro ⟨conf, hconf, hfits, rfl⟩
      obtain rfl := Option.some.inj hconf
      exact ⟨hfits.signaturePublicKey, hfits.vrfPublicKey, hfits.modeFields, rfl⟩
  · rw [serialize_of_ne (by rw [hmode]; decide), hmode]
    constructor
    · rintro ⟨hsig, hvrf, hleaf, rfl⟩
      exact ⟨_, rfl, hfits hsig hvrf hleaf, rfl⟩
    · rintro ⟨conf, hconf, hfits, rfl⟩
      obtain rfl := Option.some.inj hconf
      exact ⟨hfits.signaturePublicKey, hfits.vrfPublicKey, hfits.modeFields, rfl⟩
  · rw [serialize_of_eq hmode, hmode]
    constructor
    · rintro ⟨hsig, hvrf, apk, hapk, hkey, rfl⟩
      have hfields : (ModeFields.thirdPartyAuditing c.maxAuditorLag c.auditorStartPos apk).Fits :=
        ⟨h.maxAuditorLag, h.auditorStartPos, hkey⟩
      refine ⟨_, ?_, hfits hsig hvrf hfields, rfl⟩
      simp only [deploymentModeThirdPartyAuditing, hapk, Option.map_some]
    · rintro ⟨conf, hconf, hfits, rfl⟩
      simp only [deploymentModeThirdPartyAuditing, Option.map_map, Option.map_eq_some_iff] at hconf
      obtain ⟨apk, hapk, rfl⟩ := hconf
      exact ⟨hfits.signaturePublicKey, hfits.vrfPublicKey, apk, hapk, hfits.modeFields.2.2, rfl⟩

theorem encode_configuration {c : PublicConfig} {conf : Configuration}
    (h : c.configuration = some conf) : conf.encode = c.serialized conf.modeFields.encode := by
  obtain ⟨fields, hfields, rfl⟩ := Option.map_eq_some_iff.1 h
  rw [Configuration.encode, serialized, mode_of_modeFields hfields]

/-- **When the serializer conforms.** -/
theorem conforms_iff {c : PublicConfig} (h : c.Typed) :
    c.Conforms (serializeConfigurationPublic c) ↔ ¬ c.Swapped := by
  constructor
  · intro hconforms hswapped
    obtain ⟨hmode, hsig, hvrf, ⟨apk, hapk, hkey⟩, hdiffer⟩ := hswapped
    have hfields : c.modeFields = some (.thirdPartyAuditing c.maxAuditorLag c.auditorStartPos apk) := by
      rw [modeFields, hmode]
      exact congrArg (Option.map _) hapk
    have hconf : c.configuration = some ⟨c.cipherSuite, c.serverSigPk, c.vrfPublicKey,
        .thirdPartyAuditing c.maxAuditorLag c.auditorStartPos apk, c.maxAhead, c.maxBehind,
        c.reasonableMonitoringWindow, c.maximumLifetime⟩ := by
      rw [configuration, hfields]
      rfl
    obtain ⟨conf, hconf', hencode, -⟩ := hconforms _ ((serializeConfigurationPublic_eq_ok h).2
      ⟨_, hconf, ⟨h.cipherSuite, hsig, hvrf, ⟨h.maxAuditorLag, h.auditorStartPos, hkey⟩, h.maxAhead,
        h.maxBehind, h.reasonableMonitoringWindow, h.maximumLifetime⟩, rfl⟩)
    obtain rfl := Option.some.inj (hconf.symm.trans hconf')
    rw [encode_configuration hconf] at hencode
    simp only [serialized, modeData, ModeFields.encode, List.append_assoc,
      List.append_cancel_left_eq] at hencode
    have hstart := (List.append_inj hencode (by simp)).1
    exact hdiffer (beBytes_inj (w := 8) h.auditorStartPos h.maxAuditorLag hstart)
  · intro hnot bytes hbytes
    obtain ⟨conf, hconf, hfits, hbytes⟩ := (serializeConfigurationPublic_eq_ok h).1 hbytes
    have hdata : c.modeData conf.modeFields = conf.modeFields.encode := by
      obtain ⟨fields, hfields, rfl⟩ := Option.map_eq_some_iff.1 hconf
      have hmode := mode_of_modeFields hfields
      cases fields with
      | contactMonitoring key => rfl
      | thirdPartyManagement key => rfl
      | thirdPartyAuditing lag start key =>
        -- the fields are written in the other order, which shows unless they are equal
        rw [modeFields, ← hmode] at hfields
        obtain ⟨apk, hapk, heq⟩ := Option.map_eq_some_iff.1 hfields
        obtain ⟨rfl, rfl, rfl⟩ := ModeFields.thirdPartyAuditing.inj heq
        have hsame : c.auditorStartPos = c.maxAuditorLag := by
          by_contra hdiffer
          exact hnot ⟨hmode.symm, hfits.signaturePublicKey, hfits.vrfPublicKey,
            ⟨apk, hapk, hfits.modeFields.2.2⟩, hdiffer⟩
        simp only [modeData, ModeFields.encode, hsame]
    rw [hdata, ← encode_configuration hconf] at hbytes
    refine ⟨conf, hconf, hbytes, ?_⟩
    have hdecode := Configuration.decode_encode hfits []
    rw [List.append_nil] at hdecode
    rw [hbytes]
    exact hdecode

end PublicConfig

/-- **When the configuration is encoded as the protocol says**, by both serializers: unless, in
auditing mode and with keys that fit, the start position and the lag differ. -/
theorem configuration_conformance_iff (P : Primitives) (c : PublicConfig) (h : c.Typed) :
    (c.Conforms (serializeConfigurationPublic c) ↔ ¬ c.Swapped) ∧
    ∀ (server : PrivateConfig) (auditorPk : Option Octets), server.signedFor P auditorPk = c →
      (c.Conforms (serializeConfiguration P server auditorPk) ↔ ¬ c.Swapped) := by
  refine ⟨PublicConfig.conforms_iff h, ?_⟩
  rintro server auditorPk rfl
  rw [serializeConfiguration_eq]
  exact PublicConfig.conforms_iff h

/-- The configuration of a new server with one auditor. -/
def newAuditedConfig : PublicConfig where
  cipherSuite := 1
  mode := deploymentModeThirdPartyAuditing
  serverSigPk := zeros 32
  vrfPublicKey := zeros 32
  leafPublicKey := none
  auditorPublicKey := some (zeros 32)
  auditorStartPos := 0
  maxAuditorLag := 60000
  maxAhead := 0
  maxBehind := 0
  reasonableMonitoringWindow := 0
  maximumLifetime := none

theorem newAuditedConfig_typed : newAuditedConfig.Typed :=
  ⟨by decide, .inr (.inr rfl), by decide, by decide, by decide, by decide, by decide,
    fun v hv => by cases hv⟩

/-- Without an auditor it conforms. -/
theorem configuration_conformance_iff_unaudited :
    PublicConfig.Conforms { newAuditedConfig with mode := deploymentModeContactMonitoring }
      (serializeConfigurationPublic
        { newAuditedConfig with mode := deploymentModeContactMonitoring }) :=
  (configuration_conformance_iff Primitives.ideal _ ⟨by decide, .inl rfl, by decide, by decide,
    by decide, by decide, by decide, fun v hv => by cases hv⟩).1.2 fun h => by cases h.mode

/-- **A new server with an auditor does not conform.** -/
theorem newAuditedConfig_not_conforms :
    ¬ newAuditedConfig.Conforms (serializeConfigurationPublic newAuditedConfig) := fun h =>
  (PublicConfig.conforms_iff newAuditedConfig_typed).1 h
    ⟨rfl, by decide, by decide, ⟨_, rfl, by decide⟩, by decide⟩

end KeyTransparency
