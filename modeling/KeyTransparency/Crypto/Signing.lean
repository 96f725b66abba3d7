/-
# Signed tree heads

The configurations and VRF inputs of `src/crypto/mod.rs`, and of
`src/crypto/signing.rs` the strings that tree heads sign.  A verifying key is its
encoding.
-/

import KeyTransparency.Crypto.Hash
import KeyTransparency.Proto

namespace KeyTransparency

open Octets

def deploymentModeContactMonitoring : ℕ := 1
def deploymentModeThirdPartyManagement : ℕ := 2
def deploymentModeThirdPartyAuditing : ℕ := 3

structure PrivateConfig where
  cipherSuite : ℕ
  mode : ℕ
  sigKey : Octets
  vrfKey : Octets
  vrfPublicKey : Octets
  auditorKeys : List Octets
  auditorPublicKey : Option Octets
  auditorStartPos : ℕ
  maxAuditorLag : ℕ
  maxAhead : ℕ
  maxBehind : ℕ
  reasonableMonitoringWindow : ℕ
  maximumLifetime : Option ℕ
  leafPublicKey : Option Octets

structure PublicConfig where
  cipherSuite : ℕ
  mode : ℕ
  serverSigPk : Octets
  vrfPublicKey : Octets
  leafPublicKey : Option Octets
  auditorPublicKey : Option Octets
  auditorStartPos : ℕ
  maxAuditorLag : ℕ
  maxAhead : ℕ
  maxBehind : ℕ
  reasonableMonitoringWindow : ℕ
  maximumLifetime : Option ℕ

/-- The configuration that clients of a server pin. -/
def PrivateConfig.toPublic (P : Primitives) (c : PrivateConfig) : PublicConfig where
  cipherSuite := c.cipherSuite
  mode := c.mode
  serverSigPk := P.verifyingKey c.sigKey
  vrfPublicKey := c.vrfPublicKey
  leafPublicKey := c.leafPublicKey
  auditorPublicKey := c.auditorPublicKey
  auditorStartPos := c.auditorStartPos
  maxAuditorLag := c.maxAuditorLag
  maxAhead := c.maxAhead
  maxBehind := c.maxBehind
  reasonableMonitoringWindow := c.reasonableMonitoringWindow
  maximumLifetime := c.maximumLifetime

def constructVrfInput (label : Octets) (version : ℕ) : Result Octets := do
  ensure (label.length < 256) "Label too long for VRF Input"
  let label ← opaqueBytes 1 label
  return label ++ beBytes 4 version

def PrivateConfig.vrfProve (P : Primitives) (c : PrivateConfig) (label : Octets) (version : ℕ) :
    Result (Octets × Octets) := do
  let input ← constructVrfInput label version
  P.ecvrfProve c.vrfKey input

/-- `ServiceVerifyingKey::from_bytes`: the length tells the scheme. -/
def serviceVerifyingKey (P : Primitives) (bytes : Octets) : Result Octets :=
  if bytes.length = 32 ∨ bytes.length = 33 then P.decodeKey bytes
  else fail s!"Unknown key format length: {bytes.length}"

/-- `Optional<u64>`: a presence octet and the value. -/
def optionalU64 : Option ℕ → Octets
  | none => [0]
  | some v => 1 :: beBytes 8 v

/-- `serialize_configuration_public`. -/
def serializeConfigurationPublic (c : PublicConfig) : Result Octets := do
  let serverSigPk ← opaqueBytes 2 c.serverSigPk
  let vrfPublicKey ← opaqueBytes 2 c.vrfPublicKey
  let modeData ←
    if c.mode = 3 then do
      let apk ← okOr c.auditorPublicKey "Auditor public key required for ThirdPartyAuditing mode"
      let apk ← opaqueBytes 2 apk
      pure (beBytes 8 c.auditorStartPos ++ beBytes 8 c.maxAuditorLag ++ apk)
    else opaqueBytes 2 (c.leafPublicKey.getD [])
  return beBytes 2 c.cipherSuite ++ beBytes 1 c.mode ++ serverSigPk ++ vrfPublicKey ++ modeData ++
    beBytes 8 c.maxAhead ++ beBytes 8 c.maxBehind ++ beBytes 8 c.reasonableMonitoringWindow ++
    optionalU64 c.maximumLifetime

/-- `serialize_configuration`: the same fields from the server's side, with the
auditor key the head is signed for. -/
def serializeConfiguration (P : Primitives) (c : PrivateConfig) (auditorPk : Option Octets) :
    Result Octets := do
  let serverSigPk ← opaqueBytes 2 (P.verifyingKey c.sigKey)
  let vrfPublicKey ← opaqueBytes 2 c.vrfPublicKey
  let modeData ←
    if c.mode = 3 then do
      let apk ← okOr (auditorPk.or c.auditorPublicKey)
        "Auditor public key required for ThirdPartyAuditing mode"
      let apk ← opaqueBytes 2 apk
      pure (beBytes 8 c.auditorStartPos ++ beBytes 8 c.maxAuditorLag ++ apk)
    else opaqueBytes 2 (c.leafPublicKey.getD [])
  return beBytes 2 c.cipherSuite ++ beBytes 1 c.mode ++ serverSigPk ++ vrfPublicKey ++ modeData ++
    beBytes 8 c.maxAhead ++ beBytes 8 c.maxBehind ++ beBytes 8 c.reasonableMonitoringWindow ++
    optionalU64 c.maximumLifetime

/-- The public configuration whose encoding a server signs with an auditor key. -/
def PrivateConfig.signedFor (P : Primitives) (c : PrivateConfig) (auditorPk : Option Octets) :
    PublicConfig :=
  { c.toPublic P with auditorPublicKey := auditorPk.or c.auditorPublicKey }

/-- **The two serializers are one**, up to the auditor key. -/
theorem serializeConfiguration_eq (P : Primitives) (c : PrivateConfig) (auditorPk : Option Octets) :
    serializeConfiguration P c auditorPk =
      serializeConfigurationPublic (c.signedFor P auditorPk) := rfl

def treeHeadTbs (config : Octets) (treeSize : ℕ) (rootHash : Octets) : Result Octets := do
  ensure (rootHash.length = 32) "Root hash must be 32 bytes"
  return config ++ beBytes 8 treeSize ++ rootHash

def auditorTreeHeadTbs (config : Octets) (treeSize : ℕ) (timestamp : U64) (rootHash : Octets) :
    Result Octets := do
  ensure (rootHash.length = 32) "Root hash must be 32 bytes"
  return config ++ beBytes 8 timestamp ++ beBytes 8 treeSize ++ rootHash

def constructTreeHeadTbs (P : Primitives) (c : PrivateConfig) (auditorPk : Option Octets)
    (treeSize : ℕ) (rootHash : Octets) : Result Octets := do
  let config ← serializeConfiguration P c auditorPk
  treeHeadTbs config treeSize rootHash

def constructAuditorTreeHeadTbs (P : Primitives) (c : PrivateConfig) (auditorPk : Octets)
    (treeSize : ℕ) (timestamp : U64) (rootHash : Octets) : Result Octets := do
  let config ← serializeConfiguration P c (some auditorPk)
  auditorTreeHeadTbs config treeSize timestamp rootHash

def constructTreeHeadTbsPublic (c : PublicConfig) (treeSize : ℕ) (rootHash : Octets) :
    Result Octets := do
  let config ← serializeConfigurationPublic c
  treeHeadTbs config treeSize rootHash

def constructAuditorTreeHeadTbsPublic (c : PublicConfig) (treeSize : ℕ) (timestamp : U64)
    (rootHash : Octets) : Result Octets := do
  let config ← serializeConfigurationPublic c
  auditorTreeHeadTbs config treeSize timestamp rootHash

end KeyTransparency
