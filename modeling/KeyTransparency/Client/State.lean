/-
# The client

`KtClient` of `src/client/core.rs`: what it pins and what it has retained of the
operations it has verified.  The maps of the source are functions here, except for
the monitoring maps and the distinguished entries, which are walked in the order of
their positions.  The head kept
for gossip is the message, where the source keeps its encoding.
-/

import KeyTransparency.Client.LogVerifier
import KeyTransparency.Crypto.Signing
import KeyTransparency.Library.OrderedMap

namespace KeyTransparency

structure TrustedState where
  treeSize : ℕ
  rootHash : Octets
  timestamp : U64
deriving DecidableEq, Repr

/-- A distinguished log entry: its timestamp and prefix root, and the peaks of the
log that ends with it. -/
structure DistinguishedEntry where
  timestamp : U64
  root : Octets
  peaks : List Octets

structure KtClient where
  sigPk : Octets
  vrfPk : Octets
  config : PublicConfig
  state : Option TrustedState
  retainedSubtrees : NodeMap
  /-- The size and timestamp of the auditor head verified last. -/
  auditorHead : Option (ℕ × U64)
  /-- By label and position, the version to monitor there. -/
  monitoringMap : Octets → OrderedMap ℕ
  /-- By label and version, the VRF output and the commitment. -/
  versionMaterial : Octets → ℕ → Option (Octets × Option Octets)
  distinguishedEntries : OrderedMap DistinguishedEntry
  retainedHead : Option TreeHead

/-- `with_channel`: a client that has not verified anything. -/
def KtClient.withChannel (P : Primitives) (config : PublicConfig) : Result KtClient := do
  ensure (config.mode ≠ deploymentModeThirdPartyManagement)
    "Third-party management mode is not supported: leaf signatures would not be verified or committed"
  let sigPk ← (serviceVerifyingKey P config.serverSigPk).context
    "Invalid server signing public key in PublicConfig"
  return ⟨sigPk, config.vrfPublicKey, config, none, fun _ => none, none, fun _ => .empty,
    fun _ _ => none, .empty, none⟩

/-- What a client is run with: its clock, which may not be readable, and whether
its state can be saved. -/
structure Env where
  now : Option U64
  saveState : KtClient → Result Unit

/-- `u64::saturating_add`. -/
def saturatingAdd (a b : ℕ) : ℕ := min (a + b) (2 ^ 64 - 1)

end KeyTransparency
