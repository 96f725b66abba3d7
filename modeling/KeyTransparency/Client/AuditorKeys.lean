/-
# The auditor key that heads are signed for

`PrivateConfig::new` of `src/crypto/mod.rs` pins the smallest of the auditors' keys, while
`apply_batch` signs heads for the first key that the map of auditors yields, and
`set_auditor_head` checks an auditor's head under the auditor's own key.  What is signed and
what clients check are the same octets exactly when the keys cannot differ
(`signed_bytes_agree_iff`).
-/

import KeyTransparency.Client.HonestServer
import KeyTransparency.Crypto.Configuration
import Mathlib.Data.List.Sort

namespace KeyTransparency

open Octets

def cipherSuiteKt128Sha256P256 : ℕ := 1
def cipherSuiteKt128Sha256Ed25519 : ℕ := 2

/-- The kinds of `ServiceSigningKey`. -/
inductive SignatureScheme
  | ed25519
  | p256
deriving DecidableEq, Repr

/-- The first key after sorting. -/
def smallestKey (keys : List Octets) : Option Octets := (keys.insertionSort (· ≤ ·)).head?

/-- The signing key is of the cipher suite. -/
def checkSuite (cipherSuite : ℕ) (scheme : SignatureScheme) : Result Unit :=
  if cipherSuite = cipherSuiteKt128Sha256Ed25519 then
    ensure (scheme = .ed25519) "Cipher suite mismatch: Expected Ed25519 signing key"
  else if cipherSuite = cipherSuiteKt128Sha256P256 then
    ensure (scheme = .p256) "Cipher suite mismatch: Expected P-256 signing key"
  else fail "Unsupported cipher suite"

/-- Two results give the same octets. -/
def SameBytes (r r' : Result Octets) : Prop := ∀ bytes, r = .ok bytes ↔ r' = .ok bytes

namespace PrivateConfig

/-- `PrivateConfig::new`, with the derivation of the VRF's public key as a parameter. -/
def new (expandVrfSecret : ℕ → Octets → Result Octets) (cipherSuite mode : ℕ)
    (scheme : SignatureScheme) (sigKey vrfKey : Octets) (auditorKeys : List Octets)
    (maxAhead maxBehind reasonableMonitoringWindow : ℕ) (maximumLifetime : Option ℕ)
    (leafPublicKey : Option Octets) : Result PrivateConfig := do
  checkSuite cipherSuite scheme
  let vrfPublicKey ← (expandVrfSecret cipherSuite vrfKey).context "Failed to expand VRF secret"
  return {
    cipherSuite, mode, sigKey, vrfKey, vrfPublicKey, auditorKeys
    auditorPublicKey := smallestKey auditorKeys
    auditorStartPos := 0
    maxAuditorLag := 60000
    maxAhead, maxBehind, reasonableMonitoringWindow, maximumLifetime, leafPublicKey }

/-- The configuration comes from `PrivateConfig::new`. -/
def Built (c : PrivateConfig) : Prop :=
  ∃ expandVrfSecret cipherSuite mode scheme sigKey vrfKey auditorKeys maxAhead maxBehind
    reasonableMonitoringWindow maximumLifetime leafPublicKey,
    new expandVrfSecret cipherSuite mode scheme sigKey vrfKey auditorKeys maxAhead maxBehind
      reasonableMonitoringWindow maximumLifetime leafPublicKey = .ok c

/-- **The smallest auditor key is pinned.** -/
theorem Built.auditorPublicKey {c : PrivateConfig} (h : c.Built) :
    c.auditorPublicKey = smallestKey c.auditorKeys := by
  obtain ⟨_, _, _, _, _, _, _, _, _, _, _, _, h⟩ := h
  obtain ⟨-, -, h⟩ := Result.bind_eq_ok.1 h
  obtain ⟨_, -, h⟩ := Result.bind_eq_ok.1 h
  obtain rfl := Except.ok.inj h
  rfl

variable (P : Primitives)

/-- The auditor key that `apply_batch` signs a head for. -/
def signingAuditorKey (c : PrivateConfig) : Option Octets :=
  if c.mode = deploymentModeThirdPartyAuditing then c.auditorKeys.head? else none

/-- The octets that `apply_batch` signs. -/
def signedTbs (c : PrivateConfig) (treeSize : ℕ) (rootHash : Octets) : Result Octets :=
  constructTreeHeadTbs P c c.signingAuditorKey treeSize rootHash

/-- **`signHead` signs them.** -/
theorem signHead_eq (c : PrivateConfig) (treeSize : ℕ) (timestamp : U64) (logRoot : Octets) :
    Tree.signHead P c treeSize timestamp logRoot = (do
      let tbs ← c.signedTbs P treeSize logRoot
      return ⟨treeSize, asI64 timestamp,
        [⟨P.verifyingKey c.sigKey, P.signData c.sigKey tbs⟩]⟩) := rfl

/-- **In whatever order the map of auditors is iterated**, the octets of a head that are signed
are those that clients of the pinned configuration check. -/
def HeadsAgree (c : PrivateConfig) : Prop :=
  ∀ keys : List Octets, keys.Perm c.auditorKeys → ∀ treeSize rootHash,
    SameBytes (signedTbs P { c with auditorKeys := keys } treeSize rootHash)
      (constructTreeHeadTbsPublic (c.toPublic P) treeSize rootHash)

/-- **The octets of each auditor's head** that the server checks are those that clients check. -/
def AuditorHeadsAgree (c : PrivateConfig) : Prop :=
  ∀ auditorPk ∈ c.auditorKeys, ∀ treeSize timestamp rootHash,
    SameBytes (constructAuditorTreeHeadTbs P c auditorPk treeSize timestamp rootHash)
      (constructAuditorTreeHeadTbsPublic (c.toPublic P) treeSize timestamp rootHash)

/-- An honest head is accepted by the clients of the pinned configuration. -/
def HeadsAccepted (c : PrivateConfig) : Prop :=
  ∀ (client : KtClient) (keys : List Octets) (treeSize : ℕ) (timestamp : U64) (rootHash : Octets)
    (th : TreeHead), keys.Perm c.auditorKeys → client.config = c.toPublic P →
    (∀ data, P.verifyData client.sigPk data (P.signData c.sigKey data) = .ok ()) →
    Tree.signHead P { c with auditorKeys := keys } treeSize timestamp rootHash = .ok th →
    client.verifyTreeHeadSignature P th treeSize rootHash = .ok ()

/-- The server has different auditor keys, and a configuration with one of them has an
encoding. -/
structure Ambiguous (c : PrivateConfig) : Prop where
  mode : c.mode = deploymentModeThirdPartyAuditing
  serverSigPk : (P.verifyingKey c.sigKey).length < 2 ^ 16
  vrfPublicKey : c.vrfPublicKey.length < 2 ^ 16
  keys : ∃ k ∈ c.auditorKeys, ∃ k' ∈ c.auditorKeys, k ≠ k' ∧ k.length < 2 ^ 16

end PrivateConfig

/-! ### The smallest key -/

theorem smallestKey_mem {keys : List Octets} {key : Octets} (h : smallestKey keys = some key) :
    key ∈ keys :=
  (List.perm_insertionSort _ keys).mem_iff.1 (List.mem_of_mem_head? h)

theorem exists_smallestKey {keys : List Octets} {key : Octets} (h : key ∈ keys) :
    ∃ smallest, smallestKey keys = some smallest := by
  have hmem : key ∈ keys.insertionSort (· ≤ ·) := (List.perm_insertionSort _ keys).mem_iff.2 h
  obtain ⟨smallest, rest, heq⟩ := List.exists_cons_of_ne_nil (List.ne_nil_of_mem hmem)
  exact ⟨smallest, by rw [smallestKey, heq, List.head?_cons]⟩

/-! ### The same octets -/

namespace SameBytes

variable {r r' : Result Octets} {f : Octets → Result Octets}

theorem refl (r : Result Octets) : SameBytes r r := fun _ => Iff.rfl

theorem bind (h : SameBytes r r') (f : Octets → Result Octets) : SameBytes (r >>= f) (r' >>= f) := by
  intro bytes
  simp only [Result.bind_eq_ok]
  exact exists_congr fun a => and_congr_left fun _ => h a

/-- What is appended can be taken off again. -/
theorem of_bind {tail : Octets} (hf : ∀ bytes, f bytes = .ok (bytes ++ tail))
    (h : SameBytes (r >>= f) (r' >>= f)) : SameBytes r r' := by
  have hbind : ∀ (r : Result Octets) (bytes : Octets), r = .ok bytes ↔
      (r >>= f) = .ok (bytes ++ tail) := by
    intro r bytes
    simp only [Result.bind_eq_ok, hf, Except.ok.injEq, List.append_cancel_right_eq, exists_eq_right]
  intro bytes
  rw [hbind r, hbind r', h]

end SameBytes

theorem treeHeadTbs_zeros (config : Octets) (treeSize : ℕ) :
    treeHeadTbs config treeSize (zeros 32) = .ok (config ++ (beBytes 8 treeSize ++ zeros 32)) := by
  rw [treeHeadTbs, ensure_of (by decide), Result.ok_bind, List.append_assoc]
  rfl

theorem auditorTreeHeadTbs_zeros (config : Octets) (treeSize : ℕ) (timestamp : U64) :
    auditorTreeHeadTbs config treeSize timestamp (zeros 32) =
      .ok (config ++ (beBytes 8 timestamp ++ (beBytes 8 treeSize ++ zeros 32))) := by
  rw [auditorTreeHeadTbs, ensure_of (by decide), Result.ok_bind, List.append_assoc, List.append_assoc]
  rfl

/-- A key can be read off the configuration. -/
theorem PublicConfig.serialized_vector_inj {c : PublicConfig} {front k k' : Octets}
    (h : c.serialized (front ++ vector 2 k) = c.serialized (front ++ vector 2 k')) : k = k' := by
  simp only [PublicConfig.serialized, List.append_assoc, List.append_cancel_left_eq] at h
  have hcancel : vector 2 k = vector 2 k' := by
    simpa only [← List.append_assoc, List.append_cancel_right_eq] using h
  exact (List.append_inj hcancel (by simp only [length_beBytes])).2

/-- **When two auditor keys give the same configuration**: unless the mode writes them and one of
them fits. -/
theorem serializeConfigurationPublic_sameBytes_iff {c : PublicConfig} {k k' : Octets} :
    SameBytes (serializeConfigurationPublic { c with auditorPublicKey := some k })
        (serializeConfigurationPublic { c with auditorPublicKey := some k' }) ↔
      ¬ (c.mode = 3 ∧ c.serverSigPk.length < 2 ^ 16 ∧ c.vrfPublicKey.length < 2 ^ 16 ∧ k ≠ k' ∧
        (k.length < 2 ^ 16 ∨ k'.length < 2 ^ 16)) := by
  by_cases hmode : c.mode = 3
  · have hkey : ∀ key bytes : Octets,
        serializeConfigurationPublic { c with auditorPublicKey := some key } = .ok bytes ↔
          c.serverSigPk.length < 2 ^ 16 ∧ c.vrfPublicKey.length < 2 ^ 16 ∧ key.length < 2 ^ 16 ∧
            bytes = c.serialized (beBytes 8 c.auditorStartPos ++ beBytes 8 c.maxAuditorLag ++
              vector 2 key) := by
      intro key bytes
      have h := @PublicConfig.serialize_of_eq { c with auditorPublicKey := some key } hmode bytes
      simp only [Option.some.injEq, exists_eq_left'] at h
      exact h
    constructor
    · rintro h ⟨-, hsig, hvrf, hne, hk | hk'⟩
      · obtain ⟨-, -, -, heq⟩ := (hkey k' _).1 ((h _).1 ((hkey k _).2 ⟨hsig, hvrf, hk, rfl⟩))
        exact hne (PublicConfig.serialized_vector_inj heq)
      · obtain ⟨-, -, -, heq⟩ := (hkey k _).1 ((h _).2 ((hkey k' _).2 ⟨hsig, hvrf, hk', rfl⟩))
        exact hne (PublicConfig.serialized_vector_inj heq).symm
    · intro hnot bytes
      by_cases hne : k = k'
      · rw [hne]
      · rw [hkey, hkey]
        constructor
        · rintro ⟨hsig, hvrf, hk, -⟩
          exact absurd ⟨hmode, hsig, hvrf, hne, .inl hk⟩ hnot
        · rintro ⟨hsig, hvrf, hk', -⟩
          exact absurd ⟨hmode, hsig, hvrf, hne, .inr hk'⟩ hnot
  · have hkey : ∀ key bytes : Octets,
        serializeConfigurationPublic { c with auditorPublicKey := some key } = .ok bytes ↔
          c.serverSigPk.length < 2 ^ 16 ∧ c.vrfPublicKey.length < 2 ^ 16 ∧
            (c.leafPublicKey.getD []).length < 2 ^ 16 ∧
            bytes = c.serialized (vector 2 (c.leafPublicKey.getD [])) := fun key bytes =>
      @PublicConfig.serialize_of_ne { c with auditorPublicKey := some key } hmode bytes
    refine iff_of_true (fun bytes => ?_) fun h => hmode h.1
    rw [hkey, hkey]

namespace PrivateConfig

variable {P : Primitives} {c : PrivateConfig}

theorem toPublic_eq {key : Octets} (h : c.auditorPublicKey = some key) :
    c.toPublic P = { c.toPublic P with auditorPublicKey := some key } := by
  rw [← h]
  rfl

/-- **Two auditor keys give different octets** for some head. -/
theorem Ambiguous.exists_ne (h : c.Ambiguous P) (smallest : Octets) : ∃ key ∈ c.auditorKeys,
    ¬ SameBytes (serializeConfigurationPublic { c.toPublic P with auditorPublicKey := some key })
      (serializeConfigurationPublic { c.toPublic P with auditorPublicKey := some smallest }) := by
  obtain ⟨hmode, hsig, hvrf, k, hk, k', hk', hne, hfits⟩ := h
  by_cases hs : k = smallest
  · refine ⟨k', hk', fun hsame => serializeConfigurationPublic_sameBytes_iff.1 hsame
      ⟨hmode, hsig, hvrf, fun h => hne (hs.trans h.symm), .inr ?_⟩⟩
    rwa [hs] at hfits
  · exact ⟨k, hk, fun hsame => serializeConfigurationPublic_sameBytes_iff.1 hsame
      ⟨hmode, hsig, hvrf, hs, .inl hfits⟩⟩

/-- Without two such keys every key of the server gives the pinned configuration. -/
theorem sameBytes_of_not_ambiguous (hc : c.Built) (h : ¬ c.Ambiguous P) {key : Octets}
    (hkey : key ∈ c.auditorKeys) :
    SameBytes (serializeConfigurationPublic { c.toPublic P with auditorPublicKey := some key })
      (serializeConfigurationPublic (c.toPublic P)) := by
  obtain ⟨smallest, hsmallest⟩ := exists_smallestKey hkey
  rw [toPublic_eq (hc.auditorPublicKey.trans hsmallest), serializeConfigurationPublic_sameBytes_iff]
  rintro ⟨hmode, hsig, hvrf, hne, hfits⟩
  rcases hfits with hfits | hfits
  · exact h ⟨hmode, hsig, hvrf, key, hkey, smallest, smallestKey_mem hsmallest, hne, hfits⟩
  · exact h ⟨hmode, hsig, hvrf, smallest, smallestKey_mem hsmallest, key, hkey, hne.symm, hfits⟩

theorem headsAgree_iff (hc : c.Built) : c.HeadsAgree P ↔ ¬ c.Ambiguous P := by
  constructor
  · intro h hambiguous
    obtain ⟨k, hk, -⟩ := hambiguous.keys
    obtain ⟨smallest, hsmallest⟩ := exists_smallestKey hk
    obtain ⟨key, hkey, hdiffer⟩ := hambiguous.exists_ne smallest
    -- an order that starts with a key whose configuration is not the pinned one
    have hsame := h (key :: c.auditorKeys.erase key) (List.perm_cons_erase hkey).symm 0 (zeros 32)
    rw [signedTbs, signingAuditorKey, if_pos hambiguous.mode,
      toPublic_eq (hc.auditorPublicKey.trans hsmallest)] at hsame
    exact hdiffer (SameBytes.of_bind (fun bytes => treeHeadTbs_zeros bytes 0) hsame)
  · intro h keys hperm treeSize rootHash
    by_cases hmode : c.mode = deploymentModeThirdPartyAuditing
    · cases keys with
      | nil =>
        rw [signedTbs, signingAuditorKey, if_pos hmode]
        exact SameBytes.refl _
      | cons key keys =>
        rw [signedTbs, signingAuditorKey, if_pos hmode]
        exact (sameBytes_of_not_ambiguous hc h (hperm.mem_iff.1 List.mem_cons_self)).bind _
    · rw [signedTbs, signingAuditorKey, if_neg hmode]
      exact SameBytes.refl _

theorem auditorHeadsAgree_iff (hc : c.Built) : c.AuditorHeadsAgree P ↔ ¬ c.Ambiguous P := by
  constructor
  · intro h hambiguous
    obtain ⟨k, hk, -⟩ := hambiguous.keys
    obtain ⟨smallest, hsmallest⟩ := exists_smallestKey hk
    obtain ⟨key, hkey, hdiffer⟩ := hambiguous.exists_ne smallest
    have hsame := h key hkey 0 0 (zeros 32)
    rw [toPublic_eq (hc.auditorPublicKey.trans hsmallest)] at hsame
    exact hdiffer (SameBytes.of_bind (fun bytes => auditorTreeHeadTbs_zeros bytes 0 0) hsame)
  · intro h key hkey treeSize timestamp rootHash
    exact (sameBytes_of_not_ambiguous hc h hkey).bind _

theorem HeadsAgree.accepted (h : c.HeadsAgree P) : c.HeadsAccepted P := by
  intro client keys treeSize timestamp rootHash th hperm hconfig hverify hsigned
  rw [signHead_eq] at hsigned
  obtain ⟨tbs, htbs, hsigned⟩ := Result.bind_eq_ok.1 hsigned
  obtain rfl := Except.ok.inj hsigned
  have hpublic := (h keys hperm treeSize rootHash tbs).1 htbs
  rw [← hconfig] at hpublic
  simp only [KtClient.verifyTreeHeadSignature, ensure_of, hpublic, Result.context_ok, Result.ok_bind,
    KtClient.verifyAnySignature, hverify, ne_eq, List.cons_ne_nil, not_false_eq_true]

end PrivateConfig

/-- **When the server and its clients build the same octets**, whatever the order in which the
auditors are iterated: unless, in auditing mode, there are different auditor keys. -/
theorem signed_bytes_agree_iff {P : Primitives} {c : PrivateConfig} (hc : c.Built) :
    (c.HeadsAgree P ↔ ¬ c.Ambiguous P) ∧ (c.AuditorHeadsAgree P ↔ ¬ c.Ambiguous P) ∧
      (¬ c.Ambiguous P → c.HeadsAccepted P) :=
  ⟨PrivateConfig.headsAgree_iff hc, PrivateConfig.auditorHeadsAgree_iff hc,
    fun h => ((PrivateConfig.headsAgree_iff hc).2 h).accepted⟩

/-- A server with two auditors. -/
def twoAuditorsConfig (mode : ℕ) : PrivateConfig where
  cipherSuite := cipherSuiteKt128Sha256Ed25519
  mode := mode
  sigKey := zeros 32
  vrfKey := zeros 32
  vrfPublicKey := zeros 32
  auditorKeys := [zeros 32, 1 :: zeros 31]
  auditorPublicKey := smallestKey [zeros 32, 1 :: zeros 31]
  auditorStartPos := 0
  maxAuditorLag := 60000
  maxAhead := 1000
  maxBehind := 1000
  reasonableMonitoringWindow := 1000
  maximumLifetime := none
  leafPublicKey := none

theorem twoAuditorsConfig_built (mode : ℕ) : (twoAuditorsConfig mode).Built :=
  ⟨fun _ key => .ok key, cipherSuiteKt128Sha256Ed25519, mode, .ed25519, zeros 32, zeros 32,
    [zeros 32, 1 :: zeros 31], 1000, 1000, 1000, none, none, rfl⟩

/-- In contact monitoring they make no difference. -/
theorem signed_bytes_agree_unaudited :
    (twoAuditorsConfig deploymentModeContactMonitoring).HeadsAgree Primitives.ideal ∧
      (twoAuditorsConfig deploymentModeContactMonitoring).AuditorHeadsAgree Primitives.ideal := by
  have hnot : ¬ (twoAuditorsConfig deploymentModeContactMonitoring).Ambiguous Primitives.ideal :=
    fun h => by cases h.mode
  have hagree := @signed_bytes_agree_iff Primitives.ideal _
    (twoAuditorsConfig_built deploymentModeContactMonitoring)
  exact ⟨hagree.1.2 hnot, hagree.2.1.2 hnot⟩

/-- **With two auditors neither octets agree**: some order signs heads for the other key. -/
theorem two_auditors_disagree :
    ¬ (twoAuditorsConfig deploymentModeThirdPartyAuditing).HeadsAgree Primitives.ideal ∧
      ¬ (twoAuditorsConfig deploymentModeThirdPartyAuditing).AuditorHeadsAgree Primitives.ideal := by
  have hambiguous : (twoAuditorsConfig deploymentModeThirdPartyAuditing).Ambiguous
      Primitives.ideal :=
    ⟨rfl, by decide, by decide, zeros 32, by decide, 1 :: zeros 31, by decide, by decide, by decide⟩
  have hbuilt := twoAuditorsConfig_built deploymentModeThirdPartyAuditing
  exact ⟨fun h => (PrivateConfig.headsAgree_iff hbuilt).1 h hambiguous,
    fun h => (PrivateConfig.auditorHeadsAgree_iff hbuilt).1 h hambiguous⟩

end KeyTransparency
