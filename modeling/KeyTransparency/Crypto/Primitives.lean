/-
# Cryptographic primitives

The hash, the MAC, the signature schemes and the VRF come from outside the
repository (`sha2`, `hmac`, `ed25519-dalek`, `p256`), or are elliptic-curve code
that only they give a meaning (`src/crypto/vrf.rs`).  They are the parameters of
the development, gathered in `Primitives` with the output lengths of their types.

What a result assumes beyond that is a hypothesis of it: that the hash is
injective, that a signature verifies, that a VRF output is determined by its
input.  `Primitives.ideal` meets these hypotheses.
-/

import KeyTransparency.Library.Octets
import KeyTransparency.Fault

namespace KeyTransparency

structure Primitives where
  sha256 : Octets → Octets
  length_sha256 : ∀ m, (sha256 m).length = 32
  /-- HMAC-SHA256 of a message under a key. -/
  hmacSha256 : Octets → Octets → Octets
  length_hmacSha256 : ∀ k m, (hmacSha256 k m).length = 32
  /-- The encoded verifying key of a signing key. -/
  verifyingKey : Octets → Octets
  length_verifyingKey : ∀ sk, (verifyingKey sk).length ≤ 33
  /-- `sign_data`: signing key, data. -/
  signData : Octets → Octets → Octets
  /-- Decoding a verifying key, to its canonical encoding. -/
  decodeKey : Octets → Result Octets
  /-- `verify_data`: encoded verifying key, data, signature. -/
  verifyData : Octets → Octets → Octets → Result Unit
  /-- `ecvrf_prove`: secret key, input; the output and its proof. -/
  ecvrfProve : Octets → Octets → Result (Octets × Octets)
  /-- `ecvrf_verify`: cipher suite, public key, input, proof; the output. -/
  ecvrfVerify : ℕ → Octets → Octets → Octets → Result Octets
  /-- A VRF output is an array of 32 bytes. -/
  ecvrfVerify_bytes : ∀ {suite pk alpha proof out}, ecvrfVerify suite pk alpha proof = .ok out →
    out.length = 32 ∧ ∀ b ∈ out, b < 256
  ecvrfProve_bytes : ∀ {sk alpha out proof}, ecvrfProve sk alpha = .ok (out, proof) →
    out.length = 32 ∧ ∀ b ∈ out, b < 256

/-! ### A consistent choice -/

namespace Primitives

/-- The first 32 octets of a string, filled up with zeros. -/
def outputBytes (m : Octets) : Octets := (m.map (· % 256) ++ Octets.zeros 32).take 32

theorem outputBytes_bytes (m : Octets) :
    (outputBytes m).length = 32 ∧ ∀ b ∈ outputBytes m, b < 256 := by
  refine ⟨by simp [outputBytes], fun b hb => ?_⟩
  rcases List.mem_append.1 (List.mem_of_mem_take hb) with h | h
  · obtain ⟨x, -, rfl⟩ := List.mem_map.1 h
    omega
  · have := List.eq_of_mem_replicate h
    omega

/-- **What the results assume of the primitives is consistent**: a hash that numbers
all messages, signatures that are the key and the message, and a VRF whose proof
is its input. -/
def ideal : Primitives where
  sha256 m := Octets.countingHash 31 m
  length_sha256 _ := by simp
  hmacSha256 k m := Octets.countingHash 31 (k, m)
  length_hmacSha256 _ _ := by simp
  verifyingKey sk := sk.take 33
  length_verifyingKey sk := List.length_take_le 33 sk
  signData sk data := sk.take 33 ++ data
  decodeKey bytes := .ok bytes
  verifyData pk data sig := ensure (sig = pk ++ data) "Verification failed"
  ecvrfProve _ alpha := .ok (outputBytes alpha, alpha)
  ecvrfVerify _ _ alpha proof := do
    ensure (proof = alpha) "VRF proof verification failed"
    return outputBytes alpha
  ecvrfVerify_bytes h := by
    obtain ⟨-, -, h⟩ := Result.bind_eq_ok.1 h
    exact Except.ok.inj h ▸ outputBytes_bytes _
  ecvrfProve_bytes h := by
    obtain ⟨rfl, -⟩ := Prod.mk.inj (Except.ok.inj h)
    exact outputBytes_bytes _

theorem ideal_verifyData (pk tbs : Octets) : ideal.verifyData pk tbs (pk ++ tbs) = .ok () :=
  ensure_of rfl _

theorem ideal_sha256_injective : Function.Injective ideal.sha256 :=
  Octets.countingHash_injective 31

theorem ideal_hmacSha256_injective (k : Octets) : Function.Injective (ideal.hmacSha256 k) :=
  fun _ _ h => (Prod.mk.inj (Octets.countingHash_injective 31 h)).2

theorem ideal_sha256_ne_zeros (m : Octets) : ideal.sha256 m ≠ Octets.zeros 32 :=
  Octets.countingHash_ne_zeros 31 m

end Primitives

end KeyTransparency
