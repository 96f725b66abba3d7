/-
# Prefix proofs

`PrefixVerifier::compute_root_from_result` of `src/client/verifier.rs`: the root that
a result of a prefix proof stands for.
-/

import KeyTransparency.Crypto.PrefixPath
import KeyTransparency.Fault
import KeyTransparency.Proto

namespace KeyTransparency

open SparseMerkle

namespace PrefixVerifier

variable (P : Primitives)

/-- The hash a result starts from, and its level. -/
def startOf (result : PrefixSearchResult) (vrfOutput : Octets) (commitment : Option Octets) :
    Result (Octets × ℕ) :=
  match result.resultType with
  | 1 => do
    let comm ← okOr commitment "Inclusion result needs commitment"
    return (leafHash P vrfOutput comm, indexLength * 8)
  | 2 => do
    let leaf ← okOr result.leaf "NonInclusionLeaf result missing leaf"
    ensure (leaf.vrfOutput ≠ vrfOutput) "NonInclusionLeaf carries the searched key itself"
    return (zeroValue, result.depth)
  | 3 => .ok (zeroValue, result.depth)
  | _ => fail "Unknown PrefixSearchResult.result_type"

/-- The levels below the given one, the deepest first. -/
def foldLevels (vrfOutput : Octets) (sibling : ℕ → Octets) : ℕ → Octets → Octets
  | 0, currHash => currHash
  | level + 1, currHash =>
    foldLevels vrfOutput sibling level
      (branch (parentHash P) (getBit vrfOutput level == 1) (sibling level) currHash)

/-- The root, and how many elements it took.  An offset is at most the number of
elements, so that adding a depth to it does not overflow. -/
def computeRootFromResult (proof : PrefixProof) (resultIdx : ℕ) (vrfOutput : Octets)
    (commitment : Option Octets) (elementsOffset : ℕ) : Result (Octets × ℕ) := do
  let result ← okOr proof.results[resultIdx]? "Result index out of range"
  let depth := result.depth
  ensure (depth ≤ indexLength * 8) "PrefixProof: depth exceeds tree height"
  let (currHash, startLevel) ← startOf P result vrfOutput commitment
  ensure (elementsOffset + depth ≤ proof.elements.length)
    "PrefixProof: insufficient elements for result"
  let elements := (proof.elements.drop elementsOffset).take depth
  if 8 * vrfOutput.length < startLevel then .error (.panic "index out of bounds")
  else
    return (foldLevels P vrfOutput (fun level => elements.getD level zeroValue) startLevel currHash,
      depth)

variable {P}

theorem foldLevels_eq {t : Octets} {ss : List Octets} :
    ∀ {level : ℕ} {acc : Octets}, level ≤ 256 →
      foldLevels P t (fun l => ss.getD l zeroValue) level acc =
        fold (parentHash P) zeroValue ((keyBits t).take level) ss acc
  | 0, _, _ => rfl
  | level + 1, acc, hl => by
    have hlen : level < (keyBits t).length := by rw [length_keyBits]; omega
    rw [foldLevels, foldLevels_eq (by omega), List.take_succ_eq_append_getElem hlen, fold_append,
      fold_cons, getElem_keyBits, List.length_take, Nat.min_eq_left hlen.le,
      List.headD_eq_head?_getD, List.head?_drop, List.getD_eq_getElem?_getD]
    rfl

theorem startOf_le {result : PrefixSearchResult} {t start : Octets} {commitment : Option Octets}
    {level : ℕ} (hdepth : result.depth ≤ 256)
    (h : startOf P result t commitment = .ok (start, level)) : level ≤ 256 := by
  unfold startOf at h
  split at h
  · obtain ⟨_, -, heq⟩ := Result.bind_eq_ok.1 h
    cases Except.ok.inj heq
    exact le_rfl
  · obtain ⟨_, -, hleaf⟩ := Result.bind_eq_ok.1 h
    obtain ⟨_, -, heq⟩ := Result.bind_eq_ok.1 hleaf
    cases Except.ok.inj heq
    exact hdepth
  · cases Except.ok.inj h
    exact hdepth
  · simp at h

/-- **What a result stands for**: the fold of its elements along the searched path. -/
theorem computeRootFromResult_eq_ok {proof : PrefixProof} {idx offset used : ℕ} {t root : Octets}
    {commitment : Option Octets} :
    computeRootFromResult P proof idx t commitment offset = .ok (root, used) ↔
      ∃ result start level, proof.results[idx]? = some result ∧ result.depth ≤ 256 ∧
        startOf P result t commitment = .ok (start, level) ∧
        offset + result.depth ≤ proof.elements.length ∧ level ≤ 8 * t.length ∧
        root = fold (parentHash P) zeroValue ((keyBits t).take level)
          ((proof.elements.drop offset).take result.depth) start ∧ used = result.depth := by
  simp only [computeRootFromResult, Result.bind_eq_ok, okOr_eq_ok, ensure_eq_ok]
  constructor
  · rintro ⟨result, hres, -, hdepth, ⟨start, level⟩, hstart, -, hlen, h⟩
    split_ifs at h with hpanic
    obtain ⟨rfl, rfl⟩ := Prod.mk.inj (Except.ok.inj h)
    exact ⟨result, start, level, hres, hdepth, hstart, hlen, not_lt.1 hpanic,
      foldLevels_eq (startOf_le hdepth hstart), rfl⟩
  · rintro ⟨result, start, level, hres, hdepth, hstart, hlen, hbits, rfl, rfl⟩
    refine ⟨result, hres, (), hdepth, ⟨start, level⟩, hstart, (), hlen, ?_⟩
    rw [if_neg (not_lt.2 hbits), foldLevels_eq (startOf_le hdepth hstart), Result.pure_eq]

end PrefixVerifier

end KeyTransparency
