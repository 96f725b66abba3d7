/-
# Hashed messages

The messages of `src/crypto/hash.rs` and `src/tree/prefix/hasher.rs`, and what an
injective hash says about them.  The log tree is a `MerkleLog.HashScheme`: of the
two messages of a parent, one child of known length fixes where the other starts.
-/

import KeyTransparency.Crypto.Primitives
import KeyTransparency.Library.MerkleLog.Value

namespace KeyTransparency

open Octets

/-! ### The log tree -/

/-- A log leaf is the hash of a timestamp and a prefix tree root. -/
def logLeafValue (P : Primitives) (timestamp : ℕ) (prefixRoot : Octets) : Octets :=
  P.sha256 (beBytes 8 timestamp ++ prefixRoot)

def logParentValue (P : Primitives) (left : Octets) (leftIsLeaf : Bool) (right : Octets)
    (rightIsLeaf : Bool) : Octets :=
  P.sha256 ((if leftIsLeaf then 0x00 else 0x01) :: left ++
    (if rightIsLeaf then 0x00 else 0x01) :: right)

/-- The parent of two nodes of one kind: both leaves, or neither. -/
def logPar (P : Primitives) (areLeaves : Bool) (left right : Octets) : Octets :=
  logParentValue P left areLeaves right areLeaves

@[simp] theorem length_logLeafValue (P : Primitives) (ts : ℕ) (r : Octets) :
    (logLeafValue P ts r).length = 32 := P.length_sha256 _

@[simp] theorem length_logParentValue (P : Primitives) (l r : Octets) (f g : Bool) :
    (logParentValue P l f r g).length = 32 := P.length_sha256 _

theorem logLeafValue_inj {P : Primitives} (hP : Function.Injective P.sha256) {ts ts' : ℕ}
    {r r' : Octets} (hts : ts < 2 ^ 64) (hts' : ts' < 2 ^ 64)
    (h : logLeafValue P ts r = logLeafValue P ts' r') : ts = ts' ∧ r = r' := by
  obtain ⟨h₁, h₂⟩ := List.append_inj (hP h) (by simp)
  exact ⟨beBytes_inj (by omega) (by omega) h₁, h₂⟩

private theorem tag_inj {f f' : Bool}
    (h : (if f then 0x00 else 0x01) = (if f' then 0x00 else 0x01 : ℕ)) : f = f' := by
  cases f <;> cases f' <;> simp_all

/-- The log tree's parent function, on two children of one kind. -/
def logScheme (P : Primitives) (hP : Function.Injective P.sha256) :
    MerkleLog.HashScheme Octets where
  par := logPar P
  Digest v := v.length = 32
  par_digest _ _ _ := P.length_sha256 _
  par_inj_left {f l r f' l' r'} hl hl' h := by
    obtain ⟨h₁, h₂⟩ := List.append_inj (hP h) (by simp only [List.length_cons]; omega)
    exact ⟨tag_inj (List.cons.inj h₁).1, (List.cons.inj h₁).2, (List.cons.inj h₂).2⟩
  par_inj_right {f l r f' l' r'} hr hr' h := by
    obtain ⟨h₁, h₂⟩ := List.append_inj' (hP h) (by simp only [List.length_cons]; omega)
    exact ⟨tag_inj (List.cons.inj h₁).1, (List.cons.inj h₁).2, (List.cons.inj h₂).2⟩

/-- Leaves hash 40 octets and parents of two digests 66. -/
def logSeparated (P : Primitives) (hP : Function.Injective P.sha256) :
    MerkleLog.Separated Octets where
  toHashScheme := logScheme P hP
  Leaf v := ∃ ts root, root.length = 32 ∧ v = logLeafValue P ts root
  leaf_digest := by
    rintro v ⟨ts, root, -, rfl⟩
    exact length_logLeafValue P ts root
  par_not_leaf f l r hl hr := by
    rintro ⟨ts, root, hroot, h⟩
    have := congrArg List.length (hP h)
    simp only [List.length_append, List.length_cons, length_beBytes] at this
    have : l.length = 32 := hl
    have : r.length = 32 := hr
    omega

/-! ### The prefix tree -/

def indexLength : ℕ := 32

def zeroValue : Octets := zeros 32

/-- Bit `n` of an octet string, the most significant bit of the first octet
being bit 0. -/
def getBit (data : Octets) (n : ℕ) : ℕ := data.getD (n / 8) 0 >>> (7 - n % 8) &&& 1

def leafHash (P : Primitives) (vrfOutput commitment : Octets) : Octets :=
  P.sha256 (0x02 :: vrfOutput ++ commitment)

def parentHash (P : Primitives) (left right : Octets) : Octets :=
  P.sha256 (0x03 :: left ++ right)

@[simp] theorem length_leafHash (P : Primitives) (k c : Octets) :
    (leafHash P k c).length = 32 := P.length_sha256 _

@[simp] theorem length_parentHash (P : Primitives) (l r : Octets) :
    (parentHash P l r).length = 32 := P.length_sha256 _

@[simp] theorem length_zeroValue : zeroValue.length = 32 := length_zeros 32

/-! ### Commitments -/

def kc : Octets :=
  [0xd8, 0x21, 0xf8, 0x79, 0x0d, 0x97, 0x70, 0x97, 0x96, 0xb4, 0xd7, 0x90, 0x33, 0x57, 0xc3, 0xf5]

/-- `opaque<0..2^(8w)-1>`: a length on `w` octets and the octets. -/
def opaqueBytes (w : ℕ) (bytes : Octets) : Result Octets :=
  if bytes.length < 256 ^ w then .ok (beBytes w bytes.length ++ bytes)
  else fail s!"opaque<0..2^{8 * w}-1> overflow: {bytes.length} bytes"

def commit (P : Primitives) (label : Octets) (version : ℕ) (updateValue : Octets)
    (suffixSignature : Option Octets) (opening : Octets) : Result Octets := do
  ensure (opening.length = 16) "Invalid opening length"
  let label ← opaqueBytes 1 label
  let updateValue ← opaqueBytes 4 updateValue
  let suffix ← match suffixSignature with
    | some sig => opaqueBytes 2 sig
    | none => .ok []
  return P.hmacSha256 kc (opening ++ label ++ beBytes 4 version ++ updateValue ++ suffix)

theorem opaqueBytes_eq_ok {w : ℕ} {bytes out : Octets} (h : opaqueBytes w bytes = .ok out) :
    bytes.length < 256 ^ w ∧ out = beBytes w bytes.length ++ bytes := by
  unfold opaqueBytes at h
  split_ifs at h with hw
  · exact ⟨hw, (Except.ok.inj h).symm⟩
  · simp at h

theorem commit_eq_ok {P : Primitives} {label value opening c : Octets} {version : ℕ}
    (h : commit P label version value none opening = .ok c) :
    opening.length = 16 ∧ label.length < 256 ∧ value.length < 256 ^ 4 ∧
      c = P.hmacSha256 kc (opening ++ (beBytes 1 label.length ++ label) ++ beBytes 4 version ++
        (beBytes 4 value.length ++ value) ++ []) := by
  simp only [commit, Result.bind_eq_ok, ensure_eq_ok] at h
  obtain ⟨-, ho, l, hl, v, hv, s, hs, h⟩ := h
  obtain ⟨hl₁, rfl⟩ := opaqueBytes_eq_ok hl
  obtain ⟨hv₁, rfl⟩ := opaqueBytes_eq_ok hv
  obtain rfl := Except.ok.inj hs
  exact ⟨ho, by omega, hv₁, (Except.ok.inj h).symm⟩

/-- **A commitment to a label's version binds its value and opening.** -/
theorem commit_inj {P : Primitives} (hP : Function.Injective (P.hmacSha256 kc))
    {label value value' opening opening' c : Octets} {version : ℕ}
    (h : commit P label version value none opening = .ok c)
    (h' : commit P label version value' none opening' = .ok c) :
    value = value' ∧ opening = opening' := by
  obtain ⟨ho, -, hv, rfl⟩ := commit_eq_ok h
  obtain ⟨ho', -, hv', e⟩ := commit_eq_ok h'
  have e := hP e
  simp only [List.append_assoc, List.append_nil] at e
  obtain ⟨e₁, e⟩ := List.append_inj e (by omega)
  have e := List.append_cancel_left (List.append_cancel_left (List.append_cancel_left e))
  exact ⟨(List.append_inj e (by simp)).2, e₁⟩

end KeyTransparency
