/-
# Keys of the prefix tree

A key of the prefix tree is a string of 32 bytes, and its path from the root are
the bits that `get_bit` reads (`keyBits`).  `prefixRoot` is the root of the
256-level sparse Merkle tree of a map from keys to commitments.
-/

import KeyTransparency.Crypto.Hash
import KeyTransparency.Library.SparseMerkle
import Mathlib.Data.List.GetD

namespace KeyTransparency

open SparseMerkle

/-! ### Keys and paths -/

/-- A key: 32 bytes. -/
structure IsKey (k : Octets) : Prop where
  length : k.length = indexLength
  byte : ∀ b ∈ k, b < 256

/-- The path of a key. -/
def keyBits (k : Octets) : List Bool := (List.range (8 * indexLength)).map fun n => getBit k n == 1

/-- The number eight bits stand for. -/
def byteOf (bits : List Bool) : ℕ := bits.foldl (fun acc b => 2 * acc + b.toNat) 0

/-- The key of a path. -/
def keyOf (p : List Bool) : Octets :=
  (List.range indexLength).map fun j => byteOf ((p.drop (8 * j)).take 8)

@[simp] theorem length_keyBits (k : Octets) : (keyBits k).length = 256 := by
  simp [keyBits, indexLength]

theorem getElem_keyBits {k : Octets} {n : ℕ} (hn : n < (keyBits k).length) :
    (keyBits k)[n] = (getBit k n == 1) := by
  simp [keyBits]

theorem getD_keyBits {k : Octets} {n : ℕ} (hn : n < 256) :
    (keyBits k).getD n false = (getBit k n == 1) := by
  rw [List.getD_eq_getElem _ _ (by simpa using hn), getElem_keyBits]

theorem getBit_eq_ite (k : Octets) (n : ℕ) : getBit k n = if getBit k n == 1 then 1 else 0 := by
  rw [getBit, Nat.and_one_is_mod]
  generalize k.getD (n / 8) 0 >>> (7 - n % 8) = x
  rcases Nat.mod_two_eq_zero_or_one x with h | h <;> simp [h]

private theorem byteOf_bits : ∀ b < 256,
    byteOf ((List.range 8).map fun i => (b >>> (7 - i) &&& 1) == 1) = b := by
  decide +kernel

private theorem bit_byteOf : ∀ b₀ b₁ b₂ b₃ b₄ b₅ b₆ b₇ : Bool, ∀ i < 8,
    ((byteOf [b₀, b₁, b₂, b₃, b₄, b₅, b₆, b₇] >>> (7 - i) &&& 1) == 1) =
      [b₀, b₁, b₂, b₃, b₄, b₅, b₆, b₇].getD i false := by
  decide +kernel

private theorem byteOf_lt : ∀ b₀ b₁ b₂ b₃ b₄ b₅ b₆ b₇ : Bool,
    byteOf [b₀, b₁, b₂, b₃, b₄, b₅, b₆, b₇] < 256 := by
  decide +kernel

private theorem exists_eight {l : List Bool} (h : l.length = 8) :
    ∃ b₀ b₁ b₂ b₃ b₄ b₅ b₆ b₇, l = [b₀, b₁, b₂, b₃, b₄, b₅, b₆, b₇] := by
  match l, h with
  | [b₀, b₁, b₂, b₃, b₄, b₅, b₆, b₇], _ => exact ⟨_, _, _, _, _, _, _, _, rfl⟩

/-- **The path determines the key.** -/
theorem keyOf_keyBits {k : Octets} (hk : IsKey k) : keyOf (keyBits k) = k := by
  refine List.ext_getElem (by simp [keyOf, hk.length]) fun j h₁ h₂ => ?_
  have hj : j < 32 := by simpa [keyOf, indexLength] using h₁
  have hbits : ((keyBits k).drop (8 * j)).take 8 =
      (List.range 8).map fun i => (k[j] >>> (7 - i) &&& 1) == 1 := by
    refine List.ext_getElem (by simp; omega) fun i h₃ h₄ => ?_
    have hi : i < 8 := by simpa using h₄
    rw [List.getElem_take, List.getElem_drop, getElem_keyBits, getBit,
      show (8 * j + i) / 8 = j by omega, show (8 * j + i) % 8 = i by omega,
      List.getD_eq_getElem _ _ h₂, List.getElem_map, List.getElem_range]
  simp only [keyOf, List.getElem_map, List.getElem_range, hbits]
  exact byteOf_bits _ (hk.byte _ (List.getElem_mem h₂))

private theorem eight_of_path {p : List Bool} (hp : p.length = 256) {j : ℕ} (hj : j < 32) :
    ((p.drop (8 * j)).take 8).length = 8 := by
  rw [List.length_take, List.length_drop, hp]
  omega

/-- **Every path of full length is the path of a key.** -/
theorem keyBits_keyOf {p : List Bool} (hp : p.length = 256) : keyBits (keyOf p) = p := by
  refine List.ext_getElem (by simp [hp]) fun n h₁ h₂ => ?_
  have hn : n < 256 := hp ▸ h₂
  obtain ⟨b₀, b₁, b₂, b₃, b₄, b₅, b₆, b₇, e⟩ :=
    exists_eight (eight_of_path hp (show n / 8 < 32 by omega))
  have hget : (keyOf p).getD (n / 8) 0 = byteOf ((p.drop (8 * (n / 8))).take 8) := by
    rw [List.getD_eq_getElem _ _ (by simp [keyOf, indexLength]; omega)]
    simp [keyOf]
  rw [getElem_keyBits, getBit, hget, e, bit_byteOf _ _ _ _ _ _ _ _ _ (by omega), ← e,
    List.getD_eq_getElem _ _ (by rw [eight_of_path hp (by omega)]; omega), List.getElem_take,
    List.getElem_drop]
  congr 1
  omega

theorem isKey_keyOf {p : List Bool} (hp : p.length = 256) : IsKey (keyOf p) := by
  refine ⟨by simp [keyOf], fun b hb => ?_⟩
  obtain ⟨j, hj, rfl⟩ := List.mem_map.1 hb
  obtain ⟨b₀, b₁, b₂, b₃, b₄, b₅, b₆, b₇, e⟩ :=
    exists_eight (eight_of_path hp (List.mem_range.1 hj))
  rw [e]
  exact byteOf_lt _ _ _ _ _ _ _ _

theorem keyBits_inj {k k' : Octets} (hk : IsKey k) (hk' : IsKey k') (h : keyBits k = keyBits k') :
    k = k' := by
  rw [← keyOf_keyBits hk, h, keyOf_keyBits hk']

/-! ### Hashes -/

theorem leafHash_inj {P : Primitives} (hP : Function.Injective P.sha256) {k k' c c' : Octets}
    (hlen : k.length = k'.length) (h : leafHash P k c = leafHash P k' c') : k = k' ∧ c = c' := by
  have := (List.cons.inj (hP h)).2
  exact List.append_inj this hlen

theorem leafHash_ne_parentHash {P : Primitives} (hP : Function.Injective P.sha256)
    (k c l r : Octets) : leafHash P k c ≠ parentHash P l r := fun h => by
  have := (List.cons.inj (hP h)).1
  omega

/-- The prefix tree's parent function. -/
def prefixScheme (P : Primitives) (hP : Function.Injective P.sha256)
    (hZ : ∀ m, P.sha256 m ≠ zeroValue) : Scheme Octets where
  par := parentHash P
  zero := zeroValue
  Digest v := v.length = 32
  zero_digest := length_zeroValue
  par_digest l r := length_parentHash P l r
  par_ne_zero _ _ := hZ _
  par_inj_left hl hl' h :=
    List.append_inj (List.cons.inj (hP h)).2 (hl.trans hl'.symm)
  par_inj_right hr hr' h :=
    List.append_inj' (List.cons.inj (hP h)).2 (hr.trans hr'.symm)

/-! ### The tree of a map -/

/-- The leaf values of a map from keys to commitments. -/
def prefixLeaves (P : Primitives) (commitments : Octets → Option Octets) (p : List Bool) :
    Option Octets :=
  (commitments (keyOf p)).map (leafHash P (keyOf p))

/-- The root of the 256-level sparse tree of a map. -/
def prefixRoot (P : Primitives) (commitments : Octets → Option Octets) : Octets :=
  hash (parentHash P) zeroValue (prefixLeaves P commitments) 256 []

theorem length_prefixRoot (P : Primitives) (commitments : Octets → Option Octets) :
    (prefixRoot P commitments).length = 32 := by
  rw [prefixRoot]
  by_cases hv : value (parentHash P) zeroValue (prefixLeaves P commitments) 256 [] = none
  · rw [SparseMerkle.hash, hv, Option.getD_none, length_zeroValue]
  · rw [hash_succ (exists_leaf hv), length_parentHash]

theorem prefixLeaves_keyBits {P : Primitives} {commitments : Octets → Option Octets} {k : Octets}
    (hk : IsKey k) : prefixLeaves P commitments (keyBits k) = (commitments k).map (leafHash P k) := by
  rw [prefixLeaves, keyOf_keyBits hk]

end KeyTransparency
