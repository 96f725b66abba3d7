/-
# Left-balanced trees

The tree over a list of leaves whose left subtree is the largest balanced one that leaves
something for the right, with a parent function that is told of each child whether it is a
leaf (`leftBalanced`).  A log's value tells its parent function one flag for both children,
and so agrees with it where no parent has a leaf on its right only: on one leaf and on an
even number of leaves (`value_eq_leftBalanced`, `value_ne_leftBalanced`).
-/

import KeyTransparency.Library.MerkleLog.Value
import Mathlib.Tactic.Ring

namespace MerkleLog

variable {V : Type*}

/-- The largest power of two below a number. -/
def splitSize (n : ℕ) : ℕ := 2 ^ Nat.log2 (n - 1)

theorem splitSize_eq {n k : ℕ} (h : 2 ^ k < n) (h' : n ≤ 2 ^ (k + 1)) : splitSize n = 2 ^ k := by
  have hlog : Nat.log2 (n - 1) = k := (Nat.log2_eq_iff (by omega)).2 ⟨by omega, by omega⟩
  rw [splitSize, hlog]

theorem splitSize_lt {n : ℕ} (h : 1 < n) : splitSize n < n := by
  have := Nat.log2_self_le (n := n - 1) (by omega)
  rw [splitSize]
  omega

theorem splitSize_pos (n : ℕ) : 0 < splitSize n := Nat.two_pow_pos _

section

variable (par : Bool → Bool → V → V → V) (leaf : ℕ → V)

/-- The value of the left-balanced tree over a number of leaves, from one on. -/
def leftBalanced (start count : ℕ) : V :=
  if 1 < count then
    par (splitSize count == 1) (count - splitSize count == 1) (leftBalanced start (splitSize count))
      (leftBalanced (start + splitSize count) (count - splitSize count))
  else leaf start
termination_by count
decreasing_by
  · exact splitSize_lt ‹_›
  · have := splitSize_pos count
    omega

variable {par leaf}

theorem leftBalanced_leaf {start count : ℕ} (h : count ≤ 1) :
    leftBalanced par leaf start count = leaf start := by
  rw [leftBalanced, if_neg (by omega)]

theorem leftBalanced_node {start count k : ℕ} (h : 2 ^ k < count) (h' : count ≤ 2 ^ (k + 1)) :
    leftBalanced par leaf start count = par (2 ^ k == 1) (count - 2 ^ k == 1)
      (leftBalanced par leaf start (2 ^ k)) (leftBalanced par leaf (start + 2 ^ k) (count - 2 ^ k)) := by
  have := Nat.two_pow_pos k
  rw [leftBalanced, if_pos (by omega), splitSize_eq h h']

theorem leftBalanced_digest {Digest : V → Prop} (hpar : ∀ f g l r, Digest (par f g l r))
    {start count : ℕ} (hleaf : Digest (leaf start)) : Digest (leftBalanced par leaf start count) := by
  rw [leftBalanced]
  split_ifs
  · exact hpar _ _ _ _
  · exact hleaf

theorem two_pow_beq_one (k : ℕ) : (2 ^ k == 1) = (k == 0) := by
  cases k with
  | zero => rfl
  | succ k =>
    have := Nat.two_pow_pos k
    rw [beq_eq_false_iff_ne.2 (by omega : k + 1 ≠ 0), beq_eq_false_iff_ne]
    rw [Nat.pow_succ]
    omega

/-- **Where the flags agree**: blocks of one leaf, and of an even number of them. -/
theorem value_eq_leftBalanced {n : ℕ} : ∀ {k i c : ℕ}, i * 2 ^ k < n →
    c = min n ((i + 1) * 2 ^ k) - i * 2 ^ k → c = 1 ∨ c % 2 = 0 →
      value (fun f => par f f) leaf n k i = leftBalanced par leaf (i * 2 ^ k) c
  | 0, i, c, hi, hc, _ => by
    rw [value_zero, leftBalanced_leaf (by simp only [pow_zero] at hc; omega), pow_zero, Nat.mul_one]
  | k + 1, i, c, hi, hc, hparity => by
    obtain ⟨e₀, e₁, e₂, e₃⟩ := block_halves k i
    have hpow := Nat.two_pow_pos k
    have hsucc : 2 ^ (k + 1) = 2 * 2 ^ k := by ring
    by_cases hr : (2 * i + 1) * 2 ^ k < n
    · have hlt : 2 ^ k < c := by omega
      have hle : c ≤ 2 ^ (k + 1) := by omega
      have hflag : (c - 2 ^ k == 1) = (k == 0) := by
        cases k with
        | zero =>
          simp only [Nat.pow_zero] at *
          rw [show c = 2 by omega]
          rfl
        | succ k =>
          have : 2 ^ (k + 1) = 2 * 2 ^ k := by ring
          rw [beq_eq_false_iff_ne.2 (by omega : k + 1 ≠ 0), beq_eq_false_iff_ne]
          omega
      have hparity' : c - 2 ^ k = 1 ∨ (c - 2 ^ k) % 2 = 0 := by
        cases k with
        | zero =>
          simp only [Nat.pow_zero] at *
          omega
        | succ k =>
          have : 2 ^ (k + 1) = 2 * 2 ^ k := by ring
          omega
      have hleft : 2 ^ k = 1 ∨ 2 ^ k % 2 = 0 := by
        cases k with
        | zero => exact .inl rfl
        | succ k =>
          have : 2 ^ (k + 1) = 2 * 2 ^ k := by ring
          omega
      rw [value_succ_of_lt hr, leftBalanced_node hlt hle, two_pow_beq_one, hflag,
        value_eq_leftBalanced (c := 2 ^ k) (by omega) (by omega) hleft,
        value_eq_leftBalanced (c := c - 2 ^ k) hr (by omega) hparity', e₀, e₁]
    · rw [value_succ_of_le (by omega), value_eq_leftBalanced (c := c) (by omega) (by omega) hparity, e₀]

/-- **Where they do not**: the last leaf of an odd number stands alone on the right. -/
theorem value_ne_leftBalanced {Digest : V → Prop} (hpar : ∀ f g l r, Digest (par f g l r))
    (hinj : ∀ {f g f' g' l r l' r'}, Digest l → Digest l' → par f g l r = par f' g' l' r' →
      g = g' ∧ r = r') {n : ℕ} (hleaf : ∀ p < n, Digest (leaf p)) : ∀ {k i c : ℕ}, i * 2 ^ k < n →
    c = min n ((i + 1) * 2 ^ k) - i * 2 ^ k → 1 < c → c % 2 = 1 →
      value (fun f => par f f) leaf n k i ≠ leftBalanced par leaf (i * 2 ^ k) c
  | 0, i, c, hi, hc, h₁, _ => by
    simp only [pow_zero] at hc
    omega
  | k + 1, i, c, hi, hc, h₁, hodd => by
    obtain ⟨e₀, e₁, e₂, e₃⟩ := block_halves k i
    have hpow := Nat.two_pow_pos k
    have hsucc : 2 ^ (k + 1) = 2 * 2 ^ k := by ring
    by_cases hr : (2 * i + 1) * 2 ^ k < n
    · have hlt : 2 ^ k < c := by omega
      have hle : c ≤ 2 ^ (k + 1) := by omega
      obtain ⟨m, rfl⟩ : ∃ m, k = m + 1 := by
        cases k with
        | zero =>
          simp only [Nat.pow_zero] at *
          omega
        | succ m => exact ⟨m, rfl⟩
      have hm : 2 ^ (m + 1) = 2 * 2 ^ m := by ring
      rw [value_succ_of_lt hr, leftBalanced_node hlt hle, ← e₀]
      intro heq
      have hvalue : Digest (value (fun f => par f f) leaf n (m + 1) (2 * i)) := by
        rw [value_succ_of_lt (by obtain ⟨-, e, -⟩ := block_halves m (2 * i); omega)]
        exact hpar _ _ _ _
      obtain ⟨hflag, hright⟩ := hinj hvalue
        (leftBalanced_digest hpar (hleaf _ (by omega))) heq
      rw [beq_eq_false_iff_ne.2 (by omega : m + 1 ≠ 0), eq_comm, beq_eq_false_iff_ne] at hflag
      rw [e₀, ← e₁] at hright
      exact value_ne_leftBalanced hpar hinj hleaf hr (by omega) (by omega) (by omega) hright
    · rw [value_succ_of_le (by omega), ← e₀]
      exact value_ne_leftBalanced hpar hinj hleaf (by omega) (by omega) h₁ hodd

end

end MerkleLog
