/-
# In-order numbering of the infinite perfect binary tree

The nodes of a perfect binary tree are numbered in order: leaf `i` is `2 i`, and
the node at level `k` that covers leaves `i 2^k, …, (i + 1) 2^k - 1` is
`node k i = (2 i + 1) 2^k - 1`.  The level of a node is then the number of
trailing ones of its number, and its children and parent are reached by
flipping one or two bits.  This file relates the bit operations to the
coordinates `(k, i)`.
-/

import Mathlib.Algebra.Order.Ring.Nat
import Mathlib.Algebra.Ring.Parity
import Mathlib.Data.Nat.Bitwise
import Mathlib.Tactic.Ring

namespace InOrder

/-- The number of the node at level `k` covering the `i`-th block of `2 ^ k`
leaves. -/
def node (k i : ℕ) : ℕ := i * 2 ^ (k + 1) + (2 ^ k - 1)

@[simp] theorem node_zero (i : ℕ) : node 0 i = 2 * i := by simp [node]; ring

theorem node_succ (k i : ℕ) : node (k + 1) i = 2 * node k i + 1 := by
  have h := Nat.one_le_two_pow (n := k)
  have h₁ : (2 : ℕ) ^ (k + 1) = 2 * 2 ^ k := by ring
  have h₂ : i * 2 ^ (k + 1 + 1) = 2 * (i * 2 ^ (k + 1)) := by ring
  simp only [node, h₂, h₁]
  omega

/-- Every number is a node. -/
theorem exists_eq_node (x : ℕ) : ∃ k i, x = node k i := by
  induction x using Nat.strong_induction_on with
  | _ x ih =>
    rcases Nat.even_or_odd' x with ⟨i, rfl | rfl⟩
    · exact ⟨0, i, (node_zero i).symm⟩
    · obtain ⟨k, j, hj⟩ := ih i (by omega)
      exact ⟨k + 1, j, by rw [node_succ, ← hj]⟩

/-- **Coordinates are unique.** -/
theorem node_inj {k i k' i' : ℕ} (h : node k i = node k' i') : k = k' ∧ i = i' := by
  induction k generalizing k' with
  | zero =>
    cases k' with
    | zero => rw [node_zero, node_zero] at h; exact ⟨rfl, by omega⟩
    | succ k' => rw [node_zero, node_succ] at h; omega
  | succ k ih =>
    cases k' with
    | zero => rw [node_zero, node_succ] at h; omega
    | succ k' =>
      rw [node_succ, node_succ] at h
      obtain ⟨rfl, rfl⟩ := @ih k' (by omega)
      exact ⟨rfl, rfl⟩

/-- A node of level `k` is `2 ^ k` times its index from there plus `k` trailing
ones. -/
theorem node_succ_eq (k i : ℕ) : node (k + 1) i = 2 ^ k * (4 * i + 1) + (2 ^ k - 1) := by
  have h := Nat.one_le_two_pow (n := k)
  have h₁ : (2 : ℕ) ^ (k + 1) = 2 ^ k + 2 ^ k := by ring
  have h₂ : i * 2 ^ (k + 1 + 1) = 2 ^ k * (4 * i) := by ring
  have h₃ : 2 ^ k * (4 * i + 1) = 2 ^ k * (4 * i) + 2 ^ k := by ring
  simp only [node, h₂, h₁, h₃]
  omega

private theorem two_pow_mul_add_xor (k q p r : ℕ) (hr : r < 2 ^ k) :
    (2 ^ k * q + r) ^^^ (2 ^ k * p) = 2 ^ k * (q ^^^ p) + r := by
  apply Nat.eq_of_testBit_eq
  intro j
  have h₀ : (2 ^ k * p).testBit j = if j < k then false else p.testBit (j - k) := by
    simpa using Nat.testBit_two_pow_mul_add p (Nat.two_pow_pos k) j
  rw [Nat.testBit_xor, Nat.testBit_two_pow_mul_add _ hr, Nat.testBit_two_pow_mul_add _ hr, h₀]
  split_ifs <;> simp [Nat.testBit_xor]

private theorem small_xor_four_mul (i r : ℕ) (hr : r < 4) : r ^^^ (4 * i) = 4 * i + r := by
  simpa using two_pow_mul_add_xor 2 0 i r hr

private theorem four_mul_add_one_xor_one (i : ℕ) : (4 * i + 1) ^^^ 1 = 4 * i := by
  rw [← small_xor_four_mul i 1 (by omega), Nat.xor_comm, ← Nat.xor_assoc]
  simp

private theorem four_mul_add_one_xor_three (i : ℕ) : (4 * i + 1) ^^^ 3 = 4 * i + 2 := by
  rw [← small_xor_four_mul i 1 (by omega), Nat.xor_comm, ← Nat.xor_assoc,
    show (3 : ℕ) ^^^ 1 = 2 from rfl, small_xor_four_mul i 2 (by omega)]

/-- **Clearing the top trailing one goes to the left child.** -/
theorem node_xor_left (k i : ℕ) : node (k + 1) i ^^^ (1 <<< k) = node k (2 * i) := by
  rw [node_succ_eq, Nat.one_shiftLeft, ← Nat.mul_one (2 ^ k), Nat.mul_assoc, Nat.one_mul,
    two_pow_mul_add_xor _ _ _ _ (by have := Nat.two_pow_pos k; omega), four_mul_add_one_xor_one]
  simp only [node]
  ring_nf

/-- **Flipping the two bits above goes to the right child.** -/
theorem node_xor_right (k i : ℕ) : node (k + 1) i ^^^ (3 <<< k) = node k (2 * i + 1) := by
  rw [node_succ_eq, Nat.shiftLeft_eq, Nat.mul_comm 3,
    two_pow_mul_add_xor _ _ _ _ (by have := Nat.two_pow_pos k; omega),
    four_mul_add_one_xor_three]
  simp only [node]
  ring_nf

theorem node_even_index (k j : ℕ) : node k (2 * j) + 1 <<< k = node (k + 1) j := by
  have h := Nat.one_le_two_pow (n := k)
  have h₁ : (2 : ℕ) ^ (k + 1) = 2 ^ k + 2 ^ k := by ring
  have h₂ : 2 * j * 2 ^ (k + 1) = j * 2 ^ (k + 1 + 1) := by ring
  rw [Nat.one_shiftLeft]
  simp only [node, h₂]
  rw [h₁]
  omega

theorem node_odd_index (k j : ℕ) : node k (2 * j + 1) - 1 <<< k = node (k + 1) j := by
  have h := Nat.one_le_two_pow (n := k)
  have h₁ : (2 : ℕ) ^ (k + 1) = 2 ^ k + 2 ^ k := by ring
  have h₂ : (2 * j + 1) * 2 ^ (k + 1) = j * 2 ^ (k + 1 + 1) + 2 ^ (k + 1) := by ring
  rw [Nat.one_shiftLeft]
  simp only [node, h₂]
  rw [h₁]
  omega

/-- Bit `k + 1` of a level-`k` node says which child of its parent it is. -/
theorem node_shiftRight (k i : ℕ) : node k i >>> (k + 1) = i := by
  rw [Nat.shiftRight_eq_div_pow, node]
  have h : 2 ^ k - 1 < 2 ^ (k + 1) := by
    have := Nat.two_pow_pos k
    rw [pow_succ]
    omega
  rw [Nat.mul_comm, Nat.mul_add_div (Nat.two_pow_pos _), Nat.div_eq_of_lt h, Nat.add_zero]

/-- A node covers the leaves of its block. -/
theorem div_two_pow_succ (k p : ℕ) : p / 2 ^ (k + 1) = p / 2 ^ k / 2 := by
  rw [pow_succ, Nat.div_div_eq_div_mul]

end InOrder
