/-
# Paths as numbers

The nodes of a perfect binary tree are numbered level by level, from left to right: the
number of a node is its path from the root, read as a binary number (`nodePath`, `number`).
Bit operations on the number then walk the tree: a shift goes up, flipping the last bit goes
to the node beside, and setting the bits below goes to the last node further down.
-/

import Mathlib.Data.List.Induction
import Mathlib.Data.Nat.Bitwise

namespace BitPath

/-- The path of a node of a level. -/
def nodePath : ℕ → ℕ → List Bool
  | 0, _ => []
  | level + 1, i => nodePath level (i / 2) ++ [i % 2 == 1]

/-- The number of a path. -/
def number (path : List Bool) : ℕ := path.foldl (fun n b => n <<< 1 ||| b.toNat) 0

variable {level k i j p : ℕ} {path : List Bool} {b : Bool}

@[simp] theorem length_nodePath (level i : ℕ) : (nodePath level i).length = level := by
  induction level generalizing i with
  | zero => rfl
  | succ level ih => rw [nodePath, List.length_append, ih, List.length_singleton]

theorem nodePath_double (level i : ℕ) (b : Bool) : nodePath (level + 1) (2 * i + b.toNat) = nodePath level i ++ [b] := by
  cases b
  · rw [nodePath, Bool.toNat_false, show (2 * i + 0) / 2 = i by omega, show (2 * i + 0) % 2 = 0 by omega]
    rfl
  · rw [nodePath, Bool.toNat_true, show (2 * i + 1) / 2 = i by omega, show (2 * i + 1) % 2 = 1 by omega]
    rfl

theorem number_concat (path : List Bool) (b : Bool) : number (path ++ [b]) = 2 * number path + b.toNat := by
  have hshift : ∀ n : ℕ, n <<< 1 ||| b.toNat = 2 * n + b.toNat := by
    intro n
    rw [Nat.shiftLeft_eq, Nat.mul_comm]
    exact (Nat.two_pow_add_eq_or_of_lt (i := 1) (by cases b <;> decide) n).symm
  rw [number, List.foldl_append, List.foldl_cons, List.foldl_nil, hshift]
  rfl

theorem number_lt (path : List Bool) : number path < 2 ^ path.length := by
  induction path using List.reverseRecOn with
  | nil => exact Nat.one_pos
  | append_singleton path b ih =>
    rw [number_concat, List.length_append, List.length_singleton, Nat.pow_succ]
    cases b <;> simp only [Bool.toNat_true, Bool.toNat_false] <;> omega

/-- **A path is determined by its number.** -/
theorem nodePath_number (path : List Bool) : nodePath path.length (number path) = path := by
  induction path using List.reverseRecOn with
  | nil => rfl
  | append_singleton path b ih =>
    rw [List.length_append, List.length_singleton, number_concat, nodePath_double, ih]

/-- A node is determined by its path. -/
theorem nodePath_inj (hi : i < 2 ^ level) (hj : j < 2 ^ level) (h : nodePath level i = nodePath level j) : i = j := by
  induction level generalizing i j with
  | zero => omega
  | succ level ih =>
    rw [Nat.pow_succ] at hi hj
    obtain ⟨habove, hlast⟩ := List.append_inj' h rfl
    have hhalf := ih (by omega) (by omega) habove
    have hbit : (i % 2 == 1) = (j % 2 == 1) := List.singleton_inj.1 hlast
    rcases Nat.mod_two_eq_zero_or_one i with h₀ | h₁ <;> rcases Nat.mod_two_eq_zero_or_one j with h₂ | h₃ <;>
      simp_all <;> omega

/-- **Up the tree**: a shift gives the node above. -/
theorem take_nodePath (hk : level ≤ k) : (nodePath k p).take level = nodePath level (p >>> (k - level)) := by
  induction k, hk using Nat.le_induction generalizing p with
  | base => rw [Nat.sub_self, Nat.shiftRight_zero, List.take_of_length_le (by simp)]
  | succ k hk ih =>
    rw [nodePath, List.take_append_of_le_length (by simpa using hk), ih, Nat.sub_add_comm hk,
      Nat.add_comm (k - level) 1, Nat.shiftRight_add]
    rfl

/-- Two nodes of a level whose paths meet are one. -/
theorem eq_of_nodePath_prefix {path : List Bool} (hi : i < 2 ^ level) (hj : j < 2 ^ level)
    (h : nodePath level i <+: path) (h' : nodePath level j <+: path) : i = j := by
  refine nodePath_inj hi hj ?_
  rw [List.prefix_iff_eq_take.1 h, List.prefix_iff_eq_take.1 h', length_nodePath, length_nodePath]

/-- **To the side**: flipping the last bit gives the node beside. -/
theorem nodePath_beside (level i : ℕ) :
    nodePath (level + 1) (i ^^^ 1) = nodePath level (i / 2) ++ [!(i % 2 == 1)] := by
  have hmod : (i ^^^ 1) % 2 = (i + 1) % 2 := Nat.xor_mod_two_eq
  rw [nodePath, Nat.xor_div_two, hmod, show (1 : ℕ) / 2 = 0 from rfl, Nat.xor_zero]
  rcases Nat.mod_two_eq_zero_or_one i with h | h
  · rw [h, show (i + 1) % 2 = 1 by omega]
    rfl
  · rw [h, show (i + 1) % 2 = 0 by omega]
    rfl

/-- **Down the tree**: the last node below the one beside. -/
theorem lastBeside_eq (p b : ℕ) :
    (p ^^^ 1 <<< b) ||| (1 <<< b - 1) = ((p >>> b) ^^^ 1) * 2 ^ b + (2 ^ b - 1) := by
  have hpow := Nat.two_pow_pos b
  rw [Nat.one_shiftLeft, Nat.mul_comm, Nat.two_pow_add_eq_or_of_lt (by omega)]
  refine Nat.eq_of_testBit_eq fun i => ?_
  rw [Nat.testBit_or, Nat.testBit_or, Nat.testBit_xor, Nat.testBit_two_pow_mul, Nat.testBit_xor,
    Nat.testBit_shiftRight, Nat.testBit_two_pow_sub_one, Nat.testBit_two_pow]
  rcases Nat.lt_trichotomy i b with hlt | rfl | hgt
  · simp [hlt]
  · simp
  · have hone : Nat.testBit 1 (i - b) = false := by
      by_contra htrue
      have := Nat.testBit_one_eq_true_iff_self_eq_zero.1 (Bool.eq_true_of_not_eq_false htrue)
      omega
    rw [hone, show b + (i - b) = i by omega, decide_eq_false (show ¬b = i by omega),
      decide_eq_true (show i ≥ b by omega), Bool.true_and]

end BitPath
