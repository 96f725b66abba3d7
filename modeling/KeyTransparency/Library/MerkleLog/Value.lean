/-
# Values of append-only Merkle trees

A log of `n` leaves is hashed as the left part of a perfect binary tree: the node
at level `k` covering block `i` (leaves `i 2^k, …, (i + 1) 2^k - 1`) has the hash
of its two children as its value when its right half holds a leaf, and the value
of its left child otherwise (`value`).  `root` is the value of the lowest node
covering every leaf.

What a value says about the leaves below it depends on the hash.  `HashScheme`
asks that the parent function be injective once one child is known to have the
size of a digest; then a value determines its leaves when the shape is known
(`value_inj`).  `Separated` asks in addition that no parent be a leaf value; then
it determines the number of leaves too (`value_size_inj`).
-/

import Mathlib.Data.Nat.Log
import Mathlib.Tactic.Ring

namespace MerkleLog

variable {V : Type*}

/-! ### Sizes -/

/-- The level of the root of a log of `n` leaves. -/
def height (n : ℕ) : ℕ := if n ≤ 1 then 0 else Nat.log2 (n - 1) + 1

theorem le_two_pow_height (n : ℕ) : n ≤ 2 ^ height n := by
  unfold height
  split_ifs with h
  · omega
  · have := (Nat.log2_lt (n := n - 1) (k := Nat.log2 (n - 1) + 1) (by omega)).1 (by omega)
    omega

theorem two_pow_lt_of_height {n h : ℕ} (hn : height n = h + 1) : 2 ^ h < n := by
  unfold height at hn
  split_ifs at hn with h₁
  have := Nat.log2_self_le (n := n - 1) (by omega)
  have : n.pred = n - 1 := rfl
  obtain rfl : Nat.log2 (n - 1) = h := by omega
  omega

theorem height_le_of_le_two_pow {n k : ℕ} (h : n ≤ 2 ^ k) : height n ≤ k := by
  cases hn : height n with
  | zero => omega
  | succ j =>
    have h₁ := (two_pow_lt_of_height hn).trans_le h
    have := (Nat.pow_lt_pow_iff_right (by omega : 1 < 2)).1 h₁
    omega

/-- Where the two halves of the block `i` at level `k + 1` start and end. -/
theorem block_halves (k i : ℕ) :
    2 * i * 2 ^ k = i * 2 ^ (k + 1) ∧ (2 * i + 1) * 2 ^ k = i * 2 ^ (k + 1) + 2 ^ k ∧
      (2 * i + 1 + 1) * 2 ^ k = i * 2 ^ (k + 1) + 2 * 2 ^ k ∧
      (i + 1) * 2 ^ (k + 1) = i * 2 ^ (k + 1) + 2 * 2 ^ k := by
  refine ⟨by ring, by ring, by ring, by ring⟩

/-! ### Values -/

section Value

variable (par : Bool → V → V → V) (leaf : ℕ → V)

/-- The value of the node at level `k` and block `i` in a log of `n` leaves.
The flag handed to `par` says whether the two children are leaves. -/
def value (n : ℕ) : ℕ → ℕ → V
  | 0, i => leaf i
  | k + 1, i =>
    if (2 * i + 1) * 2 ^ k < n then
      par (k == 0) (value n k (2 * i)) (value n k (2 * i + 1))
    else value n k (2 * i)

/-- The value of a log of `n` leaves. -/
def root (n : ℕ) : V := value par leaf n (height n) 0

variable {par leaf}

@[simp] theorem value_zero (n i : ℕ) : value par leaf n 0 i = leaf i := rfl

theorem value_succ_of_lt {n k i : ℕ} (h : (2 * i + 1) * 2 ^ k < n) :
    value par leaf n (k + 1) i =
      par (k == 0) (value par leaf n k (2 * i)) (value par leaf n k (2 * i + 1)) := by
  rw [value, if_pos h]

theorem value_succ_of_le {n k i : ℕ} (h : n ≤ (2 * i + 1) * 2 ^ k) :
    value par leaf n (k + 1) i = value par leaf n k (2 * i) := by
  rw [value, if_neg (by omega)]

/-- **A value depends on the leaves it covers only.** -/
theorem value_congr {leaf' : ℕ → V} {n : ℕ} :
    ∀ {k i : ℕ}, i * 2 ^ k < n →
      (∀ p, i * 2 ^ k ≤ p → p < (i + 1) * 2 ^ k → p < n → leaf p = leaf' p) →
      value par leaf n k i = value par leaf' n k i
  | 0, i, hi, h => h i (by omega) (by omega) (by omega)
  | k + 1, i, hi, h => by
    obtain ⟨e₀, e₁, e₂, e₃⟩ := block_halves k i
    have hl : value par leaf n k (2 * i) = value par leaf' n k (2 * i) :=
      value_congr (by omega) fun p h₁ h₂ => h p (by omega) (by omega)
    by_cases hr : (2 * i + 1) * 2 ^ k < n
    · rw [value_succ_of_lt hr, value_succ_of_lt hr, hl,
        value_congr hr fun p h₁ h₂ => h p (by omega) (by omega)]
    · rw [value_succ_of_le (by omega), value_succ_of_le (by omega), hl]

/-- **Complete subtrees do not change when the log grows.** -/
theorem value_of_complete {n n' : ℕ} :
    ∀ {k i : ℕ}, (i + 1) * 2 ^ k ≤ n → (i + 1) * 2 ^ k ≤ n' →
      value par leaf n k i = value par leaf n' k i
  | 0, _, _, _ => rfl
  | k + 1, i, h, h' => by
    obtain ⟨e₀, e₁, e₂, e₃⟩ := block_halves k i
    have := Nat.two_pow_pos k
    have hl : value par leaf n k (2 * i) = value par leaf n' k (2 * i) :=
      value_of_complete (by omega) (by omega)
    have hr : value par leaf n k (2 * i + 1) = value par leaf n' k (2 * i + 1) :=
      value_of_complete (by omega) (by omega)
    rw [value_succ_of_lt (by omega), value_succ_of_lt (by omega), hl, hr]

end Value

/-! ### Hash schemes -/

/-- A parent function that is injective once one of the two children is known to
be a digest. -/
structure HashScheme (V : Type*) where
  par : Bool → V → V → V
  /-- The values that have the size of a digest. -/
  Digest : V → Prop
  par_digest : ∀ f l r, Digest (par f l r)
  par_inj_left : ∀ {f l r f' l' r'}, Digest l → Digest l' →
    par f l r = par f' l' r' → f = f' ∧ l = l' ∧ r = r'
  par_inj_right : ∀ {f l r f' l' r'}, Digest r → Digest r' →
    par f l r = par f' l' r' → f = f' ∧ l = l' ∧ r = r'

namespace HashScheme

variable {S : HashScheme V} {leaf leaf' : ℕ → V} {n : ℕ}

theorem value_digest (hleaf : ∀ p < n, S.Digest (leaf p)) :
    ∀ {k i : ℕ}, i * 2 ^ k < n → S.Digest (value S.par leaf n k i)
  | 0, i, h => hleaf i (by omega)
  | k + 1, i, h => by
    obtain ⟨e₀, e₁, e₂, e₃⟩ := block_halves k i
    by_cases hr : (2 * i + 1) * 2 ^ k < n
    · rw [value_succ_of_lt hr]
      exact S.par_digest _ _ _
    · rw [value_succ_of_le (by omega)]
      exact value_digest hleaf (by omega)

/-- **A value determines the leaves below it**, the size of the log being known. -/
theorem value_inj (hleaf : ∀ p < n, S.Digest (leaf p)) (hleaf' : ∀ p < n, S.Digest (leaf' p)) :
    ∀ {k i : ℕ}, i * 2 ^ k < n → value S.par leaf n k i = value S.par leaf' n k i →
      ∀ p, i * 2 ^ k ≤ p → p < (i + 1) * 2 ^ k → p < n → leaf p = leaf' p
  | 0, i, _, h, p, h₁, h₂, _ => by
    obtain rfl : p = i := by omega
    exact h
  | k + 1, i, hi, h, p, h₁, h₂, h₃ => by
    obtain ⟨e₀, e₁, e₂, e₃⟩ := block_halves k i
    by_cases hr : (2 * i + 1) * 2 ^ k < n
    · rw [value_succ_of_lt hr, value_succ_of_lt hr] at h
      obtain ⟨-, hl, hr'⟩ := S.par_inj_left (value_digest hleaf (by omega))
        (value_digest hleaf' (by omega)) h
      by_cases hp : p < (2 * i + 1) * 2 ^ k
      · exact value_inj hleaf hleaf' (by omega) hl p (by omega) (by omega) h₃
      · exact value_inj hleaf hleaf' hr hr' p (by omega) (by omega) h₃
    · rw [value_succ_of_le (by omega), value_succ_of_le (by omega)] at h
      exact value_inj hleaf hleaf' (by omega) h p (by omega) (by omega) h₃

end HashScheme

/-- A hash scheme with a set of leaf values, digests that are the value of no
parent of two digests. -/
structure Separated (V : Type*) extends HashScheme V where
  Leaf : V → Prop
  leaf_digest : ∀ {v}, Leaf v → Digest v
  par_not_leaf : ∀ f {l r}, Digest l → Digest r → ¬ Leaf (par f l r)

/-- The tree a value is the hash of. -/
inductive Tree (V : Type*)
  | leaf (v : V)
  | node (flag : Bool) (l r : Tree V)

namespace Tree

def hash (par : Bool → V → V → V) : Tree V → V
  | leaf v => v
  | node f l r => par f (hash par l) (hash par r)

def leaves : Tree V → List V
  | leaf v => [v]
  | node _ l r => leaves l ++ leaves r

/-- The tree below the node at level `k` and block `i`. -/
def subtree (lf : ℕ → V) (n : ℕ) : ℕ → ℕ → Tree V
  | 0, i => leaf (lf i)
  | k + 1, i =>
    if (2 * i + 1) * 2 ^ k < n then node (k == 0) (subtree lf n k (2 * i)) (subtree lf n k (2 * i + 1))
    else subtree lf n k (2 * i)

theorem hash_subtree (par : Bool → V → V → V) (lf : ℕ → V) (n : ℕ) :
    ∀ k i, (subtree lf n k i).hash par = value par lf n k i
  | 0, _ => rfl
  | k + 1, i => by
    rw [subtree, value]
    split_ifs
    · rw [hash, hash_subtree par lf n k, hash_subtree par lf n k]
    · exact hash_subtree par lf n k _

theorem mem_leaves_subtree {lf : ℕ → V} {n : ℕ} {v : V} :
    ∀ {k i : ℕ}, i * 2 ^ k < n → v ∈ (subtree lf n k i).leaves → ∃ p < n, v = lf p
  | 0, i, h, hv => ⟨i, by omega, by simpa [subtree, leaves] using hv⟩
  | k + 1, i, h, hv => by
    obtain ⟨e₀, e₁, e₂, e₃⟩ := block_halves k i
    rw [subtree] at hv
    split_ifs at hv with hr
    · rcases List.mem_append.1 hv with hv | hv
      · exact mem_leaves_subtree (by omega) hv
      · exact mem_leaves_subtree hr hv
    · exact mem_leaves_subtree (by omega) hv

/-- A node has as many leaves below it as its block holds. -/
theorem length_leaves_subtree (lf : ℕ → V) (n : ℕ) :
    ∀ k i, i * 2 ^ k < n →
      (subtree lf n k i).leaves.length = min n ((i + 1) * 2 ^ k) - i * 2 ^ k
  | 0, i, h => by simp only [subtree, leaves, List.length_singleton, pow_zero] at *; omega
  | k + 1, i, h => by
    obtain ⟨e₀, e₁, e₂, e₃⟩ := block_halves k i
    have ih := length_leaves_subtree lf n k
    rw [subtree]
    split_ifs with hr
    · rw [leaves, List.length_append, ih _ (by omega), ih _ hr]
      omega
    · rw [ih _ (by omega)]
      omega

theorem hash_digest (S : Separated V) {t : Tree V} (h : ∀ v ∈ t.leaves, S.Leaf v) :
    S.Digest (t.hash S.par) := by
  cases t with
  | leaf v => exact S.leaf_digest (h v (by simp [leaves]))
  | node f l r => exact S.par_digest _ _ _

/-- **A hash determines its tree.** -/
theorem hash_inj (S : Separated V) {t t' : Tree V} (h : ∀ v ∈ t.leaves, S.Leaf v)
    (h' : ∀ v ∈ t'.leaves, S.Leaf v) (e : t.hash S.par = t'.hash S.par) : t = t' := by
  induction t generalizing t' with
  | leaf v =>
    cases t' with
    | leaf v' => exact congrArg leaf e
    | node f l r =>
      have hv := h v (by simp [leaves])
      rw [show v = S.par f (l.hash S.par) (r.hash S.par) from e] at hv
      exact absurd hv (S.par_not_leaf _
        (hash_digest S fun v hv => h' v (List.mem_append_left _ hv))
        (hash_digest S fun v hv => h' v (List.mem_append_right _ hv)))
  | node f l r ihl ihr =>
    cases t' with
    | leaf v' =>
      have hv := h' v' (by simp [leaves])
      rw [show v' = S.par f (l.hash S.par) (r.hash S.par) from e.symm] at hv
      exact absurd hv (S.par_not_leaf _
        (hash_digest S fun v hv => h v (List.mem_append_left _ hv))
        (hash_digest S fun v hv => h v (List.mem_append_right _ hv)))
    | node f' l' r' =>
      have hl : ∀ v ∈ l.leaves, S.Leaf v := fun v hv => h v (List.mem_append_left _ hv)
      have hl' : ∀ v ∈ l'.leaves, S.Leaf v := fun v hv => h' v (List.mem_append_left _ hv)
      obtain ⟨rfl, el, er⟩ := S.par_inj_left (hash_digest S hl) (hash_digest S hl') e
      rw [ihl hl hl' el, ihr (fun v hv => h v (List.mem_append_right _ hv))
        (fun v hv => h' v (List.mem_append_right _ hv)) er]

end Tree

/-- **A value determines the number of leaves below it.** -/
theorem Separated.value_size_inj {S : Separated V} {leaf leaf' : ℕ → V} {n n' k i k' i' : ℕ}
    (hleaf : ∀ p < n, S.Leaf (leaf p)) (hleaf' : ∀ p < n', S.Leaf (leaf' p))
    (hi : i * 2 ^ k < n) (hi' : i' * 2 ^ k' < n')
    (e : value S.par leaf n k i = value S.par leaf' n' k' i') :
    min n ((i + 1) * 2 ^ k) - i * 2 ^ k = min n' ((i' + 1) * 2 ^ k') - i' * 2 ^ k' := by
  rw [← Tree.hash_subtree, ← Tree.hash_subtree] at e
  have ht := Tree.hash_inj S
    (fun v hv => by obtain ⟨p, hp, rfl⟩ := Tree.mem_leaves_subtree hi hv; exact hleaf p hp)
    (fun v hv => by obtain ⟨p, hp, rfl⟩ := Tree.mem_leaves_subtree hi' hv; exact hleaf' p hp) e
  rw [← Tree.length_leaves_subtree leaf n k i hi, ht, Tree.length_leaves_subtree leaf' n' k' i' hi']

end MerkleLog
