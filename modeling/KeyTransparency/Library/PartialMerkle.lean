/-
# Sparse Merkle trees of which some nodes are known

A batch proof shows some nodes of a sparse Merkle tree, and `resolve` derives the value
at a path from them: a known node has its value, a path with known nodes below it is
the parent of its two children, and the rest is empty.

* `resolve_eq_hash`: from true values that cover the leaves below a path (`Agrees`,
  `Covers`), the value at the path is that of the tree;
* `covers_of_copaths`: the nodes beside the paths of some absent keys, each down to where
  its path becomes empty, cover all leaves below a beginning of one of the paths.  Those
  with another of the keys below them may be missing.
-/

import KeyTransparency.Library.SparseMerkle
import Mathlib.Data.List.Infix

namespace SparseMerkle

variable {V : Type*}

/-- The value of the subtree of height `d` below a path, from the known nodes.  `below`
tells whether a node further down is known. -/
def resolve (par : V → V → V) (zero : V) (nodes : List Bool → Option V) (below : List Bool → Bool) :
    ℕ → List Bool → V
  | 0, p => (nodes p).getD zero
  | d + 1, p =>
    match nodes p with
    | some v => v
    | none =>
      if below p then
        par (resolve par zero nodes below d (p ++ [false])) (resolve par zero nodes below d (p ++ [true]))
      else zero

/-- The path beside a path at a level. -/
def besideAt (key : List Bool) (level : ℕ) : List Bool := key.take level ++ [!key.getD level false]

/-- A leaf of the tree of height `n`, below a path. -/
structure LeafBelow (leaves : List Bool → Option V) (n : ℕ) (p leaf : List Bool) : Prop where
  length : leaf.length = n
  ne_none : leaves leaf ≠ none
  below : p <+: leaf

/-- The known nodes are nodes of a tree, and none hangs below an empty one. -/
structure Agrees (par : V → V → V) (zero : V) (leaves : List Bool → Option V) (n : ℕ)
    (nodes : List Bool → Option V) (below : List Bool → Bool) : Prop where
  below_iff : ∀ p, below p = true ↔ ∃ q, p <+: q ∧ p.length < q.length ∧ nodes q ≠ none
  value : ∀ {p v}, nodes p = some v → v = hash par zero leaves (n - p.length) p
  parent : ∀ {p v}, nodes p = some v → ∃ leaf, LeafBelow leaves n p.dropLast leaf

/-- A known node lies above each leaf below a path, and not above the path. -/
def Covers (leaves : List Bool → Option V) (n : ℕ) (nodes : List Bool → Option V) (p : List Bool) :
    Prop :=
  ∀ leaf, LeafBelow leaves n p leaf → ∃ k, p.length ≤ k ∧ nodes (leaf.take k) ≠ none

section

variable {par : V → V → V} {zero : V} {leaves : List Bool → Option V} {n : ℕ}
  {nodes : List Bool → Option V} {below : List Bool → Bool} {p : List Bool}

theorem resolve_of_node {d : ℕ} {v : V} (h : nodes p = some v) :
    resolve par zero nodes below d p = v := by
  cases d with
  | zero => rw [resolve, h, Option.getD_some]
  | succ d => rw [resolve, h]

theorem Covers.append (h : Covers leaves n nodes p) (hnone : nodes p = none) (b : Bool) :
    Covers leaves n nodes (p ++ [b]) := by
  intro leaf hleaf
  have hp : p <+: leaf := (List.prefix_append p [b]).trans hleaf.below
  obtain ⟨k, hk, hnode⟩ := h leaf ⟨hleaf.length, hleaf.ne_none, hp⟩
  refine ⟨k, ?_, hnode⟩
  rcases Nat.eq_or_lt_of_le hk with rfl | hlt
  · rw [← List.prefix_iff_eq_take.1 hp] at hnode
    exact absurd hnone hnode
  · rw [List.length_append, List.length_singleton]
    exact hlt

/-- **The value at a path** whose leaves are covered. -/
theorem resolve_eq_hash (ha : Agrees par zero leaves n nodes below) :
    ∀ {d : ℕ} {p : List Bool}, p.length + d = n → Covers leaves n nodes p →
      resolve par zero nodes below d p = hash par zero leaves d p
  | d, p, hlen, hc => by
    cases hp : nodes p with
    | some v =>
      rw [resolve_of_node hp, ha.value hp]
      congr 1
      omega
    | none =>
      cases d with
      | zero =>
        rw [resolve, hp, Option.getD_none, hash, value]
        cases hleaf : leaves p with
        | none => rfl
        | some v =>
          obtain ⟨k, hk, hnode⟩ := hc p ⟨by omega, by rw [hleaf]; simp, List.prefix_rfl⟩
          rw [List.take_of_length_le hk] at hnode
          exact absurd hp hnode
      | succ d =>
        have hchild : ∀ b, resolve par zero nodes below d (p ++ [b]) =
            hash par zero leaves d (p ++ [b]) := fun b =>
          resolve_eq_hash ha (by rw [List.length_append, List.length_singleton]; omega) (hc.append hp b)
        rw [resolve, hp]
        dsimp only
        by_cases hempty : ∃ leaf, LeafBelow leaves n p leaf
        · obtain ⟨leaf, hleaf⟩ := hempty
          obtain ⟨k, hk, hnode⟩ := hc leaf hleaf
          have hpre := List.prefix_iff_eq_take.1 hleaf.below
          have hne : k ≠ p.length := by
            rintro rfl
            rw [← hpre] at hnode
            exact hnode hp
          have hbelow : below p = true := by
            refine (ha.below_iff p).2 ⟨leaf.take k, ?_, ?_, hnode⟩
            · rw [hpre]
              exact List.take_prefix_take_left hk
            · rw [List.length_take, hleaf.length]
              omega
          obtain ⟨q, rfl⟩ := hleaf.below
          have hq := hleaf.length
          rw [List.length_append] at hq
          rw [if_pos hbelow, hchild, hchild, hash_succ ⟨q, by omega, hleaf.ne_none⟩]
        · -- an inner node further down would have a leaf below its parent
          have hbelow : ¬ below p = true := by
            intro h
            obtain ⟨q, hpq, hlt, hnode⟩ := (ha.below_iff p).1 h
            obtain ⟨v, hv⟩ := Option.ne_none_iff_exists'.1 hnode
            obtain ⟨leaf, hleaf⟩ := ha.parent hv
            refine hempty ⟨leaf, hleaf.length, hleaf.ne_none, List.IsPrefix.trans ?_ hleaf.below⟩
            obtain ⟨r, rfl⟩ := hpq
            have hr : r ≠ [] := by
              rintro rfl
              simp at hlt
            rw [List.dropLast_append_of_ne_nil hr]
            exact List.prefix_append _ _
          rw [if_neg hbelow]
          refine (hash_of_empty fun q hq => ?_).symm
          by_contra hne
          exact hempty ⟨p ++ q, by rw [List.length_append]; omega, hne, List.prefix_append _ _⟩

end

/-! ### Copaths -/

section

variable {leaves : List Bool → Option V} {n : ℕ} {nodes : List Bool → Option V}
  {keys : List (List Bool × ℕ)}

theorem besideAt_eq_take {key leaf : List Bool} {k : ℕ} (hkey : k < key.length) (hleaf : k < leaf.length)
    (heq : key.take k = leaf.take k) (hne : key.take (k + 1) ≠ leaf.take (k + 1)) :
    besideAt key k = leaf.take (k + 1) := by
  rw [List.take_succ_eq_append_getElem hkey, List.take_succ_eq_append_getElem hleaf, heq] at hne
  rw [besideAt, heq, List.take_succ_eq_append_getElem hleaf, List.getD_eq_getElem _ _ hkey]
  have hbit : key[k] ≠ leaf[k] := fun h => hne (by rw [h])
  congr 2
  revert hbit
  cases key[k] <;> cases leaf[k] <;> simp

/-- **The copaths of absent keys cover the tree.**  Each key comes with the depth from
which on its path is empty, and the nodes beside its path above are known where no other
key lies below. -/
theorem covers_of_copaths (hlen : ∀ key ∈ keys, key.1.length = n)
    (hempty : ∀ key ∈ keys, ∀ leaf, ¬ LeafBelow leaves n (key.1.take key.2) leaf)
    (hnode : ∀ key ∈ keys, ∀ k < key.2, (∀ other ∈ keys, ¬ besideAt key.1 k <+: other.1) →
      nodes (besideAt key.1 k) ≠ none) {p : List Bool} (hp : ∃ key ∈ keys, p <+: key.1) :
    Covers leaves n nodes p := by
  intro leaf hleaf
  obtain ⟨m, hm⟩ : ∃ m, p.length + m = n := by
    refine ⟨n - p.length, ?_⟩
    have := hleaf.below.length_le
    have := hleaf.length
    omega
  -- follow the leaf down for as long as a key goes the same way
  induction m generalizing p with
  | zero =>
    obtain ⟨key, hmem, hkey⟩ := hp
    have hpk : p = key.1 := hkey.eq_of_length (by rw [hlen key hmem]; omega)
    have hpl : p = leaf := hleaf.below.eq_of_length (by rw [hleaf.length]; omega)
    refine absurd ⟨hleaf.length, hleaf.ne_none, ?_⟩ (hempty key hmem leaf)
    rw [← hpl, hpk]
    exact List.take_prefix _ _
  | succ m ih =>
    have hlt : p.length < leaf.length := by
      rw [hleaf.length]
      omega
    have hpre := List.prefix_iff_eq_take.1 hleaf.below
    have hsucc : (leaf.take (p.length + 1)).length = p.length + 1 := by
      rw [List.length_take]
      omega
    by_cases hnext : ∃ key ∈ keys, leaf.take (p.length + 1) <+: key.1
    · obtain ⟨k, hk, hnode'⟩ := ih hnext ⟨hleaf.length, hleaf.ne_none, List.take_prefix _ _⟩
        (by rw [hsucc]; omega)
      exact ⟨k, by omega, hnode'⟩
    · obtain ⟨key, hmem, hkey⟩ := hp
      have hkeylen := hlen key hmem
      have hpkey := List.prefix_iff_eq_take.1 hkey
      have hside : besideAt key.1 p.length = leaf.take (p.length + 1) :=
        besideAt_eq_take (by omega) hlt (hpkey.symm.trans hpre) fun h =>
          hnext ⟨key, hmem, by rw [← h]; exact List.take_prefix _ _⟩
      have hdepth : p.length < key.2 := by
        by_contra hge
        refine hempty key hmem leaf ⟨hleaf.length, hleaf.ne_none, List.IsPrefix.trans ?_ hleaf.below⟩
        rw [hpkey]
        exact List.take_prefix_take_left (not_lt.1 hge)
      refine ⟨p.length + 1, Nat.le_succ _, ?_⟩
      rw [← hside]
      refine hnode key hmem _ hdepth fun other hother h => hnext ⟨other, hother, ?_⟩
      rw [← hside]
      exact h

end

end SparseMerkle
