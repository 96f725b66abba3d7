/-
# Direct paths

The ancestors of an entry in the implicit binary search tree, from
`src/tree/log_math.rs`, and what the walks of the server and of its verifier have in
common: the part of a direct path that contact monitoring climbs, and where a walk
goes next.
-/

import KeyTransparency.Tree.Frontier

namespace KeyTransparency

open InOrder

namespace LogMath

/-- The loop of `ibst_direct_path`, from the root down. -/
def ibstDirectPathLoop (target : ℕ) : ℕ → ℕ → ℕ → List ℕ
  | 0, _, _ => []
  | fuel + 1, currSize, offset =>
    if 0 < currSize then
      let leftSize := 1 <<< log2 currSize - 1
      let rootIdx := offset + leftSize
      if target = rootIdx then []
      else if target < rootIdx then rootIdx :: ibstDirectPathLoop target fuel leftSize offset
      else rootIdx :: ibstDirectPathLoop target fuel (currSize - leftSize - 1) (rootIdx + 1)
    else []

/-- The ancestors of an entry, from the entry up. -/
def ibstDirectPath (target n : ℕ) : List ℕ := (ibstDirectPathLoop target 65 n 0).reverse

/-- The start entry, then its ancestors to its left. -/
def ownerInitList (start n : ℕ) : List ℕ :=
  start :: (ibstDirectPath start n).filter (· < start)

/-- The ancestors right of an entry, up to the first distinguished one. -/
def contactList (pos treeSize : ℕ) (ancestorDist : ℕ → Bool) : List ℕ :=
  let list := ((ibstDirectPath pos treeSize).filter (pos < ·)).mergeSort (· ≤ ·)
  list.take ((list.findIdx? ancestorDist).elim list.length (· + 1))

/-! ### Inside the log -/

theorem root_lt {n : ℕ} (h₀ : 0 < n) (hn : n < 2 ^ 64) : root n < n := by
  have := Nat.log2_self_le (show n ≠ 0 by omega)
  have := Nat.two_pow_pos (Nat.log2 n)
  have := node_add_one (Nat.log2 n) 0
  rw [root_eq h₀ hn]
  omega

theorem leftChild_le {x : ℕ} (hx : x + 1 < 2 ^ 64) : leftChild x ≤ x := by
  obtain ⟨k, i, rfl⟩ := exists_eq_node x
  have hnode := node_add_one k i
  have hk : 2 ^ k < 2 ^ 64 := by
    have := Nat.le_mul_of_pos_left (2 ^ k) (show 0 < 2 * i + 1 by omega)
    omega
  have hk := (Nat.pow_lt_pow_iff_right (by omega : 1 < 2)).1 hk
  cases k with
  | zero => rw [leftChild, level_node (by omega), if_pos rfl]
  | succ k =>
    have := node_add_one k (2 * i)
    have := Nat.two_pow_pos k
    have e : (2 * i + 1) * 2 ^ (k + 1) = (2 * (2 * i) + 1) * 2 ^ k + 2 ^ k := by ring
    rw [leftChild_node (by omega)]
    omega

/-- A child that the source takes is an entry of the log. -/
theorem lt_of_rightChild {node n rc : ℕ}
    (h : (if isLeaf node then none else ibstRightChild node n) = some rc) : rc < n := by
  split_ifs at h
  exact ibstRightChild_lt h

theorem ibstDirectPathLoop_lt {target e : ℕ} : ∀ {fuel size offset : ℕ}, size < 2 ^ 64 →
    e ∈ ibstDirectPathLoop target fuel size offset → e < offset + size
  | 0, _, _, _, h => by simp [ibstDirectPathLoop] at h
  | fuel + 1, size, offset, hsize, h => by
    rw [ibstDirectPathLoop] at h
    by_cases hpos : 0 < size
    · have := Nat.log2_self_le (show size ≠ 0 by omega)
      have := Nat.two_pow_pos (Nat.log2 size)
      rw [if_pos hpos, log2_eq (by omega), Nat.one_shiftLeft] at h
      dsimp only at h
      split_ifs at h
      · simp at h
      · rcases List.mem_cons.1 h with rfl | h
        · omega
        · have := ibstDirectPathLoop_lt (by omega) h
          omega
      · rcases List.mem_cons.1 h with rfl | h
        · omega
        · have := ibstDirectPathLoop_lt (by omega) h
          omega
    · simp [hpos] at h

theorem ibstDirectPath_lt {target n e : ℕ} (hn : n < 2 ^ 64) (h : e ∈ ibstDirectPath target n) :
    e < n := by
  have := ibstDirectPathLoop_lt hn (List.mem_reverse.1 h)
  omega

theorem contactList_lt {pos n e : ℕ} {ancestorDist : ℕ → Bool} (hn : n < 2 ^ 64)
    (h : e ∈ contactList pos n ancestorDist) : e < n := by
  have h := (List.mergeSort_perm _ _).mem_iff.1 (List.mem_of_mem_take h)
  exact ibstDirectPath_lt hn (List.mem_filter.1 h).1

theorem ownerInitList_lt {start n e : ℕ} (hn : n < 2 ^ 64) (hstart : start < n)
    (h : e ∈ ownerInitList start n) : e < n := by
  rcases List.mem_cons.1 h with rfl | h
  · exact hstart
  · exact ibstDirectPath_lt hn (List.mem_filter.1 h).1

end LogMath

/-- Where a walk over the log goes next. -/
inductive Walk
  | goto (entry : ℕ)
  | stop
  | terminal (entry : ℕ)
deriving DecidableEq, Repr

end KeyTransparency
