/-
# Navigating the implicit search tree

The entries of a log form a binary search tree that is never built.  The source goes
through it in three ways: by bit operations on ids (`left_child`, `ibst_right_child`),
by skipping the ids beyond the log, and by halving sizes (`ibst_direct_path`).  This file
gives the subtree of an entry as a `Block`, an interval of the log, and shows that the
three describe the same tree.
-/

import KeyTransparency.Tree.DirectPath

namespace KeyTransparency

open InOrder MerkleLog

namespace LogMath

/-- **The subtree of an entry** `node k i` in a log of `n` entries: `size` entries from
the first of its block on, either the whole block or all that the log has of it. -/
structure Block (n k i size : ℕ) : Prop where
  node_le : 2 ^ k ≤ size
  size_lt : size < 2 ^ (k + 1)
  within : i * 2 ^ (k + 1) + size ≤ n
  edge : size = 2 ^ (k + 1) - 1 ∨ i * 2 ^ (k + 1) + size = n

variable {n k i size : ℕ}

theorem Block.root (h₀ : 0 < n) : Block n (Nat.log2 n) 0 n where
  node_le := Nat.log2_self_le (by omega)
  size_lt := Nat.lt_log2_self
  within := by omega
  edge := .inr (by omega)

/-- The level of an entry is the logarithm of the size of its subtree. -/
theorem Block.log2_size (h : Block n k i size) (hn : n < 2 ^ 64) : log2 size = k := by
  have := h.within
  have := h.node_le
  have := Nat.two_pow_pos k
  rw [log2_eq (by omega)]
  exact (Nat.log2_eq_iff (by omega)).2 ⟨h.node_le, h.size_lt⟩

theorem Block.level_lt (h : Block n k i size) (hn : n < 2 ^ 64) : k < 64 := by
  have := h.within
  have := h.node_le
  exact (Nat.pow_lt_pow_iff_right (by omega : 1 < 2)).1 (show 2 ^ k < 2 ^ 64 by omega)

theorem Block.node_lt (h : Block n k i size) : node k i < n := by
  have := h.within
  have := h.node_le
  have := Nat.two_pow_pos k
  rw [node]
  omega

/-- Left of an entry the subtree is complete. -/
theorem Block.left (h : Block n (k + 1) i size) : Block n k (2 * i) (2 ^ (k + 1) - 1) := by
  have := h.within
  have := h.node_le
  have := Nat.two_pow_pos k
  have hp : (2 : ℕ) ^ (k + 1) = 2 * 2 ^ k := by ring
  have e : 2 * i * 2 ^ (k + 1) = i * 2 ^ (k + 1 + 1) := by ring
  exact ⟨by omega, by omega, by omega, .inl rfl⟩

/-- **The right child** is the entry that halving the size comes to. -/
theorem Block.right (h : Block n k i size) (hn : n < 2 ^ 64) (hlt : 2 ^ k < size) :
    ∃ k' i', k' < k ∧ i' * 2 ^ (k' + 1) = node k i + 1 ∧
      ibstRightChild (node k i) n = some (node k' i') ∧ Block n k' i' (size - 2 ^ k) := by
  have hpos := Nat.two_pow_pos k
  have hp : (2 : ℕ) ^ (k + 1) = 2 * 2 ^ k := by ring
  have hsize := h.size_lt
  have hwithin := h.within
  have hnode : node k i + 1 = i * 2 ^ (k + 1) + 2 ^ k := by
    rw [node]
    omega
  generalize hk' : Nat.log2 (size - 2 ^ k) = k'
  obtain ⟨hle, hlt'⟩ := (Nat.log2_eq_iff (show size - 2 ^ k ≠ 0 by omega)).1 hk'
  have hkk : k' < k :=
    (Nat.pow_lt_pow_iff_right (by omega : 1 < 2)).1 (show 2 ^ k' < 2 ^ k by omega)
  have hpos' := Nat.two_pow_pos k'
  -- the block of the child starts right after the entry
  have hlow : (2 * i + 1) * 2 ^ (k - (k' + 1)) * 2 ^ (k' + 1) = node k i + 1 := by
    rw [Nat.mul_assoc, ← pow_add, Nat.sub_add_cancel (by omega), hnode]
    ring
  have hchild : node k i + 2 ^ k' = node k' ((2 * i + 1) * 2 ^ (k - (k' + 1))) := by
    rw [node, node, hlow, node]
    omega
  have hedge := h.edge
  refine ⟨k', (2 * i + 1) * 2 ^ (k - (k' + 1)), hkk, hlow, ?_, hle, hlt', by omega, ?_⟩
  · rw [← hchild]
    refine ibstRightChild_eq (Nat.le_of_lt_succ (h.level_lt hn)) hkk (by omega) fun j hj hjk => ?_
    have hj' := Nat.pow_le_pow_right (show 0 < 2 by omega) (show k' + 1 ≤ j from hj)
    rcases hedge with hfull | hlast
    · have := Nat.pow_le_pow_right (show 0 < 2 by omega) (show j + 1 ≤ k from hjk)
      rw [pow_succ] at this
      omega
    · omega
  · rcases hedge with hfull | hlast
    · -- a complete subtree has complete halves
      have hhalf : k' + 1 = k := by
        by_contra hne
        have := Nat.pow_le_pow_right (show 0 < 2 by omega) (show k' + 1 + 1 ≤ k by omega)
        rw [pow_succ] at this
        omega
      left
      rw [hhalf]
      omega
    · right
      omega

/-- **No right child** where the subtree ends with its entry. -/
theorem Block.no_right (h : Block n k i size) (hn : n < 2 ^ 64) (hsize : size = 2 ^ k) :
    ibstRightChild (node k i) n = none := by
  have hlt := h.level_lt hn
  cases k with
  | zero => rw [ibstRightChild, level_node (by omega), if_pos rfl]
  | succ k =>
    have hp : (2 : ℕ) ^ (k + 1 + 1) = 2 * 2 ^ (k + 1) := by ring
    have hp' : (2 : ℕ) ^ (k + 1) = 2 * 2 ^ k := by ring
    have hpos := Nat.two_pow_pos k
    have hend : n ≤ (2 * i + 1) * 2 ^ (k + 1) := by
      have e : (2 * i + 1) * 2 ^ (k + 1) = i * 2 ^ (k + 1 + 1) + 2 ^ (k + 1) := by ring
      rcases h.edge with hfull | hlast
      · omega
      · omega
    rw [ibstRightChild_node (by omega)]
    -- every block on the way down starts beyond the log
    rcases ibstRightLoop_descends (n := n) (Q := fun k j => n ≤ j * 2 ^ (k + 1))
        (fun {k i} _ hQ => by
          have e : 2 * i * 2 ^ (k + 1) = i * 2 ^ (k + 1 + 1) := by ring
          omega) (show k < 64 by omega) (by omega) hend with
      ⟨k', j', _, _, hnode, hQ⟩ | ⟨hnone, _⟩
    · rw [node] at hnode
      omega
    · exact hnone

/-! ### Going to an entry -/

/-- **The walk to a target**: left where the target is smaller, right where it is larger.
The entries passed, or nothing where an entry has no child on the target's side. -/
def navigate (target n : ℕ) : ℕ → ℕ → Option (List ℕ)
  | 0, _ => none
  | fuel + 1, curr =>
    if target = curr then some []
    else if target < curr then
      if isLeaf curr then none else (navigate target n fuel (leftChild curr)).map (curr :: ·)
    else
      match ibstRightChild curr n with
      | none => none
      | some r => (navigate target n fuel r).map (curr :: ·)

/-- The interval that the loop of `ibst_direct_path` is at when it comes to its target:
`offset` and `curr_size`. -/
def intervalLoop (target : ℕ) : ℕ → ℕ → ℕ → Option (ℕ × ℕ)
  | 0, _, _ => none
  | fuel + 1, currSize, offset =>
    if 0 < currSize then
      let leftSize := 1 <<< log2 currSize - 1
      let rootIdx := offset + leftSize
      if target = rootIdx then some (offset, currSize)
      else if target < rootIdx then intervalLoop target fuel leftSize offset
      else intervalLoop target fuel (currSize - leftSize - 1) (rootIdx + 1)
    else none

/-- The interval of an entry. -/
def interval (target n : ℕ) : Option (ℕ × ℕ) := intervalLoop target 65 n 0

/-- The entries below an entry and the entry itself, in order. -/
def subtree (n : ℕ) : ℕ → ℕ → List ℕ
  | 0, _ => []
  | fuel + 1, x =>
    (if isLeaf x then [] else subtree n fuel (leftChild x)) ++
      x :: (ibstRightChild x n).elim [] (subtree n fuel)

def leftSubtree (n x : ℕ) : List ℕ := if isLeaf x then [] else subtree n 64 (leftChild x)

def rightSubtree (n x : ℕ) : List ℕ := (ibstRightChild x n).elim [] (subtree n 64)

/-- An entry, its right child, and so on. -/
def rightSpine (n : ℕ) : ℕ → ℕ → List ℕ
  | 0, _ => []
  | fuel + 1, x => x :: (ibstRightChild x n).elim [] (rightSpine n fuel)

/-- The entry in the middle of a block, and the sizes left and right of it, as the
size-halving loops compute them. -/
theorem Block.halving (h : Block n k i size) (hn : n < 2 ^ 64) :
    0 < size ∧ 1 <<< log2 size - 1 = 2 ^ k - 1 ∧ i * 2 ^ (k + 1) + (2 ^ k - 1) = node k i ∧
      size - (2 ^ k - 1) - 1 = size - 2 ^ k := by
  have := h.node_le
  have := Nat.two_pow_pos k
  rw [h.log2_size hn, Nat.one_shiftLeft]
  exact ⟨by omega, rfl, rfl, by omega⟩

theorem leftOf_node (k i : ℕ) :
    2 * i * 2 ^ (k + 1) = i * 2 ^ (k + 1 + 1) ∧ i * 2 ^ (k + 1 + 1) + 2 ^ (k + 1) = node (k + 1) i + 1 := by
  have := Nat.two_pow_pos (k + 1)
  refine ⟨by ring, ?_⟩
  rw [node]
  omega

/-! ### One step down -/

/-- A leaf has no right child. -/
theorem rightChild_of_isLeaf (hk : k < 64) (i n : ℕ) :
    (if isLeaf (node k i) then none else ibstRightChild (node k i) n) = ibstRightChild (node k i) n := by
  rw [isLeaf_node, ibstRightChild, level_node hk]
  split_ifs with h₁ h₂ h₃
  · rfl
  · exact absurd (beq_iff_eq.1 h₁) h₂
  · exact absurd (beq_iff_eq.2 h₃) h₁
  · rfl

/-- **The left child** of an entry that is no leaf starts where the entry's block does. -/
theorem Block.leftChild_eq (h : Block n k i size) (hn : n < 2 ^ 64) (hleaf : isLeaf (node k i) = false) :
    ∃ k' i', k' < k ∧ leftChild (node k i) = node k' i' ∧ i' * 2 ^ (k' + 1) = i * 2 ^ (k + 1) ∧
      Block n k' i' (2 ^ k - 1) := by
  have hlevel := h.level_lt hn
  cases k with
  | zero =>
    rw [isLeaf_node] at hleaf
    cases hleaf
  | succ k =>
    exact ⟨k, 2 * i, Nat.lt_succ_self k, leftChild_node (by omega) i, (leftOf_node k i).1, h.left⟩

/-- **The right child**, if there is one, starts after the entry. -/
theorem Block.rightChild_cases (h : Block n k i size) (hn : n < 2 ^ 64) :
    (ibstRightChild (node k i) n = none ∧ size = 2 ^ k) ∨
    ∃ k' i', k' < k ∧ ibstRightChild (node k i) n = some (node k' i') ∧
      i' * 2 ^ (k' + 1) = node k i + 1 ∧ Block n k' i' (size - 2 ^ k) := by
  rcases h.node_le.eq_or_lt with heq | hlt
  · exact .inl ⟨h.no_right hn heq.symm, heq.symm⟩
  · obtain ⟨k', i', hk, hstart, hchild, hright⟩ := h.right hn hlt
    exact .inr ⟨k', i', hk, hchild, hstart, hright⟩

/-- The entry itself has no ancestors below itself. -/
theorem Block.path_self (h : Block n k i size) (hn : n < 2 ^ 64) (fuel : ℕ) :
    ibstDirectPathLoop (node k i) (fuel + 1) size (i * 2 ^ (k + 1)) = [] := by
  obtain ⟨hpos, hleft, hroot, -⟩ := h.halving hn
  rw [ibstDirectPathLoop, if_pos hpos, hleft]
  dsimp only
  rw [hroot, if_pos rfl]

theorem Block.path_left (h : Block n k i size) (hn : n < 2 ^ 64) {x : ℕ} (hx : x < node k i) (fuel : ℕ) :
    ibstDirectPathLoop x (fuel + 1) size (i * 2 ^ (k + 1)) =
      node k i :: ibstDirectPathLoop x fuel (2 ^ k - 1) (i * 2 ^ (k + 1)) := by
  obtain ⟨hpos, hleft, hroot, -⟩ := h.halving hn
  rw [ibstDirectPathLoop, if_pos hpos, hleft]
  dsimp only
  rw [hroot, if_neg (by omega), if_pos hx]

theorem Block.path_right (h : Block n k i size) (hn : n < 2 ^ 64) {x : ℕ} (hx : node k i < x)
    (fuel : ℕ) :
    ibstDirectPathLoop x (fuel + 1) size (i * 2 ^ (k + 1)) =
      node k i :: ibstDirectPathLoop x fuel (size - 2 ^ k) (node k i + 1) := by
  obtain ⟨hpos, hleft, hroot, hright⟩ := h.halving hn
  rw [ibstDirectPathLoop, if_pos hpos, hleft]
  dsimp only
  rw [hroot, hright, if_neg (by omega), if_neg (by omega)]

/-- **A walk goes along the direct path.** -/
theorem Block.navigate_eq (hn : n < 2 ^ 64) (target : ℕ) : ∀ {k i size : ℕ} (fuel fuel' : ℕ),
    Block n k i size → k < fuel → k < fuel' → i * 2 ^ (k + 1) ≤ target →
      target < i * 2 ^ (k + 1) + size →
      navigate target n fuel (node k i) =
        some (ibstDirectPathLoop target fuel' size (i * 2 ^ (k + 1))) := by
  intro k
  induction k using Nat.strong_induction_on with
  | _ k ih =>
    intro i size fuel fuel' h hfuel hfuel' hlow hhigh
    obtain ⟨fuel, rfl⟩ := Nat.exists_eq_succ_of_ne_zero (show fuel ≠ 0 by omega)
    obtain ⟨fuel', rfl⟩ := Nat.exists_eq_succ_of_ne_zero (show fuel' ≠ 0 by omega)
    obtain ⟨hpos, hleft, hroot, hright⟩ := h.halving hn
    rw [navigate, ibstDirectPathLoop, if_pos hpos, hleft]
    dsimp only
    rw [hroot, hright]
    split_ifs with h₁ h₂ h₃
    · rfl
    · -- a leaf has nothing on its left
      rw [isLeaf_node, beq_iff_eq] at h₃
      subst h₃
      rw [node_zero] at h₂
      omega
    · cases k with
      | zero => exact absurd (isLeaf_node 0 i) h₃
      | succ k =>
        obtain ⟨e₁, e₂⟩ := leftOf_node k i
        have := h.level_lt hn
        rw [leftChild_node (by omega), ih k (by omega) fuel fuel' h.left (by omega) (by omega) (by omega)
          (by omega), e₁]
        rfl
    · have := h.node_le
      have hlt : 2 ^ k < size := by omega
      obtain ⟨k', i', hk, hstart, hchild, hblock⟩ := h.right hn hlt
      rw [hchild]
      simp only
      rw [ih k' hk fuel fuel' hblock (by omega) (by omega) (by omega) (by omega), hstart]
      rfl

/-- The interval of an entry is the block of its subtree. -/
theorem Block.interval_eq (hn : n < 2 ^ 64) (target : ℕ) : ∀ {k i size : ℕ} (fuel : ℕ),
    Block n k i size → k < fuel → i * 2 ^ (k + 1) ≤ target → target < i * 2 ^ (k + 1) + size →
      ∃ k' i' size', intervalLoop target fuel size (i * 2 ^ (k + 1)) =
        some (i' * 2 ^ (k' + 1), size') ∧ target = node k' i' ∧ Block n k' i' size' := by
  intro k
  induction k using Nat.strong_induction_on with
  | _ k ih =>
    intro i size fuel h hfuel hlow hhigh
    obtain ⟨fuel, rfl⟩ := Nat.exists_eq_succ_of_ne_zero (show fuel ≠ 0 by omega)
    obtain ⟨hpos, hleft, hroot, hright⟩ := h.halving hn
    rw [intervalLoop, if_pos hpos, hleft]
    dsimp only
    rw [hroot, hright]
    split_ifs with h₁ h₂
    · exact ⟨k, i, size, rfl, h₁, h⟩
    · cases k with
      | zero =>
        rw [node_zero] at h₂
        omega
      | succ k =>
        obtain ⟨e₁, e₂⟩ := leftOf_node k i
        have := ih k (by omega) fuel h.left (by omega) (by omega) (by omega)
        rwa [e₁] at this
    · have := h.node_le
      have hlt : 2 ^ k < size := by omega
      obtain ⟨k', i', hk, hstart, -, hblock⟩ := h.right hn hlt
      have := ih k' hk fuel hblock (by omega) (by omega) (by omega)
      rwa [hstart] at this

theorem subtree_succ (n fuel x : ℕ) : subtree n (fuel + 1) x =
    (if isLeaf x then [] else subtree n fuel (leftChild x)) ++
      x :: (ibstRightChild x n).elim [] (subtree n fuel) := rfl

/-- **The two sides of an entry**, when smaller subtrees hold the entries of their blocks. -/
theorem Block.sides (h : Block n k i size) (hn : n < 2 ^ 64) {below : ℕ → List ℕ}
    (hbelow : ∀ {k' i' size'}, k' < k → Block n k' i' size' →
      below (node k' i') = List.range' (i' * 2 ^ (k' + 1)) size') :
    (if isLeaf (node k i) then [] else below (leftChild (node k i))) =
        List.range' (i * 2 ^ (k + 1)) (2 ^ k - 1) ∧
      (ibstRightChild (node k i) n).elim [] below =
        List.range' (node k i + 1) (size - 2 ^ k) := by
  constructor
  · cases k with
    | zero => rw [isLeaf_node, if_pos (by rfl), pow_zero, Nat.sub_self, List.range'_zero]
    | succ k =>
      have := h.level_lt hn
      obtain ⟨e, -⟩ := leftOf_node k i
      rw [isLeaf_node, if_neg (by simp), leftChild_node (by omega), hbelow (by omega) h.left, e]
  · have := h.node_le
    rcases this.eq_or_lt with heq | hlt
    · rw [h.no_right hn heq.symm, ← heq, Nat.sub_self]
      rfl
    · obtain ⟨k', i', hk, hstart, hchild, hblock⟩ := h.right hn hlt
      rw [hchild, ← hstart]
      exact hbelow hk hblock

theorem range'_around (start a b : ℕ) :
    List.range' start a ++ (start + a) :: List.range' (start + a + 1) b =
      List.range' start (a + 1 + b) := by
  rw [← List.range'_succ, List.range'_append_1, Nat.add_assoc, Nat.add_comm 1 b]

/-- **A subtree** holds the entries of its block. -/
theorem Block.subtree_eq (hn : n < 2 ^ 64) : ∀ {k i size : ℕ} (fuel : ℕ), Block n k i size → k < fuel →
    subtree n fuel (node k i) = List.range' (i * 2 ^ (k + 1)) size := by
  intro k
  induction k using Nat.strong_induction_on with
  | _ k ih =>
    intro i size fuel h hfuel
    obtain ⟨fuel, rfl⟩ := Nat.exists_eq_succ_of_ne_zero (show fuel ≠ 0 by omega)
    obtain ⟨hleft, hright⟩ := h.sides hn fun {k' _ _} hk hblock =>
      ih k' hk fuel hblock (show k' < fuel by omega)
    have := h.node_le
    have hpos := Nat.two_pow_pos k
    have hnode : node k i = i * 2 ^ (k + 1) + (2 ^ k - 1) := rfl
    rw [subtree_succ, hleft, hright, hnode, range'_around]
    congr 1
    omega

/-- **The frontier** is the right spine, and ends with the last entry. -/
theorem Block.frontier_eq (hn : n < 2 ^ 64) : ∀ {k i size : ℕ} (fuel fuel' : ℕ),
    Block n k i size → i * 2 ^ (k + 1) + size = n → k < fuel → k < fuel' →
      node k i :: frontierLoop n fuel (node k i) = rightSpine n fuel' (node k i) ∧
        (rightSpine n fuel' (node k i)).getLast? = some (n - 1) := by
  intro k
  induction k using Nat.strong_induction_on with
  | _ k ih =>
    intro i size fuel fuel' h hend hfuel hfuel'
    obtain ⟨fuel, rfl⟩ := Nat.exists_eq_succ_of_ne_zero (show fuel ≠ 0 by omega)
    obtain ⟨fuel', rfl⟩ := Nat.exists_eq_succ_of_ne_zero (show fuel' ≠ 0 by omega)
    have hle := h.node_le
    have hpos := Nat.two_pow_pos k
    have hnode : node k i = i * 2 ^ (k + 1) + (2 ^ k - 1) := rfl
    rw [rightSpine]
    rcases hle.eq_or_lt with heq | hlt
    · have hlast : node k i = n - 1 := by omega
      rw [h.no_right hn heq.symm, hlast, frontierLoop_last]
      exact ⟨rfl, rfl⟩
    · obtain ⟨k', i', hk, hstart, hchild, hblock⟩ := h.right hn hlt
      obtain ⟨hspine, hlast⟩ := ih k' hk fuel fuel' hblock (by omega) (by omega) (by omega)
      rw [frontierLoop, if_neg (by omega), hchild]
      dsimp only [Option.elim]
      rw [hspine, List.getLast?_cons, hlast]
      exact ⟨rfl, rfl⟩

/-- Going left loses a level. -/
theorem level_leftChild {x : ℕ} (hx : x < 2 ^ 63) (hl : level x ≠ 0) : level (leftChild x) < level x := by
  obtain ⟨k, i, rfl⟩ := exists_eq_node x
  have hk : k < 64 := by
    have hnode : node k i = i * 2 ^ (k + 1) + (2 ^ k - 1) := rfl
    have := Nat.two_pow_pos k
    have := (Nat.pow_le_pow_iff_right (by omega : 1 < 2)).1 (show 2 ^ k ≤ 2 ^ 63 by omega)
    omega
  rw [level_node hk] at hl ⊢
  obtain ⟨k, rfl⟩ := Nat.exists_eq_succ_of_ne_zero hl
  rw [Nat.succ_eq_add_one, leftChild_node (by omega), level_node (by omega)]
  omega

/-- **One tree, three ways through it.** -/
structure Navigable (n : ℕ) : Prop where
  /-- Walking from the root reaches every entry, along its direct path.  However many turns
  the loops are given, they take no more. -/
  reaches : ∀ target < n, ∀ fuel ≥ 64,
    navigate target n fuel (root n) = some (ibstDirectPath target n).reverse ∧
      ibstDirectPathLoop target fuel n 0 = (ibstDirectPath target n).reverse
  inside : ∀ target < n, ∀ e ∈ ibstDirectPath target n, e < n
  /-- The two sides of an entry are the smaller and the larger positions of its interval. -/
  ordered : ∀ x < n, ∃ offset size, interval x n = some (offset, size) ∧
    offset ≤ x ∧ x < offset + size ∧ offset + size ≤ n ∧
    leftSubtree n x = List.range' offset (x - offset) ∧
    rightSubtree n x = List.range' (x + 1) (offset + size - (x + 1))
  whole : interval (root n) n = some (0, n)
  /-- The safeguard of `get_frontier` never stops it. -/
  frontier : ∀ fuel ≥ 64, getFrontier n = rightSpine n fuel (root n) ∧
    root n :: frontierLoop n fuel (root n) = getFrontier n
  last : (getFrontier n).getLast? = some (n - 1)
  /-- The loops that go left end: every turn loses a level. -/
  descends : ∀ x < 2 ^ 63, level x ≠ 0 → level (leftChild x) < level x
  /-- So does the loop of `ibst_direct_path`: every turn loses an entry. -/
  halves : ∀ size < 2 ^ 63, 0 < size →
    1 <<< log2 size - 1 < size ∧ size - (1 <<< log2 size - 1) - 1 < size

/-- **Navigation is consistent** in every log. -/
theorem navigation_consistent (h₀ : 0 < n) (hn : n < 2 ^ 62) : Navigable n := by
  have hn' : n < 2 ^ 64 := by omega
  have hblock := Block.root h₀
  have hroot : root n = node (Nat.log2 n) 0 := root_eq h₀ (by omega)
  have hlevel := hblock.level_lt hn'
  have hstart : 0 * 2 ^ (Nat.log2 n + 1) = 0 := Nat.zero_mul _
  have hdirect : ∀ target < n, ∀ fuel ≥ 64,
      navigate target n fuel (root n) = some (ibstDirectPath target n).reverse ∧
        ibstDirectPathLoop target fuel n 0 = (ibstDirectPath target n).reverse := by
    intro target htarget fuel hfuel
    have h₁ := Block.navigate_eq hn' target fuel 65 hblock (by omega) (by omega)
      (by omega) (by omega)
    have h₂ := Block.navigate_eq hn' target fuel fuel hblock (by omega) (by omega)
      (by omega) (by omega)
    rw [hstart] at h₁ h₂
    rw [hroot, ibstDirectPath, List.reverse_reverse]
    exact ⟨h₁, Option.some.inj (h₂.symm.trans h₁)⟩
  have hfrontier : ∀ fuel ≥ 64, getFrontier n = rightSpine n fuel (root n) ∧
      root n :: frontierLoop n fuel (root n) = getFrontier n := by
    intro fuel hfuel
    have h₁ := (Block.frontier_eq hn' 100 fuel hblock (by omega) (by omega) (by omega)).1
    have h₂ := (Block.frontier_eq hn' fuel fuel hblock (by omega) (by omega) (by omega)).1
    rw [getFrontier, if_neg (by omega), hroot]
    exact ⟨h₁, h₂.trans h₁.symm⟩
  exact {
    reaches := hdirect
    inside := fun target _ e he => ibstDirectPath_lt (by omega) he
    ordered := by
      intro x hx
      obtain ⟨k, i, size, hinterval, rfl, h⟩ := Block.interval_eq hn' x 65 hblock
        (by omega) (by omega) (by omega)
      rw [hstart] at hinterval
      have hk := h.level_lt hn'
      obtain ⟨hleft, hright⟩ := h.sides hn' fun {k' _ _} hk' hblock' =>
        Block.subtree_eq hn' 64 hblock' (show k' < 64 by omega)
      have hnode : node k i = i * 2 ^ (k + 1) + (2 ^ k - 1) := rfl
      have := h.node_le
      have := Nat.two_pow_pos k
      refine ⟨_, _, hinterval, by omega, by omega, h.within, ?_, ?_⟩
      · rw [leftSubtree, hleft]
        congr 1
        omega
      · rw [rightSubtree, hright]
        congr 1
        omega
    whole := by
      obtain ⟨hpos, hleft, hmid, -⟩ := hblock.halving hn'
      rw [hstart] at hmid
      rw [interval, intervalLoop, if_pos hpos, hleft]
      dsimp only
      rw [hmid, if_pos hroot]
    frontier := hfrontier
    last := getLast?_getFrontier h₀ hn.le
    descends := fun x hx hl => level_leftChild hx hl
    halves := by
      intro size hsize hpos
      have := Nat.log2_self_le (show size ≠ 0 by omega)
      have := Nat.two_pow_pos (Nat.log2 size)
      rw [log2_eq (by omega), Nat.one_shiftLeft]
      omega
  }

/-- A log of six entries, the last two of them right of a gap. -/
theorem navigation_consistent_six : Navigable 6 ∧ getFrontier 6 = [3, 5] ∧
    navigate 4 6 64 (root 6) = some [3, 5] :=
  ⟨navigation_consistent (by decide) (by decide), by decide, by decide⟩

end LogMath

end KeyTransparency
