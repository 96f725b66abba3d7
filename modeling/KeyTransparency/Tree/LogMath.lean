/-
# Node arithmetic of the log tree

The functions of `src/tree/log_math.rs` on node ids, as the source computes them,
and what they are on the coordinates of `InOrder.node`: a Merkle node id is
`node k i`, the node at level `k` covering the leaves `i 2^k, …, (i+1) 2^k - 1`.

Ids are 64-bit in the source.  Levels up to 62 are the ones on which `parent`
works; the level loops are bounded by the width.
-/

import KeyTransparency.Library.InOrder
import KeyTransparency.Library.MerkleLog.Peaks
import KeyTransparency.Fault

namespace KeyTransparency

open InOrder

namespace LogMath

/-! ### Levels and children -/

def isLeaf (nodeId : ℕ) : Bool := nodeId &&& 1 == 0

/-- `u64::trailing_ones` on words of the given width. -/
def trailingOnes : ℕ → ℕ → ℕ
  | 0, _ => 0
  | w + 1, x => if x % 2 = 1 then trailingOnes w (x / 2) + 1 else 0

def level (nodeId : ℕ) : ℕ := if isLeaf nodeId then 0 else trailingOnes 64 nodeId

/-- `u64::leading_zeros`. -/
def leadingZeros (n : ℕ) : ℕ := if n = 0 then 64 else 63 - Nat.log2 n

def log2 (n : ℕ) : ℕ := if n = 0 then 0 else 63 - leadingZeros n

/-- The root of the implicit binary search tree over `n` log entries. -/
def root (n : ℕ) : ℕ := if n = 0 then 0 else 1 <<< log2 n - 1

/-- The Merkle node id of the log tree root over `n` leaves. -/
def merkleRoot (n : ℕ) : ℕ := if n ≤ 1 then 0 else 1 <<< (64 - leadingZeros (n - 1)) - 1

def leftChild (x : ℕ) : ℕ := if level x = 0 then x else x ^^^ 1 <<< (level x - 1)

/-- The loop of `leftmost_leaf_index`, which goes left until it is at a leaf. -/
def leftmostLeafLoop : ℕ → ℕ → ℕ
  | 0, x => x
  | fuel + 1, x => if isLeaf x then x else leftmostLeafLoop fuel (x ^^^ 1 <<< (level x - 1))

def leftmostLeafIndex (x : ℕ) : ℕ := leftmostLeafLoop 64 x / 2

/-- The loop of `right_child`: goes left from `r` until a leaf of the log is
below, and collapses to the left child of `x` when there is none. -/
def rightChildLoop (x n : ℕ) : ℕ → ℕ → ℕ
  | 0, r => r
  | fuel + 1, r =>
    if n ≤ leftmostLeafIndex r then
      if isLeaf r then leftChild x else rightChildLoop x n fuel (leftChild r)
    else r

def rightChild (x n : ℕ) : Result ℕ :=
  if level x = 0 then .error (.panic "leaf node has no children")
  else .ok (rightChildLoop x n 65 (x ^^^ 3 <<< (level x - 1)))

/-- The parent of a node.  The tree size is ignored. -/
def parent (nodeId _treeSize : ℕ) : ℕ :=
  if 62 ≤ level nodeId then 0
  else if nodeId >>> (level nodeId + 1) &&& 1 = 1 then nodeId - 1 <<< level nodeId
  else nodeId + 1 <<< level nodeId

theorem isLeaf_node (k i : ℕ) : isLeaf (node k i) = (k == 0) := by
  cases k with
  | zero => simp [isLeaf, Nat.and_one_is_mod]
  | succ k => simp [isLeaf, Nat.and_one_is_mod, node_succ, Nat.add_mod]

theorem trailingOnes_node {w : ℕ} :
    ∀ {k : ℕ}, k ≤ w → ∀ i, trailingOnes w (node k i) = if k < w then k else w := by
  induction w with
  | zero =>
    intro k hk i
    obtain rfl := Nat.le_zero.1 hk
    rfl
  | succ w ih =>
    intro k hk i
    cases k with
    | zero => simp [trailingOnes]
    | succ k =>
      have h₁ : node (k + 1) i % 2 = 1 := by rw [node_succ]; omega
      have h₂ : node (k + 1) i / 2 = node k i := by rw [node_succ]; omega
      rw [trailingOnes, if_pos h₁, h₂, ih (by omega)]
      split_ifs <;> omega

@[simp] theorem level_node {k : ℕ} (hk : k < 64) (i : ℕ) : level (node k i) = k := by
  rw [level, isLeaf_node, trailingOnes_node hk.le, if_pos hk]
  cases k <;> simp

@[simp] theorem leftChild_node {k : ℕ} (hk : k < 63) (i : ℕ) :
    leftChild (node (k + 1) i) = node k (2 * i) := by
  rw [leftChild, level_node (by omega), if_neg (by omega), Nat.add_sub_cancel, node_xor_left]

theorem leftmostLeafLoop_node {fuel : ℕ} :
    ∀ {k : ℕ}, k ≤ fuel → k < 64 → ∀ i, leftmostLeafLoop fuel (node k i) = node 0 (i * 2 ^ k) := by
  induction fuel with
  | zero =>
    intro k hk _ i
    obtain rfl := Nat.le_zero.1 hk
    simp [leftmostLeafLoop]
  | succ fuel ih =>
    intro k hk hk' i
    cases k with
    | zero => simp [leftmostLeafLoop, isLeaf]
    | succ k =>
      rw [leftmostLeafLoop, isLeaf_node, level_node hk', Nat.add_sub_cancel, node_xor_left,
        ih (by omega) (by omega)]
      simp only [Nat.add_eq_zero_iff, beq_iff_eq]
      rw [if_neg (by omega)]
      ring_nf

theorem leftmostLeafIndex_node {k : ℕ} (hk : k < 64) (i : ℕ) :
    leftmostLeafIndex (node k i) = i * 2 ^ k := by
  rw [leftmostLeafIndex, leftmostLeafLoop_node hk.le hk, node_zero]
  omega

private theorem rightChildLoop_of_lt {x n r fuel : ℕ} (h : leftmostLeafIndex r < n) :
    rightChildLoop x n (fuel + 1) r = r := by
  rw [rightChildLoop, if_neg (by omega)]

private theorem rightChildLoop_of_le {x n fuel : ℕ} :
    ∀ {k i : ℕ}, k < fuel → k < 64 → n ≤ i * 2 ^ k →
      rightChildLoop x n fuel (node k i) = leftChild x := by
  induction fuel with
  | zero => intro k i hk; omega
  | succ fuel ih =>
    intro k i hk hk' hn
    rw [rightChildLoop, leftmostLeafIndex_node hk', if_pos hn, isLeaf_node]
    cases k with
    | zero => simp
    | succ k =>
      have e : 2 * i * 2 ^ k = i * 2 ^ (k + 1) := by ring
      rw [leftChild_node (by omega), ih (by omega) (by omega) (by omega)]
      simp

/-- **The right child**, when it holds a leaf of the log, and the left child
otherwise. -/
theorem rightChild_node {k : ℕ} (hk : k < 63) (i n : ℕ) :
    rightChild (node (k + 1) i) n =
      .ok (if (2 * i + 1) * 2 ^ k < n then node k (2 * i + 1) else node k (2 * i)) := by
  rw [rightChild, level_node (by omega), if_neg (by omega), Nat.add_sub_cancel, node_xor_right]
  split_ifs with h
  · rw [rightChildLoop_of_lt (by rwa [leftmostLeafIndex_node (by omega)])]
  · rw [rightChildLoop_of_le (by omega) (by omega) (by omega), leftChild_node hk]

@[simp] theorem parent_node {k : ℕ} (hk : k < 62) (i n : ℕ) :
    parent (node k i) n = node (k + 1) (i / 2) := by
  rw [parent, level_node (by omega), if_neg (by omega), node_shiftRight, Nat.and_one_is_mod]
  rcases Nat.even_or_odd' i with ⟨j, rfl | rfl⟩
  · rw [if_neg (by omega), node_even_index, Nat.mul_div_cancel_left _ (by omega)]
  · rw [if_pos (by omega), node_odd_index, show (2 * j + 1) / 2 = j by omega]

/-! ### Roots -/

theorem log2_eq {n : ℕ} (hn : n < 2 ^ 64) : log2 n = Nat.log2 n := by
  unfold log2 leadingZeros
  split_ifs with h
  · simp [h]
  · have := (Nat.log2_lt h).2 hn
    omega

theorem root_eq {n : ℕ} (h₀ : 0 < n) (hn : n < 2 ^ 64) : root n = node (Nat.log2 n) 0 := by
  rw [root, if_neg (by omega), log2_eq hn, Nat.one_shiftLeft, node]
  omega

/-- **The root of the log tree** is the lowest node covering all leaves. -/
theorem merkleRoot_eq {n : ℕ} (hn : n < 2 ^ 64) :
    merkleRoot n = node (MerkleLog.height n) 0 := by
  unfold merkleRoot MerkleLog.height leadingZeros
  split_ifs with h₁ h₂
  · simp
  · omega
  · have := (Nat.log2_lt h₂).2 (show n - 1 < 2 ^ 64 by omega)
    rw [Nat.one_shiftLeft, node, show 64 - (63 - Nat.log2 (n - 1)) = Nat.log2 (n - 1) + 1 by omega]
    omega

/-- The loop of `get_roots`: the ids of the maximal complete subtrees. -/
def getRootsLoop : ℕ → ℕ → ℕ → List ℕ
  | 0, _, _ => []
  | fuel + 1, offset, n =>
    if 0 < n then
      (root (1 <<< log2 n) + offset * 2) ::
        getRootsLoop fuel (offset + 1 <<< log2 n) (n - 1 <<< log2 n)
    else []

def getRoots (n : ℕ) : List ℕ := getRootsLoop 64 0 n

theorem log2_two_pow {k : ℕ} (hk : k < 64) : log2 (2 ^ k) = k := by
  rw [log2_eq (Nat.pow_lt_pow_right (by omega) hk), Nat.log2_two_pow]

theorem root_two_pow {k : ℕ} (hk : k < 64) : root (2 ^ k) = node k 0 := by
  rw [root_eq (Nat.two_pow_pos k) (Nat.pow_lt_pow_right (by omega) hk), Nat.log2_two_pow]

theorem node_add (k i : ℕ) : node k 0 + i * 2 ^ k * 2 = node k i := by
  simp only [node, pow_succ]
  ring_nf

theorem getRootsLoop_zero (fuel offset : ℕ) : getRootsLoop fuel offset 0 = [] := by
  cases fuel <;> simp [getRootsLoop]

theorem getRootsLoop_eq {k : ℕ} :
    ∀ {fuel i m n : ℕ}, k < fuel → k < 64 → m = i * 2 ^ k + n → 0 < n → n ≤ 2 ^ k →
      getRootsLoop fuel (i * 2 ^ k) n =
        (MerkleLog.peaksFrom m k i).map fun c => node c.1 c.2 := by
  have full : ∀ {k fuel i m : ℕ}, k < fuel → k < 64 → m = (i + 1) * 2 ^ k →
      getRootsLoop fuel (i * 2 ^ k) (2 ^ k) =
        (MerkleLog.peaksFrom m k i).map fun c => node c.1 c.2 := by
    intro k fuel i m hk hk' hm
    obtain ⟨fuel, rfl⟩ := Nat.exists_eq_succ_of_ne_zero (show fuel ≠ 0 by omega)
    rw [getRootsLoop, if_pos (Nat.two_pow_pos k), log2_two_pow hk', Nat.one_shiftLeft,
      root_two_pow hk', node_add, Nat.sub_self, getRootsLoop_zero,
      MerkleLog.peaksFrom_of_complete hm.ge]
    rfl
  induction k with
  | zero =>
    intro fuel i m n hk hk' hm hn₀ hn
    obtain rfl : n = 2 ^ 0 := by omega
    exact full hk hk' (by omega)
  | succ k ih =>
    intro fuel i m n hk hk' hm hn₀ hn
    obtain ⟨e₀, e₁, e₂, e₃⟩ := MerkleLog.block_halves k i
    have hpow : 2 ^ (k + 1) = 2 * 2 ^ k := by ring
    rcases hn.eq_or_lt with rfl | hlt
    · exact full hk hk' (by omega)
    rw [MerkleLog.peaksFrom, if_neg (by omega)]
    by_cases hr : 2 ^ k < n
    · have hlog : Nat.log2 n = k := (Nat.log2_eq_iff (by omega)).2 ⟨hr.le, hlt⟩
      obtain ⟨fuel, rfl⟩ := Nat.exists_eq_succ_of_ne_zero (show fuel ≠ 0 by omega)
      have hn64 : n < 2 ^ 64 := hlt.trans (Nat.pow_lt_pow_right (by omega) hk')
      rw [getRootsLoop, if_pos hn₀, log2_eq hn64, hlog, Nat.one_shiftLeft, root_two_pow (by omega),
        if_pos (by omega), List.map_cons, ← e₀, node_add, show 2 * i * 2 ^ k + 2 ^ k =
          (2 * i + 1) * 2 ^ k by ring, ih (m := m) (by omega) (by omega) (by omega) (by omega)
          (by omega)]
    · rw [if_neg (by omega), ← e₀]
      exact ih hk.le (by omega) (by omega) hn₀ (by omega)

/-- **The ids of `get_roots`** are those of the peaks. -/
theorem getRoots_eq {n : ℕ} (hn : n ≤ 2 ^ 62) :
    getRoots n = (MerkleLog.peaks n).map fun c => node c.1 c.2 := by
  rcases Nat.eq_zero_or_pos n with rfl | h
  · simp [getRoots, getRootsLoop, MerkleLog.peaks, MerkleLog.peaksFrom, MerkleLog.height]
  · have hh := MerkleLog.height_le_of_le_two_pow hn
    have := MerkleLog.le_two_pow_height n
    have := getRootsLoop_eq (show MerkleLog.height n < 64 by omega) (by omega)
      (show n = 0 * 2 ^ MerkleLog.height n + n by omega) h this
    rwa [Nat.zero_mul] at this

/-! ### Consistency proofs -/

/-- `sub_proof`. -/
def subProof : ℕ → ℕ → ℕ → Bool → Result (List ℕ)
  | 0, _, _, _ => .error .diverge
  | fuel + 1, m, n, b =>
    if m = n then .ok (if b then [] else [root m])
    else
      let k := if 1 <<< log2 n = n then 1 <<< log2 n / 2 else 1 <<< log2 n
      if m ≤ k then do
        let proof ← subProof fuel m k b
        let right ← rightChild (root n) n
        return proof ++ [right]
      else do
        let proof ← subProof fuel (m - k) (n - k) false
        return leftChild (root n) :: proof.map (· + 2 * k)

def consistencyProof (m n : ℕ) : Result (List ℕ) :=
  if m = 0 ∨ n ≤ m then .ok [] else subProof 128 m n true

/-- An id of a node of the log tree that covers a leaf and no more leaves than
there are. -/
def InLog (n id : ℕ) : Prop := ∃ k i, id = node k i ∧ 2 ^ k ≤ n ∧ i * 2 ^ k < n

theorem InLog.mono {n n' id : ℕ} (h : InLog n id) (hn : n ≤ n') : InLog n' id := by
  obtain ⟨k, i, rfl, h₁, h₂⟩ := h
  exact ⟨k, i, rfl, h₁.trans hn, h₂.trans_le hn⟩

theorem inLog_root {n : ℕ} (h₀ : 0 < n) (hn : n < 2 ^ 64) : InLog n (root n) :=
  ⟨_, 0, root_eq h₀ hn, Nat.log2_self_le (by omega), by omega⟩

theorem InLog.shift {n j id : ℕ} (h : InLog n id) (hn : n ≤ 2 ^ j) :
    InLog (n + 2 ^ j) (id + 2 * 2 ^ j) := by
  obtain ⟨k, i, rfl, h₁, h₂⟩ := h
  have hkj : k ≤ j := (Nat.pow_le_pow_iff_right (by omega : 1 < 2)).1 (h₁.trans hn)
  have e : 2 ^ (j - k) * 2 ^ k = 2 ^ j := by rw [← pow_add, Nat.sub_add_cancel hkj]
  refine ⟨k, i + 2 ^ (j - k), ?_, by omega, ?_⟩
  · rw [← e]
    simp only [node, pow_succ]
    ring_nf
  · rw [Nat.add_mul, e]
    omega

/-- The split of `sub_proof`: the largest power of two below `n`. -/
theorem subProof_split {n : ℕ} (h₁ : 1 < n) (hn : n ≤ 2 ^ 62) :
    ∃ j, (if 1 <<< log2 n = n then 1 <<< log2 n / 2 else 1 <<< log2 n) = 2 ^ j ∧
      2 ^ j < n ∧ n ≤ 2 ^ (j + 1) ∧ j < MerkleLog.height n ∧ j ≤ 61 := by
  have hlog : log2 n = Nat.log2 n := log2_eq (by omega)
  have hle := Nat.log2_self_le (show n ≠ 0 by omega)
  have hlt : n < 2 ^ (Nat.log2 n + 1) := Nat.lt_log2_self
  rw [hlog, Nat.one_shiftLeft]
  have hheight := MerkleLog.le_two_pow_height n
  have hj : ∀ j, 2 ^ j < n → j < MerkleLog.height n := fun j h =>
    (Nat.pow_lt_pow_iff_right (by omega : 1 < 2)).1 (h.trans_le hheight)
  have hh := MerkleLog.height_le_of_le_two_pow hn
  split_ifs with he
  · obtain ⟨j, hj'⟩ : ∃ j, Nat.log2 n = j + 1 :=
      Nat.exists_eq_succ_of_ne_zero (by rintro h; rw [h] at he; omega)
    rw [hj'] at he ⊢
    have hp : (2 : ℕ) ^ (j + 1) = 2 * 2 ^ j := by ring
    have hlt' : 2 ^ j < n := by omega
    have := hj j hlt'
    exact ⟨j, by omega, hlt', by omega, this, by omega⟩
  · have := hj _ (show 2 ^ Nat.log2 n < n by omega)
    exact ⟨_, rfl, by omega, hlt.le, this, by omega⟩

/-- **The ids of a consistency proof** are nodes of the log. -/
theorem subProof_eq_ok {fuel : ℕ} :
    ∀ {m n : ℕ} {b : Bool}, 0 < m → m ≤ n → n ≤ 2 ^ 62 → MerkleLog.height n < fuel →
      ∃ ids, subProof fuel m n b = .ok ids ∧ ∀ id ∈ ids, InLog n id := by
  induction fuel with
  | zero => intro m n b _ _ _ h; omega
  | succ fuel ih =>
    intro m n b hm hmn hn hfuel
    rw [subProof]
    by_cases he : m = n
    · subst he
      rw [if_pos rfl]
      refine ⟨_, rfl, fun id hid => ?_⟩
      cases b
      · rw [List.mem_singleton.1 hid]
        exact inLog_root hm (by omega)
      · simp at hid
    rw [if_neg he]
    obtain ⟨j, hk, hjn, hnj, hjh, hj⟩ := subProof_split (by omega : 1 < n) hn
    have hp : (2 : ℕ) ^ (j + 1) = 2 * 2 ^ j := by ring
    have hheight : MerkleLog.height (2 ^ j) ≤ j := MerkleLog.height_le_of_le_two_pow le_rfl
    -- the root of the search tree has two children in the log
    obtain ⟨l, hl⟩ : ∃ l, Nat.log2 n = l + 1 := Nat.exists_eq_succ_of_ne_zero (fun h => by
      have : n < 2 ^ (Nat.log2 n + 1) := Nat.lt_log2_self
      rw [h] at this
      omega)
    have hl62 : l + 1 ≤ 62 := by
      have := Nat.log2_self_le (show n ≠ 0 by omega)
      rw [hl] at this
      exact (Nat.pow_le_pow_iff_right (by omega : 1 < 2)).1 (this.trans hn)
    have hroot : root n = node (l + 1) 0 := by rw [root_eq (by omega) (by omega), hl]
    have hln : 2 ^ (l + 1) ≤ n := by
      have := Nat.log2_self_le (show n ≠ 0 by omega)
      rwa [hl] at this
    have hlp : (2 : ℕ) ^ (l + 1) = 2 * 2 ^ l := by ring
    have hlpos := Nat.two_pow_pos l
    have hright : rightChild (root n) n = .ok (node l 1) := by
      rw [hroot, rightChild_node (by omega), if_pos (by omega)]
    have hleft : leftChild (root n) = node l 0 := by rw [hroot, leftChild_node (by omega)]
    simp only [hk, hright, hleft]
    by_cases hmk : m ≤ 2 ^ j
    · obtain ⟨ids, h₁, h₂⟩ := @ih m (2 ^ j) b hm hmk (by omega) (by omega)
      rw [if_pos hmk, h₁]
      refine ⟨_, rfl, fun id hid => ?_⟩
      rcases List.mem_append.1 hid with hid | hid
      · exact (h₂ id hid).mono hjn.le
      · rw [List.mem_singleton.1 hid]
        exact ⟨l, 1, rfl, by omega, by omega⟩
    · have hsub : MerkleLog.height (n - 2 ^ j) ≤ j :=
        MerkleLog.height_le_of_le_two_pow (by omega)
      obtain ⟨ids, h₁, h₂⟩ := @ih (m - 2 ^ j) (n - 2 ^ j) false (by omega) (by omega) (by omega)
        (by omega)
      rw [if_neg hmk, h₁]
      refine ⟨_, rfl, fun id hid => ?_⟩
      rcases List.mem_cons.1 hid with rfl | hid
      · exact ⟨l, 0, rfl, by omega, by omega⟩
      · obtain ⟨x, hx, rfl⟩ := List.mem_map.1 hid
        have := (h₂ x hx).shift (show n - 2 ^ j ≤ 2 ^ j by omega)
        rwa [Nat.sub_add_cancel hjn.le] at this

/-! ### Chunks -/

/-- The loop of `chunk_id`: climbs to the next level that is 3 modulo 4. -/
def chunkIdLoop : ℕ → ℕ → ℕ
  | 0, c => c
  | fuel + 1, c =>
    if level c % 4 = 3 then c
    else if 62 ≤ level c then c
    else if c >>> (level c + 1) &&& 1 = 1 then chunkIdLoop fuel (c - 1 <<< level c)
    else chunkIdLoop fuel (c + 1 <<< level c)

def chunkId (nodeId : ℕ) : ℕ := chunkIdLoop 64 nodeId

def internalLeft (x : ℕ) : ℕ := x ^^^ 1 <<< (level x - 1)

def internalRight (x : ℕ) : ℕ := x ^^^ 3 <<< (level x - 1)

/-- The fifteen nodes of the subtree of height three below a chunk root. -/
def chunkLayout (chunkRoot : ℕ) : List ℕ :=
  let l := internalLeft chunkRoot
  let r := internalRight chunkRoot
  let ll := internalLeft l
  let lr := internalRight l
  let rl := internalLeft r
  let rr := internalRight r
  [internalLeft ll, ll, internalRight ll, l, internalLeft lr, lr, internalRight lr, chunkRoot,
    internalLeft rl, rl, internalRight rl, r, internalLeft rr, rr, internalRight rr]

private theorem climb_node {k : ℕ} (hk : k < 62) (i : ℕ) :
    (if node k i >>> (k + 1) &&& 1 = 1 then node k i - 1 <<< k else node k i + 1 <<< k) =
      node (k + 1) (i / 2) := by
  have := parent_node hk i 0
  rwa [parent, level_node (by omega), if_neg (by omega)] at this

private theorem chunkIdLoop_succ {k fuel : ℕ} (hk : k < 62) (h : k % 4 ≠ 3) (i : ℕ) :
    chunkIdLoop (fuel + 1) (node k i) = chunkIdLoop fuel (node (k + 1) (i / 2)) := by
  rw [chunkIdLoop, level_node (by omega), if_neg h, if_neg (by omega), ← climb_node hk]
  split_ifs <;> rfl

/-- The loop climbs to the next level that is three modulo four. -/
theorem chunkIdLoop_node : ∀ {d fuel k : ℕ}, k % 4 + d = 3 → k + d < 62 → d < fuel → ∀ i,
    chunkIdLoop fuel (node k i) = node (k + d) (i / 2 ^ d)
  | 0, fuel + 1, k, hd, hk, _, i => by
    rw [chunkIdLoop, level_node (by omega), if_pos (by omega), pow_zero, Nat.div_one, Nat.add_zero]
  | d + 1, fuel + 1, k, hd, hk, hfuel, i => by
    rw [chunkIdLoop_succ (by omega) (by omega),
      chunkIdLoop_node (show (k + 1) % 4 + d = 3 by omega) (by omega) (by omega), Nat.div_div_eq_div_mul,
      ← pow_succ', show k + 1 + d = k + (d + 1) by omega]

/-- **The chunk of a node** is rooted at the next level that is three modulo four. -/
theorem chunkId_eq {k : ℕ} (hk : k < 60) (i : ℕ) :
    chunkId (node k i) = node (k + (3 - k % 4)) (i / 2 ^ (3 - k % 4)) :=
  chunkIdLoop_node (by omega) (by omega) (by omega) i

/-- The chunk of a node of level at most three is the one of its eight leaves. -/
theorem chunkId_node {k : ℕ} (hk : k ≤ 3) (i : ℕ) :
    chunkId (node k i) = node 3 (i / 2 ^ (3 - k)) := by
  have hd : 3 - k % 4 = 3 - k := by omega
  rw [chunkId_eq (by omega), hd, Nat.add_sub_cancel' hk]

/-- The chunk of a node of a level above three is rooted above level three. -/
theorem chunkId_node_high {k : ℕ} (hk : 3 < k) (hk' : k ≤ 62) (i : ℕ) :
    ∃ k' i', 3 < k' ∧ chunkId (node k i) = node k' i' := by
  rw [chunkId]
  have : ∀ fuel k i, 3 < k → k ≤ 62 →
      ∃ k' i', 3 < k' ∧ chunkIdLoop fuel (node k i) = node k' i' := by
    intro fuel
    induction fuel with
    | zero => exact fun k i h _ => ⟨k, i, h, rfl⟩
    | succ fuel ih =>
      intro k i h h'
      by_cases h₁ : k % 4 = 3
      · exact ⟨k, i, h, by rw [chunkIdLoop, level_node (by omega), if_pos h₁]⟩
      by_cases h₂ : k < 62
      · rw [chunkIdLoop_succ h₂ h₁]
        exact ih _ _ (by omega) (by omega)
      · exact ⟨k, i, h, by rw [chunkIdLoop, level_node (by omega), if_neg h₁, if_pos (by omega)]⟩
  exact this 64 k i hk hk'

theorem internalLeft_node {k : ℕ} (hk : k < 63) (i : ℕ) :
    internalLeft (node (k + 1) i) = node k (2 * i) := by
  rw [internalLeft, level_node (by omega), Nat.add_sub_cancel, node_xor_left]

theorem internalRight_node {k : ℕ} (hk : k < 63) (i : ℕ) :
    internalRight (node (k + 1) i) = node k (2 * i + 1) := by
  rw [internalRight, level_node (by omega), Nat.add_sub_cancel, node_xor_right]

/-- **The chunk of the `j`-th eight leaves** holds fifteen consecutive ids. -/
theorem chunkLayout_node (j : ℕ) :
    chunkLayout (node 3 j) = (List.range 15).map fun t => 16 * j + t := by
  simp only [chunkLayout, internalLeft_node (show 2 < 63 by omega),
    internalRight_node (show 2 < 63 by omega), internalLeft_node (show 1 < 63 by omega),
    internalRight_node (show 1 < 63 by omega), internalLeft_node (show 0 < 63 by omega),
    internalRight_node (show 0 < 63 by omega)]
  simp [node, List.range, List.range.loop]
  omega

end LogMath

end KeyTransparency
