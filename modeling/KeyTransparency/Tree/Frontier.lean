/-
# The frontier of a log

The rest of `src/tree/log_math.rs`: the implicit binary search tree whose nodes are
the log entries themselves, numbered in order, and its right edge, the frontier.
The entries of the frontier are the last leaves of the peaks (`getFrontier_eq`).
-/

import KeyTransparency.Tree.LogMath

namespace KeyTransparency

open InOrder MerkleLog

namespace LogMath

/-- The loop of `ibst_right_child`: goes left until it is at an entry of the log. -/
def ibstRightLoop (n : ℕ) : ℕ → ℕ → Option ℕ
  | 0, _ => none
  | fuel + 1, x =>
    if n ≤ x then
      if level x = 0 then none else ibstRightLoop n fuel (leftChild x)
    else some x

/-- The right child in the implicit binary search tree over the log entries. -/
def ibstRightChild (x n : ℕ) : Option ℕ :=
  if level x = 0 then none else ibstRightLoop n 64 (x ^^^ 3 <<< (level x - 1))

/-- The loop of `get_frontier`, after an entry. -/
def frontierLoop (treeSize : ℕ) : ℕ → ℕ → List ℕ
  | 0, _ => []
  | fuel + 1, curr =>
    if curr = treeSize - 1 then []
    else
      match ibstRightChild curr treeSize with
      | some r => r :: frontierLoop treeSize fuel r
      | none => []

def getFrontier (treeSize : ℕ) : List ℕ :=
  if treeSize = 0 then [] else root treeSize :: frontierLoop treeSize 100 (root treeSize)

/-- A right child is an entry of the log. -/
theorem ibstRightChild_lt {x n r : ℕ} (h : ibstRightChild x n = some r) : r < n := by
  have loop : ∀ fuel x, ibstRightLoop n fuel x = some r → r < n := by
    intro fuel
    induction fuel with
    | zero => simp [ibstRightLoop]
    | succ fuel ih =>
      intro x h
      rw [ibstRightLoop] at h
      split_ifs at h with h₁
      · exact ih _ h
      · obtain rfl := Option.some.inj h
        omega
  rw [ibstRightChild] at h
  split_ifs at h
  exact loop _ _ h

/-- Going left from a node stops at the first entry of the log. -/
theorem ibstRightLoop_node {n j : ℕ} :
    ∀ {d q fuel : ℕ}, d < fuel → j + d < 63 → node j (q * 2 ^ d) < n →
      (∀ e < d, n ≤ node (j + d - e) (q * 2 ^ e)) →
      ibstRightLoop n fuel (node (j + d) q) = some (node j (q * 2 ^ d))
  | 0, q, 0, hf, _, _, _ => absurd hf (by omega)
  | 0, q, fuel + 1, _, _, hlt, _ => by
    rw [pow_zero, Nat.mul_one] at *
    rw [ibstRightLoop, Nat.add_zero, if_neg (by omega)]
  | d + 1, q, 0, hf, _, _, _ => absurd hf (by omega)
  | d + 1, q, fuel + 1, hf, hd, hlt, hge => by
    have h₀ := hge 0 (by omega)
    rw [pow_zero, Nat.mul_one, Nat.sub_zero] at h₀
    have e : 2 * q * 2 ^ d = q * 2 ^ (d + 1) := by ring
    rw [ibstRightLoop, if_pos h₀, level_node (by omega), if_neg (by omega), ← Nat.add_assoc,
      leftChild_node (by omega), ← e]
    refine ibstRightLoop_node (by omega) (by omega) (by rwa [e]) fun c hc => ?_
    have := hge (c + 1) (by omega)
    rwa [show j + (d + 1) - (c + 1) = j + d - c by omega,
      show q * 2 ^ (c + 1) = 2 * q * 2 ^ c by ring] at this

/-- **Looking for a right child** goes down a left edge: what a step down to a node
beyond the log keeps holds of the child, or of a leaf beyond the log. -/
theorem ibstRightLoop_descends {n : ℕ} {Q : ℕ → ℕ → Prop}
    (hstep : ∀ {k i}, n ≤ node (k + 1) i → Q (k + 1) i → Q k (2 * i)) :
    ∀ {k j fuel : ℕ}, k < fuel → k < 64 → Q k j →
      (∃ k' j', k' ≤ k ∧ ibstRightLoop n fuel (node k j) = some (node k' j') ∧ node k' j' < n ∧ Q k' j') ∨
        ibstRightLoop n fuel (node k j) = none ∧ ∃ j', n ≤ node 0 j' ∧ Q 0 j'
  | k, j, 0, hf, _, _ => absurd hf (by omega)
  | 0, j, fuel + 1, _, _, hQ => by
    rw [ibstRightLoop, level_node (by omega), if_pos rfl]
    split_ifs with h
    · exact .inr ⟨rfl, j, h, hQ⟩
    · exact .inl ⟨0, j, le_rfl, rfl, by omega, hQ⟩
  | k + 1, j, fuel + 1, hf, hk, hQ => by
    rw [ibstRightLoop, level_node hk, if_neg (Nat.succ_ne_zero k), leftChild_node (by omega)]
    split_ifs with h
    · have hf' : k < fuel := by omega
      have hk' : k < 64 := by omega
      rcases ibstRightLoop_descends hstep hf' hk' (hstep h hQ) with ⟨k', j', hk', hloop, hlt, hQ'⟩ | hnone
      · exact .inl ⟨k', j', by omega, hloop, hlt, hQ'⟩
      · exact .inr hnone
    · exact .inl ⟨k + 1, j, le_rfl, rfl, by omega, hQ⟩

/-- The right child of a node, as the source finds it. -/
theorem ibstRightChild_node {k i n : ℕ} (hk : k + 1 < 64) :
    ibstRightChild (node (k + 1) i) n = ibstRightLoop n 64 (node k (2 * i + 1)) := by
  rw [ibstRightChild, level_node hk, if_neg (Nat.succ_ne_zero k), Nat.add_sub_cancel, node_xor_right]

/-- **The right child of an entry** is the farthest one at a power of two below its
own that the log reaches. -/
theorem ibstRightChild_eq {n l i j : ℕ} (hl : l ≤ 63) (hj : j < l) (hlt : node l i + 2 ^ j < n)
    (hge : ∀ j', j < j' → j' < l → n ≤ node l i + 2 ^ j') :
    ibstRightChild (node l i) n = some (node l i + 2 ^ j) := by
  obtain ⟨l, rfl⟩ := Nat.exists_eq_succ_of_ne_zero (show l ≠ 0 by omega)
  obtain ⟨d, rfl⟩ := Nat.exists_eq_add_of_le (show j ≤ l by omega)
  have key : ∀ e ≤ d, node (j + d - e) ((2 * i + 1) * 2 ^ e) =
      node (j + d + 1) i + 2 ^ (j + d - e) := by
    intro e he
    obtain ⟨c, rfl⟩ := Nat.exists_eq_add_of_le he
    have h₁ := Nat.one_le_two_pow (n := j + c)
    have h₂ := Nat.one_le_two_pow (n := j + (e + c) + 1)
    rw [show j + (e + c) - e = j + c by omega]
    simp only [node]
    have h₃ : (2 * i + 1) * 2 ^ e * 2 ^ (j + c + 1) =
        i * 2 ^ (j + (e + c) + 1 + 1) + 2 ^ (j + (e + c) + 1) := by ring
    omega
  have hd := key d le_rfl
  rw [Nat.add_sub_cancel] at hd
  rw [ibstRightChild, level_node (by omega), if_neg (by omega), Nat.succ_eq_add_one,
    Nat.add_sub_cancel, node_xor_right, ibstRightLoop_node (by omega) (by omega) (by rwa [hd]), hd]
  intro e he
  rw [key e he.le]
  exact hge _ (by omega) (by omega)

/-! ### The last leaves of the peaks -/

/-- The last leaf below a node. -/
def lastLeaf (c : ℕ × ℕ) : ℕ := (c.2 + 1) * 2 ^ c.1 - 1

theorem lastLeaf_mk (k i : ℕ) : lastLeaf (k, i) = (i + 1) * 2 ^ k - 1 := rfl

theorem node_add_one (l q : ℕ) : node l q + 1 = (2 * q + 1) * 2 ^ l := by
  have := Nat.one_le_two_pow (n := l)
  have e : (2 * q + 1) * 2 ^ l = q * 2 ^ (l + 1) + 2 ^ l := by ring
  rw [node, e]
  omega

theorem frontierLoop_last (n fuel : ℕ) : frontierLoop n fuel (n - 1) = [] := by
  cases fuel with
  | zero => rfl
  | succ fuel => rw [frontierLoop, if_pos rfl]

theorem frontierLoop_step {n l q j fuel : ℕ} (hl : l ≤ 62) (hj : j < l)
    (hlt : node l q + 2 ^ j < n) (hge : ∀ j', j < j' → j' < l → n ≤ node l q + 2 ^ j') :
    frontierLoop n (fuel + 1) (node l q) =
      (node l q + 2 ^ j) :: frontierLoop n fuel (node l q + 2 ^ j) := by
  have := Nat.two_pow_pos j
  rw [frontierLoop, if_neg (by omega), ibstRightChild_eq (by omega) hj hlt hge]

/-- The frontier right of an entry. -/
theorem frontierLoop_eq {n : ℕ} :
    ∀ {k i l q fuel : ℕ}, k < fuel → k ≤ l → l ≤ 62 → (2 * q + 1) * 2 ^ l = i * 2 ^ k →
      i * 2 ^ k < n → n ≤ (i + 1) * 2 ^ k → (k < l ∨ n < (i + 1) * 2 ^ k) →
      frontierLoop n fuel (node l q) = (peaksFrom n k i).map lastLeaf := by
  have step : ∀ {k i l q fuel : ℕ}, k < l → l ≤ 62 → (2 * q + 1) * 2 ^ l = i * 2 ^ k →
      (i + 1) * 2 ^ k ≤ n → n < (i + 2) * 2 ^ k →
      frontierLoop n (fuel + 1) (node l q) =
        lastLeaf (k, i) :: frontierLoop n fuel (lastLeaf (k, i)) := by
    intro k i l q fuel hk hl he h₁ h₂
    have hnode := node_add_one l q
    have := Nat.two_pow_pos k
    have e₁ : (i + 1) * 2 ^ k = i * 2 ^ k + 2 ^ k := by ring
    have e₂ : (i + 2) * 2 ^ k = i * 2 ^ k + 2 * 2 ^ k := by ring
    have hlast : node l q + 2 ^ k = lastLeaf (k, i) := by
      rw [lastLeaf_mk]
      omega
    rw [← hlast]
    refine frontierLoop_step hl hk (by omega) fun j' hj _ => ?_
    have := Nat.pow_le_pow_right (show 0 < 2 by omega) (show k + 1 ≤ j' from hj)
    rw [pow_succ] at this
    omega
  intro k
  induction k with
  | zero =>
    intro i l q fuel hfuel hk hl he h₁ h₂ hor
    obtain ⟨fuel, rfl⟩ := Nat.exists_eq_succ_of_ne_zero (show fuel ≠ 0 by omega)
    rw [step (by omega) hl he (by omega) (by omega), show lastLeaf (0, i) = n - 1 by
      rw [lastLeaf_mk]
      omega, frontierLoop_last, peaksFrom, if_pos (by omega)]
    simp only [List.map_cons, List.map_nil, lastLeaf]
    congr 1
    omega
  | succ k ih =>
    intro i l q fuel hfuel hk hl he h₁ h₂ hor
    obtain ⟨fuel, rfl⟩ := Nat.exists_eq_succ_of_ne_zero (show fuel ≠ 0 by omega)
    obtain ⟨e₀, e₁, e₂, e₃⟩ := block_halves k i
    have := Nat.two_pow_pos k
    rw [peaksFrom]
    split_ifs with c₁ c₂
    · have e₄ : (i + 2) * 2 ^ (k + 1) = (i + 1) * 2 ^ (k + 1) + 2 * 2 ^ k := by ring
      rw [step (by omega) hl he c₁ (by omega), show lastLeaf (k + 1, i) = n - 1 by
        rw [lastLeaf_mk]
        omega, frontierLoop_last]
      simp only [List.map_cons, List.map_nil, lastLeaf]
      congr 1
      omega
    · have e₄ : (2 * i + 2) * 2 ^ k = (i + 1) * 2 ^ (k + 1) := by ring
      have hnode := node_add_one k i
      rw [step (k := k) (i := 2 * i) (by omega) hl (by omega) (by omega) (by omega),
        List.map_cons, show lastLeaf (k, 2 * i) = node k i by
          rw [lastLeaf_mk]
          omega]
      rw [ih (i := 2 * i + 1) (by omega) le_rfl (by omega) rfl c₂ (by omega) (by omega)]
    · exact ih (i := 2 * i) (by omega) (by omega) hl (by omega) (by omega) (by omega) (by omega)

/-- **The frontier** consists of the last leaves of the peaks. -/
theorem getFrontier_eq {n : ℕ} (h₀ : 0 < n) (hn : n ≤ 2 ^ 62) :
    getFrontier n = (peaks n).map lastLeaf := by
  have hL := Nat.log2_self_le (show n ≠ 0 by omega)
  have hL' : n < 2 ^ (Nat.log2 n + 1) := Nat.lt_log2_self
  have hL62 : Nat.log2 n ≤ 62 := (Nat.pow_le_pow_iff_right (by omega : 1 < 2)).1 (hL.trans hn)
  have e : (2 : ℕ) ^ (Nat.log2 n + 1) = 2 * 2 ^ Nat.log2 n := by ring
  have hh := le_two_pow_height n
  rw [getFrontier, if_neg (by omega), root_eq h₀ (by omega), peaks]
  rcases hL.eq_or_lt with he | hlt
  · have hheight : height n ≤ Nat.log2 n := height_le_of_le_two_pow he.ge
    have heq : height n = Nat.log2 n := le_antisymm hheight
      ((Nat.pow_le_pow_iff_right (by omega : 1 < 2)).1 (he.trans_le hh))
    have hnode := node_add_one (Nat.log2 n) 0
    rw [show node (Nat.log2 n) 0 = n - 1 by omega, frontierLoop_last, heq,
      peaksFrom_of_complete (by omega)]
    simp only [List.map_cons, List.map_nil, lastLeaf]
    congr 1
    omega
  · have heq : height n = Nat.log2 n + 1 := le_antisymm (height_le_of_le_two_pow hL'.le)
      ((Nat.pow_lt_pow_iff_right (by omega : 1 < 2)).1 (hlt.trans_le hh))
    have hnode := node_add_one (Nat.log2 n) 0
    rw [heq, peaksFrom, if_neg (by omega), if_pos (by omega), List.map_cons,
      frontierLoop_eq (i := 2 * 0 + 1) (by omega) le_rfl hL62 (by ring) (by omega) (by omega)
        (by omega)]
    congr 1
    rw [lastLeaf_mk]
    omega

theorem mem_getFrontier_lt {n p : ℕ} (hn : n ≤ 2 ^ 62) (hp : p ∈ getFrontier n) : p < n := by
  rcases Nat.eq_zero_or_pos n with rfl | h₀
  · simp [getFrontier] at hp
  · rw [getFrontier_eq h₀ hn] at hp
    obtain ⟨c, hc, rfl⟩ := List.mem_map.1 hp
    have := (mem_peaksFrom hc).1
    have := Nat.two_pow_pos c.1
    have : 0 < (c.2 + 1) * 2 ^ c.1 := Nat.mul_pos (by omega) this
    rw [lastLeaf]
    omega

/-- The frontier ends with the last entry. -/
theorem last_mem_getFrontier {n : ℕ} (h₀ : 0 < n) (hn : n ≤ 2 ^ 62) : n - 1 ∈ getFrontier n := by
  rw [getFrontier_eq h₀ hn]
  obtain ⟨c, hc, hdiv⟩ := exists_mem_peaks (show n - 1 < n by omega)
  have := div_two_pow_eq_iff.1 hdiv
  have := (mem_peaksFrom hc).1
  refine List.mem_map.2 ⟨c, hc, ?_⟩
  rw [lastLeaf]
  omega

theorem getLast?_peaksFrom {n : ℕ} : ∀ {k i : ℕ}, i * 2 ^ k < n → n ≤ (i + 1) * 2 ^ k →
    ((peaksFrom n k i).map lastLeaf).getLast? = some (n - 1)
  | 0, i, h₁, h₂ => by
    rw [peaksFrom, if_pos (by omega), List.map_singleton, List.getLast?_singleton, lastLeaf_mk]
    congr 1
    omega
  | k + 1, i, h₁, h₂ => by
    obtain ⟨e₀, e₁, e₂, e₃⟩ := block_halves k i
    rw [peaksFrom]
    split_ifs with c₁ c₂
    · rw [List.map_singleton, List.getLast?_singleton, lastLeaf_mk]
      congr 1
      omega
    · have ih := getLast?_peaksFrom (k := k) (i := 2 * i + 1) c₂ (by omega)
      rw [List.map_cons, List.getLast?_cons, ih]
      rfl
    · exact getLast?_peaksFrom (by omega) (by omega)

/-- **The rightmost entry** is the last one of the frontier. -/
theorem getLast?_getFrontier {n : ℕ} (h₀ : 0 < n) (hn : n ≤ 2 ^ 62) :
    (getFrontier n).getLast? = some (n - 1) := by
  rw [getFrontier_eq h₀ hn, peaks]
  exact getLast?_peaksFrom (by omega) (by
    rw [Nat.zero_add, Nat.one_mul]
    exact le_two_pow_height n)

end LogMath

end KeyTransparency
