/-
# Inclusion proofs as the server makes them

`get_batch_proof_for_nodes` lists the nodes `MerkleLog.needed` for a verifier that
opens the nodes above the given leaves and above the last leaf of each boundary,
and that has kept the peaks of its last size (`getBatchProofForNodes_eq`).
-/

import KeyTransparency.Tree.LogAppend

namespace KeyTransparency

open LogMath InOrder MerkleLog

namespace LogTree

variable {P : Primitives} {s : Store} {leaves : List Octets} {n : ℕ}

/-- **`recursive_needed`** lists the needed nodes. -/
theorem recursiveNeeded_node {skeleton retained : List ℕ} {fuel : ℕ} :
    ∀ {k i : ℕ}, k < fuel → k ≤ 62 →
      recursiveNeeded skeleton retained fuel (node k i) n =
        .ok ((needed n (fun k i => decide (node k i ∈ skeleton))
          (fun k i => decide (node k i ∈ retained)) k i).map fun c => node c.1 c.2) := by
  induction fuel with
  | zero => intro k i hk; omega
  | succ fuel ih =>
    intro k i hk hk'
    rw [recursiveNeeded]
    cases k with
    | zero =>
      rw [needed]
      by_cases hs : node 0 i ∈ skeleton <;> by_cases hr : node 0 i ∈ retained <;>
        simp [hs, hr, isLeaf_node, -node_zero]
    | succ k =>
      rw [needed]
      by_cases hs : node (k + 1) i ∈ skeleton
      · have hleaf : ¬ isLeaf (node (k + 1) i) = true := by simp [isLeaf_node]
        rw [if_neg (fun h => h.2 hs), if_neg (not_not_intro hs), if_neg hleaf,
          if_pos (decide_eq_true hs)]
        simp only [rightChild_node (show k < 63 by omega), leftChild_node (show k < 63 by omega),
          Result.ok_bind]
        by_cases hr : (2 * i + 1) * 2 ^ k < n
        · have hne : node k (2 * i) ≠ node k (2 * i + 1) := fun h => by
            have := (node_inj h).2
            omega
          rw [if_pos hr, if_neg hne, ih (by omega) (by omega), ih (by omega) (by omega), if_pos hr,
            List.map_append]
          rfl
        · rw [if_neg hr, if_pos rfl, ih (by omega) (by omega), if_neg hr]
      · by_cases hr : node (k + 1) i ∈ retained <;> simp [hs, hr]

theorem mem_climb {p x : ℕ} (hn : n ≤ 2 ^ 62) (hp : p < n) :
    ∀ {fuel j : ℕ}, j ≤ height n → height n ≤ fuel + j →
      (x ∈ climb (merkleRoot n) n fuel (node j (p / 2 ^ j)) ↔
        ∃ l, j < l ∧ l ≤ height n ∧ x = node l (p / 2 ^ l)) := by
  have hh := height_le_of_le_two_pow hn
  have hroot : p / 2 ^ height n = 0 := Nat.div_eq_of_lt (hp.trans_le (le_two_pow_height n))
  intro fuel
  induction fuel with
  | zero =>
    intro j h₁ h₂
    simp only [climb, List.not_mem_nil, false_iff, not_exists]
    omega
  | succ fuel ih =>
    intro j hj hfuel
    rw [climb, merkleRoot_eq (by omega)]
    by_cases hjh : j = height n
    · subst hjh
      rw [hroot, if_pos rfl]
      simp only [List.not_mem_nil, false_iff, not_exists]
      omega
    · have hne : node j (p / 2 ^ j) ≠ node (height n) 0 := fun h => hjh (node_inj h).1
      rw [merkleRoot_eq (by omega)] at ih
      rw [if_neg hne, parent_node (by omega), ← div_two_pow_succ, List.mem_cons,
        ih (by omega) (by omega)]
      constructor
      · rintro (rfl | ⟨l, h₁, h₂, rfl⟩)
        · exact ⟨j + 1, by omega, by omega, rfl⟩
        · exact ⟨l, by omega, h₂, rfl⟩
      · rintro ⟨l, h₁, h₂, rfl⟩
        rcases (Nat.succ_le_of_lt h₁).eq_or_lt with rfl | h
        · exact .inl rfl
        · exact .inr ⟨l, h, h₂, rfl⟩

/-- Whether the server descends into a node: above a given leaf, or properly above
the last leaf of a boundary. -/
def descends (indices boundaries : List ℕ) (n k i : ℕ) : Bool :=
  above indices k i ||
    (k != 0 && boundaries.any fun b => b != 0 && decide (b ≤ n) && (b - 1) / 2 ^ k == i)

/-- **The skeleton** holds the nodes the server descends into. -/
theorem mem_skeleton {indices boundaries : List ℕ} (hn : n ≤ 2 ^ 62) (hlt : ∀ p ∈ indices, p < n)
    {k i : ℕ} (hk : k ≤ height n) :
    node k i ∈ skeleton indices boundaries n ↔ descends indices boundaries n k i = true := by
  have hh := height_le_of_le_two_pow hn
  have leafNode : ∀ p, p * 2 = node 0 (p / 2 ^ 0) := fun p => by
    rw [node_zero, pow_zero, Nat.div_one, Nat.mul_comm]
  have climbs : ∀ p, p < n → (node k i ∈ climb (merkleRoot n) n 64 (p * 2) ↔
      0 < k ∧ p / 2 ^ k = i) := fun p hp => by
    rw [leafNode, mem_climb hn hp (Nat.zero_le _) (by omega)]
    constructor
    · rintro ⟨l, h₁, -, h⟩
      obtain ⟨rfl, rfl⟩ := node_inj h
      exact ⟨h₁, rfl⟩
    · rintro ⟨h₁, rfl⟩
      exact ⟨k, h₁, hk, rfl⟩
  rw [skeleton, List.mem_append, descends, Bool.or_eq_true, above_iff]
  refine or_congr ?_ ?_
  · rw [List.mem_flatMap]
    refine exists_congr fun p => and_congr_right fun hp => ?_
    rw [List.mem_cons, climbs p (hlt p hp), leafNode]
    constructor
    · rintro (h | h)
      · obtain ⟨rfl, rfl⟩ := node_inj h
        rfl
      · exact h.2
    · rintro rfl
      rcases Nat.eq_zero_or_pos k with rfl | h
      · exact .inl rfl
      · exact .inr ⟨h, rfl⟩
  · rw [List.mem_flatMap, Bool.and_eq_true, List.any_eq_true]
    constructor
    · rintro ⟨b, hb, h⟩
      split_ifs at h with hb'
      · simp at h
      · rw [climbs _ (by omega)] at h
        exact ⟨by simpa using h.1.ne', b, hb, by simp; omega⟩
    · rintro ⟨hk₀, b, hb, h⟩
      simp only [Bool.and_eq_true, bne_iff_ne, decide_eq_true_eq, beq_iff_eq] at h hk₀
      refine ⟨b, hb, ?_⟩
      rw [if_neg (by omega), climbs _ (by omega)]
      exact ⟨by omega, h.2⟩

/-- Whether a verifier that last saw size `m` has kept a node. -/
def keeps (m k i : ℕ) : Bool := decide ((k, i) ∈ peaks m)

theorem mem_getRoots {m k i : ℕ} (hm : m ≤ 2 ^ 62) : node k i ∈ getRoots m ↔ (k, i) ∈ peaks m := by
  rw [getRoots_eq hm, List.mem_map]
  constructor
  · rintro ⟨c, hc, h⟩
    obtain ⟨h₁, h₂⟩ := node_inj h
    rwa [← h₁, ← h₂]
  · exact fun h => ⟨_, h, rfl⟩

/-- The nodes a verifier needs lie in the log, below the node it starts from. -/
theorem mem_needed {opened kept : ℕ → ℕ → Bool} {c : ℕ × ℕ} :
    ∀ {k i : ℕ}, i * 2 ^ k < n → c ∈ needed n opened kept k i → c.1 ≤ k ∧ c.2 * 2 ^ c.1 < n
  | 0, i, hi, h => by
    rw [needed] at h
    split_ifs at h
    · simp at h
    · simp at h
    · rw [List.mem_singleton.1 h]
      exact ⟨le_rfl, hi⟩
  | k + 1, i, hi, h => by
    obtain ⟨e₀, e₁, e₂, e₃⟩ := block_halves k i
    rw [needed] at h
    split_ifs at h with h₁ h₂ h₃
    · rcases List.mem_append.1 h with h | h
      · exact (mem_needed (by omega) h).imp_left Nat.le_succ_of_le
      · exact (mem_needed h₂ h).imp_left Nat.le_succ_of_le
    · exact (mem_needed (by omega) h).imp_left Nat.le_succ_of_le
    · simp at h
    · rw [List.mem_singleton.1 h]
      exact ⟨le_rfl, hi⟩

/-- What is needed depends on the nodes of the block only. -/
theorem needed_congr {opened kept opened' kept' : ℕ → ℕ → Bool} :
    ∀ {k i : ℕ}, (∀ k' i', k' ≤ k → i * 2 ^ k ≤ i' * 2 ^ k' → (i' + 1) * 2 ^ k' ≤ (i + 1) * 2 ^ k →
        opened k' i' = opened' k' i' ∧ kept k' i' = kept' k' i') →
      needed n opened kept k i = needed n opened' kept' k i
  | 0, i, h => by
    obtain ⟨h₁, h₂⟩ := h 0 i le_rfl le_rfl le_rfl
    rw [needed, needed, h₁, h₂]
  | k + 1, i, h => by
    obtain ⟨e₀, e₁, e₂, e₃⟩ := block_halves k i
    obtain ⟨h₁, h₂⟩ := h (k + 1) i le_rfl le_rfl le_rfl
    have hl : needed n opened kept k (2 * i) = needed n opened' kept' k (2 * i) :=
      needed_congr fun k' i' hk b₁ b₂ => h k' i' (by omega) (by omega) (by omega)
    have hr : needed n opened kept k (2 * i + 1) = needed n opened' kept' k (2 * i + 1) :=
      needed_congr fun k' i' hk b₁ b₂ => h k' i' (by omega) (by omega) (by omega)
    rw [needed, needed, h₁, h₂, hl, hr]

/-- **The server's proof**: the values of the nodes needed by a verifier that
descends as the server does. -/
theorem getBatchProofForNodes_eq (hs : Holds s leaves) (hn : leaves.length ≤ 2 ^ 62)
    (h₀ : leaves ≠ []) {indices boundaries : List ℕ} (hlt : ∀ p ∈ indices, p < leaves.length)
    {m : ℕ} (hm : m ≤ leaves.length) :
    getBatchProofForNodes P s indices leaves.length m boundaries =
      .ok ((needed leaves.length (descends indices boundaries leaves.length) (keeps m)
        (height leaves.length) 0).map fun c =>
          value (logPar P) (leafAt leaves) leaves.length c.1 c.2) := by
  have hh := height_le_of_le_two_pow hn
  have hpos := List.length_pos_iff.2 h₀
  have hkeeps : ∀ k i, decide (node k i ∈ if 0 < m ∧ m ≤ leaves.length then getRoots m else []) =
      keeps m k i := fun k i => by
    rw [keeps, decide_eq_decide]
    split_ifs with h
    · exact mem_getRoots (by omega)
    · obtain rfl : m = 0 := by omega
      simp [peaks, peaksFrom, height]
  have hopen : ∀ k i, k ≤ height leaves.length →
      decide (node k i ∈ skeleton indices boundaries leaves.length) =
        descends indices boundaries leaves.length k i := fun k i hk => by
    rw [Bool.eq_iff_iff, decide_eq_true_eq]
    exact mem_skeleton hn hlt hk
  rw [getBatchProofForNodes]
  simp only [merkleRoot_eq (show leaves.length < 2 ^ 64 by omega)]
  rw [recursiveNeeded_node (by omega) hh, Result.ok_bind,
    needed_congr fun k i hk _ _ => ⟨hopen k i hk, hkeeps k i⟩]
  rw [List.mapM_map]
  refine Result.mapM_eq_ok fun c hc => ?_
  obtain ⟨h₁, h₂⟩ := mem_needed (by omega) hc
  rw [Function.comp, resolveNode_node hs le_rfl (by omega) (by omega) h₂, readBack_current]

end LogTree

end KeyTransparency
