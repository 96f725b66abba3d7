/-
# The verifier's recursion on coordinates

`recursive_hash` walks over node ids; here it is `MerkleLog.reconstruct`
(`recursiveHash_node`), so that what is proved of reconstructions holds of
`calculate_root_capturing` (`calculateRootCapturing_eq_ok_iff`).
-/

import KeyTransparency.Client.LogVerifier

namespace KeyTransparency

open LogMath InOrder MerkleLog

namespace LogVerifier

variable {P : Primitives} {n : ℕ}

/-- The given leaves, by position. -/
def givenAt (leaves : List (ℕ × Octets)) (p : ℕ) : Option Octets := leaves.lookup p

/-- The retained values, by coordinates. -/
def keptAt (retained : NodeMap) (k i : ℕ) : Option Octets := retained (node k i)

/-- The values of the wanted nodes among the ones visited. -/
def capture (wanted : List ℕ) (visits : List ((ℕ × ℕ) × Octets)) (captured : NodeMap) : NodeMap :=
  visits.foldl (fun c v => record wanted c (node v.1.1 v.1.2) v.2) captured

/-- The provided leaves as `calculate_root_capturing` keys them. -/
def leafNodes (leaves : List (ℕ × Octets)) : List (ℕ × Octets) := leaves.map fun n => (n.1 * 2, n.2)

theorem climbsTo_node {k i p : ℕ} (hn : n ≤ 2 ^ 62) (hp : p < n) (hk : k ≤ height n) :
    ∀ {fuel j : ℕ}, j ≤ height n → height n < fuel + j →
      climbsTo (node k i) n fuel (node j (p / 2 ^ j)) = .ok (decide (j ≤ k ∧ p / 2 ^ k = i)) := by
  have hh := height_le_of_le_two_pow hn
  have hroot : p / 2 ^ height n = 0 := Nat.div_eq_of_lt (hp.trans_le (le_two_pow_height n))
  intro fuel
  induction fuel with
  | zero => intro j h₁ h₂; omega
  | succ fuel ih =>
    intro j hj hfuel
    rw [climbsTo, merkleRoot_eq (by omega)]
    by_cases hjk : j = k ∧ p / 2 ^ k = i
    · obtain ⟨rfl, rfl⟩ := hjk
      simp
    · have hne : node j (p / 2 ^ j) ≠ node k i := fun h => by
        obtain ⟨rfl, rfl⟩ := node_inj h
        exact hjk ⟨rfl, rfl⟩
      rw [if_neg hne]
      by_cases hjh : j = height n
      · subst hjh
        rw [hroot, if_pos rfl]
        have : ¬ (height n ≤ k ∧ p / 2 ^ k = i) := fun h => hjk ⟨le_antisymm h.1 hk, h.2⟩
        simp [this]
      · have hne' : node j (p / 2 ^ j) ≠ node (height n) 0 := fun h => hjh (node_inj h).1
        rw [if_neg hne', parent_node (by omega), ← div_two_pow_succ, ih (by omega) (by omega)]
        congr 1
        rw [decide_eq_decide]
        constructor
        · exact fun h => ⟨by omega, h.2⟩
        · exact fun h => ⟨Nat.lt_of_le_of_ne h.1 fun e => hjk ⟨e, h.2⟩, h.2⟩

/-- **`is_ancestor`** finds the nodes above a provided leaf. -/
theorem isAncestor_node {k i : ℕ} (hn : n ≤ 2 ^ 62) (hk : k ≤ height n)
    {leaves : List (ℕ × Octets)} (hlt : ∀ l ∈ leaves, l.1 < n) :
    isAncestor (node k i) n (leafNodes leaves) = .ok (above (leaves.map Prod.fst) k i) := by
  have hh := height_le_of_le_two_pow hn
  induction leaves with
  | nil => rfl
  | cons l leaves ih =>
    have hl : l.1 * 2 = node 0 (l.1 / 2 ^ 0) := by
      rw [node_zero, pow_zero, Nat.div_one, Nat.mul_comm]
    rw [leafNodes, List.map_cons, isAncestor]
    simp only []
    rw [hl, climbsTo_node hn (hlt l List.mem_cons_self) hk (Nat.zero_le _) (by omega),
      Result.ok_bind]
    have ih := ih fun l hl => hlt l (List.mem_cons_of_mem _ hl)
    rw [leafNodes] at ih
    by_cases h : l.1 / 2 ^ k = i
    · simp [h, above]
    · simp [h, above, ih]

theorem lookup_leafNodes_leaf (leaves : List (ℕ × Octets)) (i : ℕ) :
    (leafNodes leaves).lookup (node 0 i) = givenAt leaves i := by
  rw [node_zero]
  induction leaves with
  | nil => rfl
  | cons l leaves ih =>
    have : (2 * i == l.1 * 2) = (i == l.1) := by
      rw [Bool.eq_iff_iff, beq_iff_eq, beq_iff_eq]
      omega
    rw [leafNodes, givenAt] at *
    simp only [List.map_cons, List.lookup_cons, this, ih]
    rfl

theorem lookup_leafNodes_internal (leaves : List (ℕ × Octets)) (k i : ℕ) :
    (leafNodes leaves).lookup (node (k + 1) i) = none := by
  rw [List.lookup_eq_none_iff]
  rintro l hl
  obtain ⟨l, -, rfl⟩ := List.mem_map.1 hl
  rw [node_succ, bne_iff_ne]
  dsimp only
  omega

theorem givenAt_isSome {leaves : List (ℕ × Octets)} {p : ℕ} :
    (givenAt leaves p).isSome = true ↔ p ∈ leaves.map Prod.fst := by
  induction leaves with
  | nil => simp [givenAt]
  | cons l leaves ih =>
    rw [givenAt] at *
    rw [List.lookup_cons, List.map_cons, List.mem_cons]
    by_cases h : p = l.1
    · simp [h]
    · simp [beq_eq_false_iff_ne.2 h, h, ih]

theorem capture_append (wanted : List ℕ) (vs ws : List ((ℕ × ℕ) × Octets)) (captured : NodeMap) :
    capture wanted (vs ++ ws) captured = capture wanted ws (capture wanted vs captured) :=
  List.foldl_append

theorem nextValue_node (retained : NodeMap) (k i : ℕ) (vs : List Octets) :
    (stub (keptAt retained k i) vs = none ∧
        ∃ msg, nextValue retained (node k i) vs = .error (.err msg)) ∨
      ∃ r, stub (keptAt retained k i) vs = some r ∧ nextValue retained (node k i) vs = .ok r := by
  unfold keptAt nextValue
  cases retained (node k i) <;> cases vs <;> simp [stub, fail]

/-- **`recursive_hash` reconstructs.**  It fails when the proof runs out of
elements, and otherwise returns the reconstructed value and captures the wanted
nodes among the ones it reached. -/
theorem recursiveHash_node (hn : n ≤ 2 ^ 62) {leaves : List (ℕ × Octets)}
    (hlt : ∀ l ∈ leaves, l.1 < n) (retained : NodeMap) (wanted : List ℕ) :
    ∀ {k fuel i : ℕ} (vs : List Octets) (captured : NodeMap), k < fuel → k ≤ height n →
      i * 2 ^ k < n →
      (reconstruct (logPar P) n (givenAt leaves) (above (leaves.map Prod.fst)) (keptAt retained)
          k i vs = none ∧
        ∃ msg, recursiveHash P n (leafNodes leaves) retained wanted fuel (node k i) vs captured =
          .error (.err msg)) ∨
      ∃ v rest visits, reconstruct (logPar P) n (givenAt leaves) (above (leaves.map Prod.fst))
          (keptAt retained) k i vs = some (v, rest, visits) ∧
        recursiveHash P n (leafNodes leaves) retained wanted fuel (node k i) vs captured =
          .ok (v, rest, capture wanted visits captured) := by
  have hh := height_le_of_le_two_pow hn
  intro k
  induction k with
  | zero =>
    intro fuel i vs captured hfuel _ hi
    obtain ⟨fuel, rfl⟩ := Nat.exists_eq_succ_of_ne_zero (show fuel ≠ 0 by omega)
    rw [recursiveHash, lookup_leafNodes_leaf, reconstruct]
    cases hg : givenAt leaves i with
    | some v => exact .inr ⟨v, vs, _, rfl, rfl⟩
    | none =>
      have habove : above (leaves.map Prod.fst) 0 i = false := by
        rw [← Bool.not_eq_true, above_zero, ← givenAt_isSome, hg]
        simp
      simp only [isAncestor_node hn (Nat.zero_le _) hlt, habove, Result.ok_bind, Result.pure_eq,
        Bool.false_eq_true, if_false]
      rcases nextValue_node retained 0 i vs with ⟨h₁, e, h₂⟩ | ⟨r, h₁, h₂⟩
      · exact .inl ⟨by rw [h₁]; rfl, e, by rw [h₂]; rfl⟩
      · exact .inr ⟨r.1, r.2, _, by rw [h₁]; rfl, by rw [h₂]; rfl⟩
  | succ k ih =>
    intro fuel i vs captured hfuel hk hi
    obtain ⟨fuel, rfl⟩ := Nat.exists_eq_succ_of_ne_zero (show fuel ≠ 0 by omega)
    obtain ⟨e₀, e₁, e₂, e₃⟩ := block_halves k i
    rw [recursiveHash, lookup_leafNodes_internal, reconstruct]
    simp only [isAncestor_node hn hk hlt, Result.ok_bind]
    by_cases ha : above (leaves.map Prod.fst) (k + 1) i = true
    · have hleaf : isLeaf (node (k + 1) i) = false := by simp [isLeaf_node]
      simp only [ha, hleaf, if_true, Bool.false_eq_true, if_false,
        rightChild_node (show k < 63 by omega), leftChild_node (show k < 63 by omega),
        Result.ok_bind]
      rcases @ih fuel (2 * i) vs captured (by omega) (by omega) (by omega) with
        ⟨hl, e, hl'⟩ | ⟨l, vs₁, ls, hl, hl'⟩
      · exact .inl ⟨by rw [hl]; rfl, e, by rw [hl']; rfl⟩
      by_cases hr : (2 * i + 1) * 2 ^ k < n
      · have hne : node k (2 * i) ≠ node k (2 * i + 1) := fun h => by
          have := (node_inj h).2
          omega
        simp only [hl, hl', if_pos hr, if_neg hne, Result.ok_bind, Option.bind_some]
        rcases @ih fuel (2 * i + 1) vs₁ (capture wanted ls captured) (by omega)
          (by omega) hr with ⟨hr', e, hr''⟩ | ⟨r, vs₂, rs, hr', hr''⟩
        · exact .inl ⟨by rw [hr']; rfl, e, by rw [hr'']; rfl⟩
        · refine .inr ⟨_, _, _, by rw [hr']; rfl, ?_⟩
          rw [hr'', isLeaf_node, isLeaf_node, capture_append, capture_append]
          rfl
      · simp only [hl, hl', if_neg hr, if_true, Result.ok_bind, Option.bind_some]
        refine .inr ⟨_, _, _, rfl, ?_⟩
        rw [capture_append]
        rfl
    · simp only [ha, Bool.false_eq_true, if_false, Result.pure_eq]
      rcases nextValue_node retained (k + 1) i vs with ⟨h₁, e, h₂⟩ | ⟨r, h₁, h₂⟩
      · exact .inl ⟨by rw [h₁]; rfl, e, by rw [h₂]; rfl⟩
      · exact .inr ⟨r.1, r.2, _, by rw [h₁]; rfl, by rw [h₂]; rfl⟩

/-- **The verifier accepts** exactly when the reconstruction uses up the proof. -/
theorem calculateRootCapturing_eq_ok_iff (hn : n ≤ 2 ^ 62) (h₀ : 0 < n)
    {indices : List ℕ} {hashes : List Octets} (hlen : indices.length = hashes.length)
    (hlt : ∀ p ∈ indices, p < n) {elements : List Octets} {retained : NodeMap} {wanted : List ℕ}
    {v : Octets} {captured : NodeMap} :
    calculateRootCapturing P indices hashes n elements retained wanted = .ok (v, captured) ↔
      ∃ visits, reconstruct (logPar P) n (givenAt (indices.zip hashes)) (above indices)
          (keptAt retained) (height n) 0 elements = some (v, [], visits) ∧
        captured = capture wanted visits fun _ => none := by
  have hh := height_le_of_le_two_pow hn
  have hfst : (indices.zip hashes).map Prod.fst = indices := List.map_fst_zip hlen.le
  have hlt' : ∀ l ∈ indices.zip hashes, l.1 < n := fun l hl =>
    hlt _ (hfst ▸ List.mem_map_of_mem hl)
  have hrec := @recursiveHash_node P n hn _ hlt' retained wanted (height n) 64 0
    elements (fun _ => none) (by omega) le_rfl (by omega)
  rw [hfst] at hrec
  rw [calculateRootCapturing, ensure_of hlen, Result.ok_bind, if_neg (by omega),
    merkleRoot_eq (by omega)]
  rw [leafNodes] at hrec
  rcases hrec with ⟨h₁, e, h₂⟩ | ⟨w, rest, visits, h₁, h₂⟩
  · simp only [h₁, h₂, Result.error_bind]
    simp
  · simp only [h₁, h₂, Result.ok_bind, Result.bind_eq_ok, ensure_eq_ok, Result.pure_eq,
      Except.ok.injEq, Prod.mk.injEq, Option.some.injEq]
    constructor
    · rintro ⟨-, rfl, rfl, rfl⟩
      exact ⟨visits, ⟨rfl, rfl, rfl⟩, rfl⟩
    · rintro ⟨visits', ⟨rfl, rfl, rfl⟩, rfl⟩
      exact ⟨(), rfl, rfl, rfl⟩

end LogVerifier

end KeyTransparency
