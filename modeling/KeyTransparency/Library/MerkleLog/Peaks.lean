/-
# The maximal complete subtrees of an append-only Merkle tree

The leaves of a log of `m` leaves split into complete subtrees, one for each bit
of `m` (`peaks`).  Their values are all that is needed to go on from there: they
determine the value of the log (`foldPeaks_peaks`) and stay as they are while the
log grows.

`mem_walk_above` says which nodes a verifier reaches: those whose parent is above
a given leaf.
-/

import KeyTransparency.Library.MerkleLog.Reconstruct

namespace MerkleLog

variable {V : Type*}

instance instLawfulBEqNode : LawfulBEq (ℕ × ℕ) := inferInstance

/-! ### Peaks -/

/-- The maximal complete subtrees below the node at level `k` and block `i` of a
log of `m` leaves, from left to right. -/
def peaksFrom (m : ℕ) : ℕ → ℕ → List (ℕ × ℕ)
  | 0, i => if i < m then [(0, i)] else []
  | k + 1, i =>
    if (i + 1) * 2 ^ (k + 1) ≤ m then [(k + 1, i)]
    else if (2 * i + 1) * 2 ^ k < m then (k, 2 * i) :: peaksFrom m k (2 * i + 1)
    else peaksFrom m k (2 * i)

/-- The maximal complete subtrees of a log of `m` leaves. -/
def peaks (m : ℕ) : List (ℕ × ℕ) := peaksFrom m (height m) 0

theorem peaksFrom_of_complete {m k i : ℕ} (h : (i + 1) * 2 ^ k ≤ m) :
    peaksFrom m k i = [(k, i)] := by
  cases k with
  | zero => rw [peaksFrom, if_pos (by omega)]
  | succ k => rw [peaksFrom, if_pos h]

/-- A peak is complete, and lies below the node it was looked for under. -/
theorem mem_peaksFrom {m k' i' : ℕ} :
    ∀ {k i : ℕ}, (k', i') ∈ peaksFrom m k i →
      (i' + 1) * 2 ^ k' ≤ m ∧ i * 2 ^ k ≤ i' * 2 ^ k' ∧ (i' + 1) * 2 ^ k' ≤ (i + 1) * 2 ^ k
  | 0, i, h => by
    rw [peaksFrom] at h
    split_ifs at h
    · simp only [List.mem_singleton, Prod.mk.injEq] at h
      obtain ⟨rfl, rfl⟩ := h
      omega
    · simp at h
  | k + 1, i, h => by
    obtain ⟨e₀, e₁, e₂, e₃⟩ := block_halves k i
    rw [peaksFrom] at h
    split_ifs at h with h₁ h₂
    · simp only [List.mem_singleton, Prod.mk.injEq] at h
      obtain ⟨rfl, rfl⟩ := h
      omega
    · rcases List.mem_cons.1 h with h | h
      · simp only [Prod.mk.injEq] at h
        obtain ⟨rfl, rfl⟩ := h
        omega
      · have := mem_peaksFrom h
        omega
    · have := mem_peaksFrom h
      omega

/-- The parent of a peak is cut by the end of the log. -/
theorem mem_peaksFrom_parent {m k' i' : ℕ} :
    ∀ {k i : ℕ}, (k', i') ∈ peaksFrom m k i → i * 2 ^ k < m → (k', i') ≠ (k, i) →
      i' / 2 * 2 ^ (k' + 1) < m ∧ m < (i' / 2 + 1) * 2 ^ (k' + 1)
  | 0, i, h, hi, hne => by
    rw [peaksFrom] at h
    split_ifs at h
    · exact absurd (List.mem_singleton.1 h) hne
    · simp at h
  | k + 1, i, h, hi, hne => by
    obtain ⟨e₀, e₁, e₂, e₃⟩ := block_halves k i
    rw [peaksFrom] at h
    split_ifs at h with h₁ h₂
    · exact absurd (List.mem_singleton.1 h) hne
    · rcases List.mem_cons.1 h with h | h
      · simp only [Prod.mk.injEq] at h
        obtain ⟨rfl, rfl⟩ := h
        rw [Nat.mul_div_cancel_left _ (by omega : 0 < 2)]
        omega
      · by_cases he : (k', i') = (k, 2 * i + 1)
        · simp only [Prod.mk.injEq] at he
          obtain ⟨rfl, rfl⟩ := he
          rw [show (2 * i + 1) / 2 = i by omega]
          omega
        · exact mem_peaksFrom_parent h h₂ he
    · by_cases he : (k', i') = (k, 2 * i)
      · simp only [Prod.mk.injEq] at he
        obtain ⟨rfl, rfl⟩ := he
        rw [Nat.mul_div_cancel_left _ (by omega : 0 < 2)]
        omega
      · exact mem_peaksFrom_parent h (by omega) he

/-- Below a node that is cut, the peaks have lower levels. -/
theorem level_lt_of_mem_peaksFrom {m k i : ℕ} {c : ℕ × ℕ} (hc : c ∈ peaksFrom m k i)
    (hcut : m < (i + 1) * 2 ^ k) : c.1 < k := by
  obtain ⟨k', i'⟩ := c
  obtain ⟨h₁, h₂, h₃⟩ := mem_peaksFrom hc
  have hpos := Nat.two_pow_pos k'
  have hlt : 2 ^ k' < 2 ^ k := by
    rw [Nat.add_one_mul] at *
    omega
  exact (Nat.pow_lt_pow_iff_right (by omega : 1 < 2)).1 hlt

/-- **The levels of the peaks decrease.** -/
theorem peaksFrom_levels {m : ℕ} :
    ∀ {k i : ℕ}, (peaksFrom m k i).Pairwise fun c d => d.1 < c.1
  | 0, i => by
    rw [peaksFrom]
    split_ifs <;> simp
  | k + 1, i => by
    obtain ⟨e₀, e₁, e₂, e₃⟩ := block_halves k i
    rw [peaksFrom]
    split_ifs
    · exact List.pairwise_singleton _ _
    · exact List.pairwise_cons.2
        ⟨fun d hd => level_lt_of_mem_peaksFrom hd (show m < (2 * i + 1 + 1) * 2 ^ k by omega),
          peaksFrom_levels⟩
    · exact peaksFrom_levels

/-- The last leaf below a peak is in the block of the peak's parent, which the log
does not fill. -/
theorem last_div_parent {m k i : ℕ} (h : (k, i) ∈ peaks m) (hm : 0 < m) :
    (m - 1) / 2 ^ (k + 1) = i / 2 := by
  have hlow := mem_peaksFrom h
  have hpos := Nat.two_pow_pos k
  by_cases he : (k, i) = (height m, 0)
  · obtain ⟨rfl, rfl⟩ := Prod.mk.inj he
    have := le_two_pow_height m
    rw [Nat.zero_div, Nat.div_eq_of_lt]
    rw [pow_succ]
    omega
  · have := mem_peaksFrom_parent h (by omega) he
    exact div_two_pow_eq_iff.2 (by omega)

/-- Of two siblings at most the left one is a peak. -/
theorem sibling_not_mem_peaks {m k j : ℕ} (h : (k, 2 * j) ∈ peaks m) (hm : 0 < m) :
    (k, 2 * j + 1) ∉ peaks m := fun h' => by
  obtain ⟨e₀, e₁, e₂, e₃⟩ := block_halves k j
  have hpos := Nat.two_pow_pos k
  have hfull := (mem_peaksFrom h').1
  by_cases he : (k, 2 * j) = (height m, 0)
  · obtain ⟨rfl, hj⟩ := Prod.mk.inj he
    have := le_two_pow_height m
    omega
  · have := (mem_peaksFrom_parent h (by omega) he).2
    rw [Nat.mul_div_cancel_left _ (by omega : 0 < 2)] at this
    omega

/-- **The peaks cover the log.** -/
theorem exists_peak {m p : ℕ} (hp : p < m) :
    ∀ {k i : ℕ}, i * 2 ^ k ≤ p → p < (i + 1) * 2 ^ k →
      ∃ c ∈ peaksFrom m k i, p / 2 ^ c.1 = c.2
  | 0, i, h₁, h₂ => by
    obtain rfl : p = i := by omega
    exact ⟨(0, p), by rw [peaksFrom, if_pos hp]; simp, by simp⟩
  | k + 1, i, h₁, h₂ => by
    obtain ⟨e₀, e₁, e₂, e₃⟩ := block_halves k i
    rw [peaksFrom]
    split_ifs with c₁ c₂
    · exact ⟨_, List.mem_singleton_self _, div_two_pow_eq_iff.2 ⟨h₁, h₂⟩⟩
    · by_cases hl : p < (2 * i + 1) * 2 ^ k
      · exact ⟨(k, 2 * i), List.mem_cons_self, div_two_pow_eq_iff.2 (by dsimp only; omega)⟩
      · obtain ⟨c, hc, h⟩ := exists_peak hp (k := k) (i := 2 * i + 1) (by omega) (by omega)
        exact ⟨c, List.mem_cons_of_mem _ hc, h⟩
    · exact exists_peak hp (by omega) (by omega)

theorem exists_mem_peaks {m p : ℕ} (hp : p < m) : ∃ c ∈ peaks m, p / 2 ^ c.1 = c.2 :=
  exists_peak hp (by omega) (by have := le_two_pow_height m; omega)

/-- The value of a log from the values of its peaks. -/
def foldPeaks (par : Bool → V → V → V) : List V → Option V
  | [] => none
  | [v] => some v
  | v :: w :: vs => (foldPeaks par (w :: vs)).map (par false v)

theorem foldPeaks_cons {par : Bool → V → V → V} {v w : V} {vs : List V}
    (h : foldPeaks par vs = some w) : foldPeaks par (v :: vs) = some (par false v w) := by
  cases vs with
  | nil => simp [foldPeaks] at h
  | cons u vs => rw [foldPeaks, h, Option.map_some]

/-- **The peaks determine the value of the log.** -/
theorem foldPeaks_peaksFrom {par : Bool → V → V → V} {leaf : ℕ → V} {m : ℕ} :
    ∀ {k i : ℕ}, i * 2 ^ k < m →
      foldPeaks par ((peaksFrom m k i).map fun c => value par leaf m c.1 c.2) =
        some (value par leaf m k i)
  | 0, i, h => by
    rw [peaksFrom, if_pos (by omega)]
    rfl
  | k + 1, i, h => by
    obtain ⟨e₀, e₁, e₂, e₃⟩ := block_halves k i
    rw [peaksFrom]
    split_ifs with c₁ c₂
    · rfl
    · have hk : (k == 0) = false := by
        rw [beq_eq_false_iff_ne]
        rintro rfl
        omega
      rw [List.map_cons, foldPeaks_cons (foldPeaks_peaksFrom c₂), value_succ_of_lt c₂, hk]
    · rw [value_succ_of_le (by omega)]
      exact foldPeaks_peaksFrom (by omega)

theorem foldPeaks_peaks {par : Bool → V → V → V} {leaf : ℕ → V} {m : ℕ} (hm : 0 < m) :
    foldPeaks par ((peaks m).map fun c => value par leaf m c.1 c.2) = some (root par leaf m) :=
  foldPeaks_peaksFrom (by omega)

theorem foldPeaks_digest {S : HashScheme V} : ∀ {vs : List V} {w : V}, (∀ v ∈ vs, S.Digest v) →
    foldPeaks S.par vs = some w → S.Digest w
  | [], w, _, h => by simp [foldPeaks] at h
  | [v], w, hd, h => by
    obtain rfl := Option.some.inj h
    exact hd v List.mem_cons_self
  | v :: v' :: vs, w, hd, h => by
    rw [foldPeaks, Option.map_eq_some_iff] at h
    obtain ⟨w', -, rfl⟩ := h
    exact S.par_digest _ _ _

/-- **The value of a log determines its peaks**, their number being known. -/
theorem foldPeaks_inj {S : HashScheme V} : ∀ {vs ws : List V} {u : V}, vs.length = ws.length →
    (∀ v ∈ vs, S.Digest v) → (∀ w ∈ ws, S.Digest w) → foldPeaks S.par vs = some u →
    foldPeaks S.par ws = some u → vs = ws
  | [], [], _, _, _, _, _, _ => rfl
  | [v], [w], u, _, _, _, hv, hw => by
    rw [Option.some.inj hv, Option.some.inj hw]
  | v :: v' :: vs, w :: w' :: ws, u, hlen, hdv, hdw, hv, hw => by
    rw [foldPeaks, Option.map_eq_some_iff] at hv hw
    obtain ⟨x, hx, rfl⟩ := hv
    obtain ⟨y, hy, hxy⟩ := hw
    obtain ⟨-, rfl, rfl⟩ := S.par_inj_left (hdw w List.mem_cons_self) (hdv v List.mem_cons_self) hxy
    rw [foldPeaks_inj (Nat.succ.inj hlen) (fun z hz => hdv z (List.mem_cons_of_mem _ hz))
      (fun z hz => hdw z (List.mem_cons_of_mem _ hz)) hx hy]

/-- The same from the left, when the values are split at the last one. -/
theorem foldPeaks_append_singleton (par : Bool → V → V → V) (vs : List V) (v : V) :
    foldPeaks par (vs ++ [v]) = some (vs.foldr (par false) v) := by
  induction vs with
  | nil => rfl
  | cons w vs ih => exact foldPeaks_cons ih

/-! ### The nodes a verifier reaches -/

/-- A block that starts inside another one of at least its level lies inside it. -/
theorem block_le_of_start {k k' i i' : ℕ} (hk : k' ≤ k) (h : i' * 2 ^ k' < (i + 1) * 2 ^ k) :
    (i' + 1) * 2 ^ k' ≤ (i + 1) * 2 ^ k := by
  obtain ⟨d, rfl⟩ := Nat.exists_eq_add_of_le hk
  have e : (i + 1) * 2 ^ (k' + d) = (i + 1) * 2 ^ d * 2 ^ k' := by ring
  rw [e] at h ⊢
  have := Nat.two_pow_pos k'
  exact Nat.mul_le_mul_right _ (Nat.lt_of_mul_lt_mul_right h)

/-- A block of at most the level of another one does not start before it when it
ends inside. -/
theorem block_start_of_end {k k' i i' : ℕ} (hk : k' ≤ k) (h : i * 2 ^ k < (i' + 1) * 2 ^ k') :
    i * 2 ^ k ≤ i' * 2 ^ k' := by
  obtain ⟨d, rfl⟩ := Nat.exists_eq_add_of_le hk
  have e : i * 2 ^ (k' + d) = i * 2 ^ d * 2 ^ k' := by ring
  rw [e] at h ⊢
  exact Nat.mul_le_mul_right _ (Nat.le_of_lt_succ (Nat.lt_of_mul_lt_mul_right h))

/-- A node above a position that lies in a block is below the node of the block. -/
theorem above_of_block {ps : List ℕ} {k k' i i' : ℕ} (hk : k' ≤ k) (h : above ps k' i' = true)
    (h₁ : i * 2 ^ k ≤ i' * 2 ^ k') (h₂ : i' * 2 ^ k' < (i + 1) * 2 ^ k) : above ps k i = true := by
  obtain ⟨p, hp, hpi⟩ := above_iff.1 h
  have := div_two_pow_eq_iff.1 hpi
  have := block_le_of_start hk h₂
  exact above_iff.2 ⟨p, hp, div_two_pow_eq_iff.2 (by omega)⟩

/-- The block of a node lies in the block of its parent. -/
theorem parent_block (k i : ℕ) :
    i / 2 * 2 ^ (k + 1) ≤ i * 2 ^ k ∧ i * 2 ^ k < (i / 2 + 1) * 2 ^ (k + 1) := by
  have := Nat.two_pow_pos k
  obtain ⟨e₀, e₁, e₂, e₃⟩ := block_halves k (i / 2)
  rcases Nat.mod_two_eq_zero_or_one i with h | h
  · rw [show 2 * (i / 2) = i by omega] at e₀
    omega
  · rw [show 2 * (i / 2) + 1 = i by omega] at e₁
    omega

/-- A node in a block is its node or lies at a lower level. -/
theorem lt_or_eq_of_block {k k' i i' : ℕ} (hk : k' ≤ k) (h₁ : i * 2 ^ k ≤ i' * 2 ^ k')
    (h₂ : i' * 2 ^ k' < (i + 1) * 2 ^ k) : (k', i') = (k, i) ∨ k' < k := by
  rcases Nat.lt_or_ge k' k with h | h
  · exact .inr h
  · obtain rfl : k' = k := by omega
    have := Nat.lt_of_mul_lt_mul_right h₂
    have := Nat.le_of_mul_le_mul_right h₁ (Nat.two_pow_pos k')
    exact .inl (by rw [show i' = i by omega])

/-- **A verifier reaches the nodes whose parent is above a given leaf.** -/
theorem mem_walk_above {n : ℕ} {ps : List ℕ} {k' i' : ℕ} :
    ∀ {k i : ℕ}, i * 2 ^ k < n →
      ((k', i') ∈ walk n (above ps) k i ↔
        (k', i') = (k, i) ∨ k' < k ∧ i * 2 ^ k ≤ i' * 2 ^ k' ∧ i' * 2 ^ k' < (i + 1) * 2 ^ k ∧
          i' * 2 ^ k' < n ∧ above ps (k' + 1) (i' / 2) = true)
  | 0, i, h => by simp [walk]
  | k + 1, i, h => by
    obtain ⟨e₀, e₁, e₂, e₃⟩ := block_halves k i
    have ihl := @mem_walk_above n ps k' i' k (2 * i) (by omega)
    have hpar := parent_block k' i'
    have := Nat.two_pow_pos k
    rw [walk]
    split_ifs with ho hr
    · have ihr := @mem_walk_above n ps k' i' k (2 * i + 1) hr
      rw [List.mem_append, List.mem_append, ihl, ihr, List.mem_singleton]
      constructor
      · rintro (((h | h) | (h | h)) | h)
        · simp only [Prod.mk.injEq] at h
          obtain ⟨rfl, rfl⟩ := h
          rw [Nat.mul_div_cancel_left _ (by omega : 0 < 2)]
          exact .inr ⟨by omega, by omega, by omega, by omega, ho⟩
        · exact .inr ⟨by omega, by omega, by omega, by omega, h.2.2.2.2⟩
        · simp only [Prod.mk.injEq] at h
          obtain ⟨rfl, rfl⟩ := h
          rw [show (2 * i + 1) / 2 = i by omega]
          exact .inr ⟨by omega, by omega, by omega, by omega, ho⟩
        · exact .inr ⟨by omega, by omega, by omega, by omega, h.2.2.2.2⟩
        · exact .inl h
      · rintro (h | ⟨hk, h₁, h₂, h₃, ha⟩)
        · exact .inr h
        · refine .inl ?_
          rcases Nat.lt_or_ge (i' * 2 ^ k') ((2 * i + 1) * 2 ^ k) with hlt | hge
          · exact .inl ((lt_or_eq_of_block (i := 2 * i) (by omega) (by omega) hlt).imp_right
              fun hk' => ⟨hk', by omega, hlt, h₃, ha⟩)
          · exact .inr ((lt_or_eq_of_block (i := 2 * i + 1) (by omega) hge (by omega)).imp_right
              fun hk' => ⟨hk', hge, by omega, h₃, ha⟩)
    · rw [List.mem_append, ihl, List.mem_singleton]
      constructor
      · rintro ((h | h) | h)
        · simp only [Prod.mk.injEq] at h
          obtain ⟨rfl, rfl⟩ := h
          rw [Nat.mul_div_cancel_left _ (by omega : 0 < 2)]
          exact .inr ⟨by omega, by omega, by omega, by omega, ho⟩
        · exact .inr ⟨by omega, by omega, by omega, by omega, h.2.2.2.2⟩
        · exact .inl h
      · rintro (h | ⟨hk, h₁, h₂, h₃, ha⟩)
        · exact .inr h
        · exact .inl ((lt_or_eq_of_block (i := 2 * i) (by omega) (by omega) (by omega)).imp_right
            fun hk' => ⟨hk', by omega, by omega, h₃, ha⟩)
    · rw [List.mem_singleton]
      constructor
      · exact .inl
      · rintro (h | ⟨hk, h₁, h₂, h₃, ha⟩)
        · exact h
        · have hk₂ : k' + 1 ≤ k + 1 := hk
          exact absurd (above_of_block hk₂ ha (block_start_of_end hk₂ (by omega)) (by omega)) ho

end MerkleLog
