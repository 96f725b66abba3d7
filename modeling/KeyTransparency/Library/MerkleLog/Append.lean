/-
# Appending to the peaks of a log

A log can be extended from its peaks alone: the new leaf is a block of level 0, and while
the last two blocks have one level, they are merged into their parent (`carry`).  From
right to left the blocks are a `Spine`, and one whose levels increase is that of the peaks
(`Spine.eq_of_increasing`), so that `carry` makes the peaks of the longer log
(`carry_peaks`).
-/

import KeyTransparency.Library.MerkleLog.Peaks

namespace MerkleLog

variable {V : Type*}

/-- Merges the last two blocks while they have one level.  The blocks stand from right to
left, with their levels. -/
def carry (par : Bool → V → V → V) : List (ℕ × V) → List (ℕ × V)
  | [] => []
  | [c] => [c]
  | (k, r) :: (k', l) :: cs =>
    if k' = k then carry par ((k' + 1, par (k' == 0) l r) :: cs) else (k, r) :: (k', l) :: cs
termination_by cs => cs.length

section

variable {par : Bool → V → V → V} {leaf : ℕ → V} {n : ℕ}

/-- Complete blocks of a log of `n` leaves that stand next to each other, from right to
left, with their values. -/
inductive Spine (par : Bool → V → V → V) (leaf : ℕ → V) (n start : ℕ) : ℕ → List (ℕ × V) → Prop
  | nil : Spine par leaf n start start []
  | cons {k i : ℕ} {cs : List (ℕ × V)} (rest : Spine par leaf n start (i * 2 ^ k) cs)
      (hn : (i + 1) * 2 ^ k ≤ n) :
      Spine par leaf n start ((i + 1) * 2 ^ k) ((k, value par leaf n k i) :: cs)

/-- The levels increase from right to left. -/
def Increasing (cs : List (ℕ × V)) : Prop := cs.Pairwise fun c d => c.1 < d.1

theorem Spine.append {a b c : ℕ} {cs ds : List (ℕ × V)} (hl : Spine par leaf n a b cs)
    (hr : Spine par leaf n b c ds) : Spine par leaf n a c (ds ++ cs) := by
  induction hr with
  | nil => exact hl
  | cons rest hn ih => exact .cons ih hn

/-- A spine from the beginning whose levels are at least `k` ends at a multiple of `2 ^ k`. -/
theorem Spine.dvd {e k : ℕ} {cs : List (ℕ × V)} (h : Spine par leaf n 0 e cs)
    (hk : ∀ c ∈ cs, k ≤ c.1) : 2 ^ k ∣ e := by
  cases h with
  | nil => exact dvd_zero _
  | cons rest hn =>
    have hle := hk _ List.mem_cons_self
    exact (pow_dvd_pow 2 hle).mul_left _

/-- The first level of an increasing spine is told by its end. -/
theorem Spine.odd {k i : ℕ} {cs : List (ℕ × V)} (h : Spine par leaf n 0 (i * 2 ^ k) cs)
    (hk : ∀ c ∈ cs, k < c.1) : ∃ j, i = 2 * j := by
  obtain ⟨j, hj⟩ := h.dvd (k := k + 1) fun c hc => hk c hc
  refine ⟨j, ?_⟩
  have hpos := Nat.two_pow_pos k
  have : i * 2 ^ k = 2 * j * 2 ^ k := by
    rw [hj]
    ring
  exact Nat.eq_of_mul_eq_mul_right hpos this

theorem level_eq_of_odd {k k' j j' : ℕ} (h : (2 * j + 1) * 2 ^ k = (2 * j' + 1) * 2 ^ k') : k = k' := by
  have key : ∀ {k k' j j' : ℕ}, (2 * j + 1) * 2 ^ k = (2 * j' + 1) * 2 ^ k' → ¬ k < k' := by
    intro k k' j j' h hlt
    obtain ⟨d, rfl⟩ := Nat.exists_eq_add_of_lt hlt
    have heq : (2 * j + 1) * 2 ^ k = 2 * ((2 * j' + 1) * 2 ^ d) * 2 ^ k := by
      rw [h]
      ring
    have := Nat.eq_of_mul_eq_mul_right (Nat.two_pow_pos k) heq
    omega
  exact le_antisymm (not_lt.1 (key h.symm)) (not_lt.1 (key h))

/-- **There is one increasing spine** with a given end. -/
theorem Spine.eq_of_increasing {e : ℕ} {cs ds : List (ℕ × V)} (hc : Spine par leaf n 0 e cs)
    (hd : Spine par leaf n 0 e ds) (ic : Increasing cs) (id : Increasing ds) : cs = ds := by
  induction cs generalizing e ds with
  | nil =>
    cases hc
    generalize he : 0 = e at hd
    cases hd with
    | nil => rfl
    | cons rest hn =>
      have := Nat.mul_pos (Nat.succ_pos _) (Nat.two_pow_pos _) |>.trans_eq he.symm
      omega
  | cons c cs ih =>
    obtain ⟨k, v⟩ := c
    obtain ⟨hk, ic'⟩ := List.pairwise_cons.1 ic
    generalize he : e = e' at hd
    cases hc with
    | @cons _ i _ rest hn =>
      have hpos : 0 < (i + 1) * 2 ^ k := Nat.mul_pos (Nat.succ_pos _) (Nat.two_pow_pos _)
      cases hd with
      | nil => omega
      | @cons k' i' _ rest' hn' =>
        obtain ⟨hk', id'⟩ := List.pairwise_cons.1 id
        obtain ⟨j, rfl⟩ := rest.odd hk
        obtain ⟨j', rfl⟩ := rest'.odd hk'
        obtain rfl := level_eq_of_odd he
        have hj := Nat.eq_of_mul_eq_mul_right (Nat.two_pow_pos k) he
        obtain rfl : j = j' := by omega
        rw [ih rest rest' ic' id']

/-- **Carrying** keeps the end of a spine and makes its levels increase. -/
theorem carry_spine {e : ℕ} :
    ∀ {cs : List (ℕ × V)} {k : ℕ} {v : V}, Spine par leaf n 0 e ((k, v) :: cs) → Increasing cs →
      (∀ c ∈ cs, k ≤ c.1) →
      Spine par leaf n 0 e (carry par ((k, v) :: cs)) ∧ Increasing (carry par ((k, v) :: cs))
  | [], k, v, h, _, _ => by
    rw [carry]
    exact ⟨h, List.pairwise_singleton _ _⟩
  | (k', l) :: cs, k, v, h, hi, hle => by
    obtain ⟨hk', hi'⟩ := List.pairwise_cons.1 hi
    rw [carry]
    split_ifs with hk
    · subst hk
      have hmerged : Spine par leaf n 0 e ((k' + 1, par (k' == 0) l v) :: cs) := by
        generalize hcs : (k', v) :: (k', l) :: cs = ds at h
        cases h with
        | nil => cases hcs
        | @cons k₀ i _ rest hn =>
          obtain ⟨h₁, rfl⟩ := List.cons.inj hcs
          obtain ⟨rfl, rfl⟩ := Prod.mk.inj h₁
          generalize he : i * 2 ^ k' = e' at rest
          generalize hds : (k', l) :: cs = ds at rest
          cases rest with
          | nil => cases hds
          | @cons k₁ i' _ rest' hn' =>
            obtain ⟨h₂, rfl⟩ := List.cons.inj hds
            obtain ⟨rfl, rfl⟩ := Prod.mk.inj h₂
            obtain ⟨j, rfl⟩ := rest'.odd hk'
            have hi := Nat.eq_of_mul_eq_mul_right (Nat.two_pow_pos k') he
            subst hi
            obtain ⟨e₀, e₁, e₂, e₃⟩ := block_halves k' j
            have hpos := Nat.two_pow_pos k'
            have hval : par (k' == 0) (value par leaf n k' (2 * j)) (value par leaf n k' (2 * j + 1)) =
                value par leaf n (k' + 1) j := (value_succ_of_lt (by omega)).symm
            rw [hval, show (2 * j + 1 + 1) * 2 ^ k' = (j + 1) * 2 ^ (k' + 1) by omega]
            rw [e₀] at rest'
            exact .cons rest' (by omega)
      exact carry_spine hmerged hi' hk'
    · have hlt : k < k' := Nat.lt_of_le_of_ne (hle _ List.mem_cons_self) (Ne.symm hk)
      exact ⟨h, List.pairwise_cons.2 ⟨List.forall_mem_cons.2
        ⟨hlt, fun c hc => hlt.trans (hk' c hc)⟩, hi⟩⟩
termination_by cs => cs.length

/-- The peaks below a node are a spine. -/
theorem spine_peaksFrom {m : ℕ} (hm : m ≤ n) :
    ∀ {k i : ℕ}, i * 2 ^ k < m →
      Spine par leaf n (i * 2 ^ k) (min m ((i + 1) * 2 ^ k))
        ((peaksFrom m k i).map fun c => (c.1, value par leaf n c.1 c.2)).reverse
  | 0, i, h => by
    have hend : min m ((i + 1) * 2 ^ 0) = (i + 1) * 2 ^ 0 := by omega
    rw [peaksFrom, if_pos (by omega), hend]
    exact .cons .nil (by omega)
  | k + 1, i, h => by
    obtain ⟨e₀, e₁, e₂, e₃⟩ := block_halves k i
    rw [peaksFrom]
    split_ifs with c₁ c₂
    · rw [Nat.min_eq_right c₁]
      exact .cons .nil (by omega)
    · have hr := spine_peaksFrom hm c₂
      have hl : Spine par leaf n (2 * i * 2 ^ k) ((2 * i + 1) * 2 ^ k)
          [(k, value par leaf n k (2 * i))] := .cons .nil (by omega)
      have happ := hl.append hr
      rw [List.map_cons, List.reverse_cons]
      rw [e₀, show min m ((2 * i + 1 + 1) * 2 ^ k) = min m ((i + 1) * 2 ^ (k + 1)) by omega] at happ
      exact happ
    · have hl := spine_peaksFrom hm (show 2 * i * 2 ^ k < m by omega)
      rw [e₀, show min m ((2 * i + 1) * 2 ^ k) = min m ((i + 1) * 2 ^ (k + 1)) by omega] at hl
      exact hl

/-- The levels and values of the peaks, from right to left. -/
def peakSpine (par : Bool → V → V → V) (leaf : ℕ → V) (n m : ℕ) : List (ℕ × V) :=
  if m = 0 then [] else ((peaks m).map fun c => (c.1, value par leaf n c.1 c.2)).reverse

theorem peakSpine_spine {m : ℕ} (hm : m ≤ n) : Spine par leaf n 0 m (peakSpine par leaf n m) := by
  rw [peakSpine]
  split_ifs with h
  · rw [h]
    exact .nil
  · have hs : Spine par leaf n (0 * 2 ^ height m) (min m ((0 + 1) * 2 ^ height m))
        ((peaksFrom m (height m) 0).map fun c => (c.1, value par leaf n c.1 c.2)).reverse :=
      spine_peaksFrom hm (by omega)
    rw [Nat.zero_mul, Nat.zero_add, Nat.one_mul, Nat.min_eq_left (le_two_pow_height m)] at hs
    exact hs

/-- The peaks' values depend on the leaves below them only. -/
theorem peakSpine_congr {leaf' : ℕ → V} {n' m : ℕ} (hm : m ≤ n) (hm' : m ≤ n')
    (h : ∀ p < m, leaf p = leaf' p) : peakSpine par leaf n m = peakSpine par leaf' n' m := by
  rw [peakSpine, peakSpine]
  split_ifs with h₀
  · rfl
  · congr 1
    refine List.map_congr_left fun c hc => ?_
    have hle := (mem_peaksFrom hc).1
    have hlt : c.2 * 2 ^ c.1 < (c.2 + 1) * 2 ^ c.1 :=
      Nat.mul_lt_mul_of_pos_right (Nat.lt_succ_self _) (Nat.two_pow_pos _)
    rw [value_of_complete (hle.trans hm) (hle.trans hm'),
      value_congr (hlt.trans_le (hle.trans hm')) fun p _ hp _ => h p (hp.trans_le hle)]

theorem peakSpine_increasing (m : ℕ) : Increasing (peakSpine par leaf n m) := by
  rw [peakSpine]
  split_ifs
  · exact List.Pairwise.nil
  · exact List.pairwise_reverse.2 (List.pairwise_map.2 peaksFrom_levels)

/-- **Appending a leaf** to the peaks. -/
theorem carry_peaks {m : ℕ} (hm : m < n) :
    carry par ((0, leaf m) :: peakSpine par leaf n m) = peakSpine par leaf n (m + 1) := by
  have hs : Spine par leaf n 0 ((m + 1) * 2 ^ 0) ((0, value par leaf n 0 m) :: peakSpine par leaf n m) :=
    .cons (by simpa using peakSpine_spine hm.le) (by omega)
  rw [pow_zero, Nat.mul_one] at hs
  obtain ⟨h₁, h₂⟩ := carry_spine hs (peakSpine_increasing m) fun _ _ => Nat.zero_le _
  exact h₁.eq_of_increasing (peakSpine_spine hm) h₂ (peakSpine_increasing _)

end

end MerkleLog
