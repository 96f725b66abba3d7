/-
# Binary ladders

`src/tree/binary_ladder.rs`: the versions of a label whose presence or absence shows
which version is the greatest.  A ladder asks for `0, 1, 3, 7, …` up to an absent
version and then bisects; it is the path of one probe tree (`baseBinaryLadder_eq`),
and the ladder of a search ends where the searched version is decided
(`searchBinaryLadder_eq`).
-/

import KeyTransparency.Library.ProbeTree
import Mathlib.Tactic.Ring
import Mathlib.Tactic.SplitIfs

namespace KeyTransparency

namespace BinaryLadder

/-- `u32::MAX`. -/
def maxVersion : ℕ := 2 ^ 32 - 1

/-- `2^k - 1`, capped at the greatest version. -/
def ladderValue (k : ℕ) : ℕ := if maxVersion < 1 <<< k - 1 then maxVersion else 1 <<< k - 1

/-- The loop over the powers of two minus one. -/
def powersLoop (n : ℕ) : ℕ → List ℕ → List ℕ
  | 0, out => out
  | fuel + 1, out =>
    let value := ladderValue out.length
    if out.getLast? = some value then out
    else if n < value ∨ value = maxVersion then out ++ [value]
    else powersLoop n fuel (out ++ [value])

/-- The binary search between the bounds. -/
def bisectLoop (n : ℕ) : ℕ → ℕ → ℕ → List ℕ → List ℕ
  | 0, _, _, out => out
  | fuel + 1, lowerBound, upperBound, out =>
    if lowerBound < upperBound ∧ 1 < upperBound - lowerBound then
      let value := lowerBound + (upperBound - lowerBound) / 2
      if value ≤ n then bisectLoop n fuel value upperBound (out ++ [value])
      else bisectLoop n fuel lowerBound value (out ++ [value])
    else out

def baseBinaryLadder (n : ℕ) : List ℕ :=
  let out := powersLoop n 34 []
  match out.reverse with
  | upperBound :: lowerBound :: _ =>
    if n < upperBound then bisectLoop n 32 lowerBound upperBound out else out
  | _ => out

/-- Whether the search for `t` ends at a version, by its presence. -/
def searchEnds (t v : ℕ) (present : Bool) : Bool := if present then t < v else v ≤ t

/-- Target version `t`, greatest version existing in the given prefix tree `n`. -/
def searchBinaryLadder (t n : ℕ) (leftInclusion rightNonInclusion : List ℕ) : List ℕ :=
  let out := baseBinaryLadder n
  let stop := (out.findIdx? fun v => (v ≤ n ∧ t < v) ∨ (n < v ∧ v ≤ t)).elim out.length (· + 1)
  (out.take stop).filter fun v => v ∉ leftInclusion ∧ v ∉ rightNonInclusion

/-- The monitored version of the label is `t`. -/
def monitoringBinaryLadder (t : ℕ) (leftInclusion : List ℕ) : List ℕ :=
  (baseBinaryLadder t).filter fun v => v ≤ t ∧ v ∉ leftInclusion

/-! ### As a probe tree -/

def bisectTree : ℕ → ℕ → ℕ → ProbeTree
  | 0, _, _ => .done
  | fuel + 1, lower, upper =>
    if lower + 1 < upper then
      .probe (lower + (upper - lower) / 2)
        (bisectTree fuel (lower + (upper - lower) / 2) upper)
        (bisectTree fuel lower (lower + (upper - lower) / 2))
    else .done

def powersTree : ℕ → ℕ → ProbeTree
  | 0, _ => .done
  | fuel + 1, k =>
    .probe (ladderValue k)
      (if ladderValue k = maxVersion then .done else powersTree fuel (k + 1))
      (if k = 0 then .done else bisectTree 32 (ladderValue (k - 1)) (ladderValue k))

/-- The ladder of all labels. -/
def ladder : ProbeTree := powersTree 33 0

theorem ladderValue_of_le {k : ℕ} (hk : k ≤ 32) : ladderValue k = 2 ^ k - 1 := by
  have := Nat.pow_le_pow_right (show 0 < 2 by omega) hk
  rw [ladderValue, Nat.one_shiftLeft, if_neg (by unfold maxVersion; omega)]

theorem ladderValue_eq_max {k : ℕ} (hk : k ≤ 32) : ladderValue k = maxVersion ↔ k = 32 := by
  rw [ladderValue_of_le hk, maxVersion]
  constructor
  · intro h
    by_contra hne
    have := Nat.pow_le_pow_right (show 0 < 2 by omega) (show k ≤ 31 by omega)
    have := Nat.two_pow_pos k
    omega
  · rintro rfl
    rfl

theorem ladderValue_lt {j k : ℕ} (hj : j < k) (hk : k ≤ 32) : ladderValue j < ladderValue k := by
  rw [ladderValue_of_le (by omega), ladderValue_of_le hk]
  have := Nat.pow_lt_pow_right (show 1 < 2 by omega) hj
  have := Nat.two_pow_pos j
  omega

theorem bisectLoop_eq {n : ℕ} : ∀ {fuel lower upper : ℕ} {out : List ℕ},
    bisectLoop n fuel lower upper out =
      out ++ (bisectTree fuel lower upper).path (decide <| · ≤ n)
  | 0, _, _, out => by simp [bisectLoop, bisectTree, ProbeTree.path]
  | fuel + 1, lower, upper, out => by
    rw [bisectLoop, bisectTree]
    by_cases h : lower + 1 < upper
    · rw [if_pos (by omega), if_pos h, ProbeTree.path]
      simp only [decide_eq_true_eq]
      split_ifs with hv
      · rw [bisectLoop_eq, List.append_assoc, List.singleton_append]
      · rw [bisectLoop_eq, List.append_assoc, List.singleton_append]
    · rw [if_neg (by omega), if_neg h, ProbeTree.path, List.append_nil]

/-- The powers of two minus one below an exponent. -/
def powers (k : ℕ) : List ℕ := (List.range k).map ladderValue

theorem powers_succ (k : ℕ) : powers (k + 1) = powers k ++ [ladderValue k] := by
  rw [powers, List.range_succ, List.map_append]
  rfl

/-- What `base_binary_ladder` does after its first loop. -/
def finishLadder (n : ℕ) (out : List ℕ) : List ℕ :=
  match out.reverse with
  | upperBound :: lowerBound :: _ =>
    if n < upperBound then bisectLoop n 32 lowerBound upperBound out else out
  | _ => out

theorem finishLadder_powers {n k : ℕ} :
    finishLadder n (powers (k + 1)) = powers (k + 1) ++
      if n < ladderValue k then
        (if k = 0 then ProbeTree.done else bisectTree 32 (ladderValue (k - 1)) (ladderValue k)).path
          (decide <| · ≤ n)
      else [] := by
  cases k with
  | zero => simp [finishLadder, powers, ProbeTree.path]
  | succ k =>
    have hrev : (powers (k + 1 + 1)).reverse =
        ladderValue (k + 1) :: ladderValue k :: (powers k).reverse := by
      rw [powers_succ, powers_succ, List.reverse_append, List.reverse_append]
      rfl
    rw [finishLadder, hrev]
    dsimp only
    rw [if_neg (Nat.succ_ne_zero k), Nat.succ_sub_one]
    split_ifs with h
    · rw [bisectLoop_eq]
    · rw [List.append_nil]

theorem finishLadder_powersLoop {n : ℕ} : ∀ {fuel k : ℕ}, fuel + k = 33 → 0 < fuel →
    finishLadder n (powersLoop n (fuel + 1) (powers k)) =
      powers k ++ (powersTree fuel k).path (decide <| · ≤ n)
  | 0, _, _, h => absurd h (by omega)
  | fuel + 1, k, hk, _ => by
    have hlen : (powers k).length = k := by simp [powers]
    have hlast : (powers k).getLast? ≠ some (ladderValue k) := by
      cases k with
      | zero => simp [powers]
      | succ j =>
        rw [powers_succ, List.getLast?_concat]
        have := ladderValue_lt (show j < j + 1 by omega) (by omega)
        exact fun h => absurd (Option.some.inj h) (by omega)
    rw [powersLoop, hlen, if_neg hlast, ← powers_succ, powersTree, ProbeTree.path]
    by_cases hn : n < ladderValue k
    · rw [if_pos (.inl hn), finishLadder_powers, if_pos hn,
        if_neg (show ¬ decide (ladderValue k ≤ n) = true by simpa using hn), powers_succ, List.append_assoc, List.singleton_append]
    · rw [if_pos (show decide (ladderValue k ≤ n) = true by simpa using hn)]
      by_cases hmax : ladderValue k = maxVersion
      · rw [if_pos (.inr hmax), if_pos hmax, finishLadder_powers, if_neg hn, List.append_nil,
          ProbeTree.path, powers_succ]
      · have hk32 := mt (ladderValue_eq_max (show k ≤ 32 by omega)).2 hmax
        rw [if_neg (by tauto), if_neg hmax, finishLadder_powersLoop (by omega) (by omega),
          powers_succ, List.append_assoc, List.singleton_append]

/-- **A base ladder** is the path of the ladder on which exactly the versions up to
its target exist. -/
theorem baseBinaryLadder_eq (n : ℕ) : baseBinaryLadder n = ladder.path (decide <| · ≤ n) :=
  finishLadder_powersLoop (k := 0) rfl (by omega)

/-- **A search ladder** ends at the version that decides the search. -/
theorem searchBinaryLadder_eq (t n : ℕ) :
    searchBinaryLadder t n [] [] = ladder.cut (decide <| · ≤ n) (searchEnds t) := by
  have hstop : (fun v => decide ((v ≤ n ∧ t < v) ∨ (n < v ∧ v ≤ t))) =
      fun v => searchEnds t v (decide (v ≤ n)) := by
    funext v
    by_cases h : v ≤ n
    · simp [searchEnds, h, Nat.not_lt.2 h]
    · simp [searchEnds, h, Nat.not_le.1 h]
  rw [searchBinaryLadder, baseBinaryLadder_eq, ProbeTree.cut_eq_take]
  simp only [hstop, List.not_mem_nil, not_false_eq_true, and_self, decide_true, List.filter_true]

/-! ### What a ladder decides -/

theorem mem_bisectTree_path {answer : ℕ → Bool} {v : ℕ} : ∀ {fuel lower upper : ℕ},
    v ∈ (bisectTree fuel lower upper).path answer → lower < v ∧ v < upper
  | 0, _, _, h => by simp [bisectTree, ProbeTree.path] at h
  | fuel + 1, lower, upper, h => by
    rw [bisectTree] at h
    split_ifs at h with hlt
    · rw [ProbeTree.path, List.mem_cons] at h
      rcases h with rfl | h
      · omega
      · split_ifs at h
        · have := mem_bisectTree_path h
          omega
        · have := mem_bisectTree_path h
          omega
    · simp [ProbeTree.path] at h

theorem mem_powersTree_path {answer : ℕ → Bool} {v : ℕ} : ∀ {fuel k : ℕ}, fuel + k = 33 →
    v ∈ (powersTree fuel k).path answer → v ≤ maxVersion
  | 0, k, _, h => by simp [powersTree, ProbeTree.path] at h
  | fuel + 1, k, hk, h => by
    have hvalue : ladderValue k ≤ maxVersion := by
      have := Nat.pow_le_pow_right (show 0 < 2 by omega) (show k ≤ 32 by omega)
      rw [ladderValue_of_le (by omega), maxVersion]
      omega
    rw [powersTree, ProbeTree.path, List.mem_cons] at h
    rcases h with rfl | h
    · exact hvalue
    · split_ifs at h with hans hmax hk0
      · simp [ProbeTree.path] at h
      · exact mem_powersTree_path (by omega) h
      · simp [ProbeTree.path] at h
      · exact (mem_bisectTree_path h).2.le.trans hvalue

/-- A ladder looks up versions only. -/
theorem mem_ladder_path {answer : ℕ → Bool} {v : ℕ} (h : v ∈ ladder.path answer) :
    v ≤ maxVersion :=
  mem_powersTree_path rfl h

/-- A bisection finds its target, unless that is the lower bound. -/
theorem mem_bisectTree_self {t : ℕ} : ∀ {fuel lower upper : ℕ}, upper - lower ≤ 2 ^ fuel →
    lower < t → t < upper → t ∈ (bisectTree fuel lower upper).path (decide <| · ≤ t)
  | 0, lower, upper, h, h₁, h₂ => by
    rw [pow_zero] at h
    omega
  | fuel + 1, lower, upper, h, h₁, h₂ => by
    have e : 2 ^ (fuel + 1) = 2 ^ fuel * 2 := pow_succ 2 fuel
    rw [bisectTree, if_pos (by omega), ProbeTree.path, List.mem_cons]
    rcases Nat.lt_trichotomy t (lower + (upper - lower) / 2) with hv | hv | hv
    · rw [if_neg (by simpa using hv)]
      exact .inr (mem_bisectTree_self (by omega) h₁ hv)
    · exact .inl hv
    · rw [if_pos (by simpa using hv.le)]
      exact .inr (mem_bisectTree_self (by omega) hv h₂)

theorem mem_powersTree_self {t : ℕ} (ht : t ≤ maxVersion) : ∀ {fuel k : ℕ}, fuel + k = 33 →
    0 < fuel → (k ≠ 0 → ladderValue (k - 1) < t) →
    t ∈ (powersTree fuel k).path (decide <| · ≤ t)
  | 0, _, _, h, _ => absurd h (by omega)
  | fuel + 1, k, hk, _, hlow => by
    rw [powersTree, ProbeTree.path, List.mem_cons]
    rcases Nat.lt_trichotomy t (ladderValue k) with hv | hv | hv
    · rw [if_neg (by simpa using hv)]
      refine .inr ?_
      have hk0 : k ≠ 0 := by
        rintro rfl
        simp [ladderValue] at hv
      rw [if_neg hk0]
      refine mem_bisectTree_self ?_ (hlow hk0) hv
      have h₁ := ladderValue_of_le (show k ≤ 32 by omega)
      have h₂ := Nat.pow_le_pow_right (show 0 < 2 by omega) (show k ≤ 32 by omega)
      omega
    · exact .inl hv
    · rw [if_pos (by simpa using hv.le)]
      refine .inr ?_
      have hmax : ladderValue k ≠ maxVersion := by omega
      have hk32 := mt (ladderValue_eq_max (show k ≤ 32 by omega)).2 hmax
      rw [if_neg hmax]
      exact mem_powersTree_self ht (by omega) (by omega) fun _ => hv

/-- **A base ladder shows its own target.** -/
theorem mem_baseBinaryLadder_self {t : ℕ} (ht : t < 2 ^ 32) : t ∈ baseBinaryLadder t := by
  rw [baseBinaryLadder_eq]
  exact mem_powersTree_self (by unfold maxVersion; omega) rfl (by omega) fun h => absurd rfl h

/-- **A search ladder is the beginning of the base ladder** of its target, whatever
exists. -/
theorem cut_beginning_baseBinaryLadder (answer : ℕ → Bool) (t : ℕ) :
    ladder.cut answer (searchEnds t) <+: baseBinaryLadder t := by
  rw [baseBinaryLadder_eq]
  refine ProbeTree.cut_beginning_path (fun v hv => ?_) ladder
  cases hans : answer v
  · rw [hans] at hv
    simpa [searchEnds] using hv
  · rw [hans] at hv
    simpa [searchEnds] using hv

theorem nodup_bisectTree_path {answer : ℕ → Bool} : ∀ {fuel lower upper : ℕ},
    ((bisectTree fuel lower upper).path answer).Nodup
  | 0, _, _ => by simp [bisectTree, ProbeTree.path]
  | fuel + 1, lower, upper => by
    rw [bisectTree]
    split_ifs
    · rw [ProbeTree.path, List.nodup_cons]
      split_ifs
      · exact ⟨fun h => absurd (mem_bisectTree_path h).1 (lt_irrefl _), nodup_bisectTree_path⟩
      · exact ⟨fun h => absurd (mem_bisectTree_path h).2 (lt_irrefl _), nodup_bisectTree_path⟩
    · exact List.nodup_nil

/-- The ladder goes up to the first absent power, and then between the last two. -/
theorem lt_of_mem_powersTree_path {answer : ℕ → Bool} {v : ℕ} : ∀ {fuel k j : ℕ}, fuel + k = 33 →
    j < k → v ∈ (powersTree fuel k).path answer → ladderValue j < v
  | 0, _, _, _, _, h => by simp [powersTree, ProbeTree.path] at h
  | fuel + 1, k, j, hk, hj, h => by
    rw [powersTree, ProbeTree.path, List.mem_cons] at h
    rcases h with rfl | h
    · exact ladderValue_lt hj (by omega)
    · split_ifs at h with hans hmax hk0
      · simp [ProbeTree.path] at h
      · exact lt_of_mem_powersTree_path (by omega) (by omega) h
      · omega
      · refine lt_of_le_of_lt ?_ (mem_bisectTree_path h).1
        rcases Nat.lt_or_eq_of_le (show j ≤ k - 1 by omega) with hlt | rfl
        · exact (ladderValue_lt hlt (by omega)).le
        · exact le_rfl

theorem nodup_powersTree_path {answer : ℕ → Bool} : ∀ {fuel k : ℕ}, fuel + k = 33 →
    ((powersTree fuel k).path answer).Nodup
  | 0, _, _ => by simp [powersTree, ProbeTree.path]
  | fuel + 1, k, hk => by
    rw [powersTree, ProbeTree.path, List.nodup_cons]
    split_ifs with hans hmax hk0
    · simp [ProbeTree.path]
    · refine ⟨fun h => ?_, nodup_powersTree_path (by omega)⟩
      exact absurd (lt_of_mem_powersTree_path (by omega) (Nat.lt_succ_self k) h) (lt_irrefl _)
    · simp [ProbeTree.path]
    · exact ⟨fun h => absurd (mem_bisectTree_path h).2 (lt_irrefl _), nodup_bisectTree_path⟩

/-- No version is looked up twice. -/
theorem nodup_baseBinaryLadder (t : ℕ) : (baseBinaryLadder t).Nodup := by
  rw [baseBinaryLadder_eq]
  exact nodup_powersTree_path rfl

end BinaryLadder

end KeyTransparency
