/-
# Bisection

The search for the first index of an interval at which a test holds.  Each turn halves
the interval and asks the test once, which may fail.  For a test that never turns false
again the search finds the first index at which it holds, or the end of the interval
(`bisect_eq`).
-/

import Mathlib.Algebra.Order.Ring.Nat

namespace KeyTransparency

variable {ε : Type*}

/-- **Bisection** between two indices, the higher of which is the answer where the test
holds at none of them.  It has a number of turns and gives up with `stuck` after them. -/
def bisect (stuck : ε) (test : ℕ → Except ε Bool) : ℕ → ℕ → ℕ → Except ε ℕ
  | 0, _, _ => .error stuck
  | turns + 1, lo, hi =>
    if lo < hi then do
      let mid := lo + (hi - lo) / 2
      if (← test mid) = true then bisect stuck test turns lo mid
      else bisect stuck test turns (mid + 1) hi
    else .ok lo

variable {stuck : ε} {test : ℕ → Except ε Bool} {p : ℕ → Prop} [DecidablePred p]

/-- **The first index at which the test holds** is what bisection finds: below it the test
fails, and from it on it holds. -/
theorem bisect_eq {first : ℕ} (hbelow : ∀ i < first, ¬ p i) (habove : ∀ i, first ≤ i → p i) :
    ∀ {turns lo hi : ℕ}, hi - lo < 2 ^ turns → lo ≤ first → first ≤ hi →
      (∀ i, lo ≤ i → i < hi → test i = .ok (decide (p i))) →
      bisect stuck test (turns + 1) lo hi = .ok first := by
  intro turns
  induction turns with
  | zero =>
    intro lo hi hturns hlo hhi _
    rw [bisect, if_neg (by omega), show lo = first by omega]
  | succ turns ih =>
    intro lo hi hturns hlo hhi htest
    rw [Nat.pow_succ] at hturns
    rw [bisect]
    split_ifs with hlt
    · dsimp only
      rw [htest _ (by omega) (by omega)]
      change (if decide (p (lo + (hi - lo) / 2)) = true then _ else _) = _
      by_cases hp : p (lo + (hi - lo) / 2)
      · have hfirst : first ≤ lo + (hi - lo) / 2 := Nat.not_lt.1 fun hlt => hbelow _ hlt hp
        rw [if_pos (decide_eq_true hp)]
        exact ih (by omega) hlo hfirst fun i hi hi' => htest i hi (by omega)
      · have hfirst : lo + (hi - lo) / 2 < first := Nat.not_le.1 fun hle => hp (habove _ hle)
        rw [if_neg (by simpa using hp)]
        exact ih (by omega) (by omega) hhi fun i hi hi' => htest i (by omega) hi'
    · rw [show lo = first by omega]

end KeyTransparency
