/-
# Verification comes to an end

What a client does with a response returns, whatever the response says, up to the
recomputation of the log root: a walk over the implicit tree goes to smaller subtrees of it
(`Block`), and the stack of the walk over the distinguished heads holds disjoint ones.
-/

import KeyTransparency.Client.LadderReturns
import KeyTransparency.Client.LogInclusion
import KeyTransparency.Client.Reads
import KeyTransparency.Tree.SearchPath

namespace KeyTransparency

open InOrder LogMath

/-! ### Walks over the implicit tree -/

section

variable {n : ℕ}

theorem frontierLoop_lt : ∀ {fuel curr p : ℕ}, p ∈ frontierLoop n fuel curr → p < n
  | 0, _, _, h => by cases h
  | fuel + 1, curr, p, h => by
    rw [frontierLoop] at h
    split_ifs at h
    · cases h
    · cases hchild : ibstRightChild curr n with
      | none =>
        rw [hchild] at h
        cases h
      | some r =>
        rw [hchild] at h
        rcases List.mem_cons.1 h with rfl | h
        · exact ibstRightChild_lt hchild
        · exact frontierLoop_lt h

/-- The frontier of any log has its entries, the root first. -/
theorem getFrontier_bounds (h₀ : 0 < n) (hn : n < 2 ^ 64) :
    root n ∈ getFrontier n ∧ ∀ p ∈ getFrontier n, p < n := by
  rw [getFrontier, if_neg (by omega)]
  refine ⟨List.mem_cons_self, fun p hp => ?_⟩
  rcases List.mem_cons.1 hp with rfl | hp
  · exact root_lt h₀ hn
  · exact frontierLoop_lt hp

namespace KtClient

variable (P : Primitives) {material : ℕ → Option (Octets × Option Octets)}

end KtClient

end

/-! ### Searches -/

section

variable {P : Primitives} (hP : P.Return) (c : KtClient) (label : Octets) (target : ℕ)
  (binaryLadder : List BinaryLadderStep) (comm : Octets) {n : ℕ}
include hP

namespace KtClient

theorem verifyEntryLadder_returns (greatest isRightmost : Bool) (entry : ℕ) {s : SearchState}
    (hs : s.ladders.Outputs) :
    (c.verifyEntryLadder P label target binaryLadder comm greatest isRightmost entry s).Returns
      fun r => r.2.ladders.Outputs := by
  refine s.reader.prefixProof_settles.bind ?_
  rintro ⟨pp, reader⟩
  refine (verifyLadderProof_returns hP c label pp binaryLadder target comm greatest isRightmost
    hs).context.bind ?_
  rintro ⟨root, relation, ladders⟩ hladders
  exact (ProofReader.recordEntryRoot_settles _ _ _).bind fun _ => hladders

theorem greatestWalk_returns (rightmost : ℕ) : ∀ (entries : List ℕ) (first : Option ℕ) {s : SearchState},
    s.ladders.Outputs →
    (c.greatestWalk P label target binaryLadder comm rightmost entries first s).Returns
      fun r => r.2.ladders.Outputs
  | [], _, _, hs => hs
  | entry :: entries, _, _, hs =>
    (verifyEntryLadder_returns hP c label target binaryLadder comm true (entry == rightmost) entry
      hs).bind fun _ hs' => greatestWalk_returns rightmost entries _ hs'

/-- One turn of the search for a fixed version goes to a child, or stops. -/
theorem fixedStep_returns (rightmostTs : U64) (curr : ℕ) {w : FixedWalk} (hw : w.ladders.Outputs) :
    (c.fixedStep P label n target binaryLadder comm rightmostTs curr w).Returns fun r =>
      r.2.ladders.Outputs ∧ ∀ entry, r.1 = .goto entry →
        (isLeaf curr = false ∧ entry = leftChild curr) ∨ ibstRightChild curr n = some entry := by
  refine (w.reader.timestamp_settles curr).bind ?_
  rintro ⟨ts, reader⟩
  dsimp only
  have hright : ∀ rc, (if isLeaf curr then none else ibstRightChild curr n) = some rc →
      ibstRightChild curr n = some rc := fun rc h => by
    split_ifs at h
    exact h
  generalize hchild : (if isLeaf curr then none else ibstRightChild curr n) = child at hright
  by_cases hexp : isExpired c.config.maximumLifetime rightmostTs ts = true
  · rw [if_pos hexp]
    cases child with
    | none => exact ⟨hw, fun _ h => by cases h⟩
    | some rc => exact ⟨hw, fun entry h => .inr (by cases h; exact hright rc rfl)⟩
  · rw [if_neg hexp]
    have hs : SearchState.ladders { w.toSearchState with reader := reader } |>.Outputs := hw
    refine (verifyEntryLadder_returns hP c label target binaryLadder comm false false curr hs).bind ?_
    rintro ⟨relation, s⟩ hladders
    cases relation with
    | lt =>
      cases child with
      | none => exact ⟨hladders, fun _ h => by cases h⟩
      | some rc => exact ⟨hladders, fun entry h => .inr (by cases h; exact hright rc rfl)⟩
    | gt =>
      dsimp only
      by_cases hleaf : isLeaf curr = true
      · rw [if_pos hleaf]
        exact ⟨hladders, fun _ h => by cases h⟩
      · rw [if_neg hleaf]
        exact ⟨hladders, fun entry h => .inl ⟨by simpa using hleaf, by cases h; rfl⟩⟩
    | eq =>
      dsimp only
      split_ifs
      · exact ⟨hladders, fun _ h => by cases h⟩
      · exact .fail

/-- **The search for a fixed version** goes down to a last entry. -/
theorem fixedLoop_returns (hn : n < 2 ^ 64) (rightmostTs : U64) : ∀ {k i size fuel : ℕ} {w : FixedWalk},
    Block n k i size → k < fuel → w.ladders.Outputs →
    (c.fixedLoop P label n target binaryLadder comm rightmostTs fuel (node k i) w).Returns
      fun r => r.2.ladders.Outputs := by
  intro k
  induction k using Nat.strong_induction_on with
  | _ k ih =>
    intro i size fuel w h hfuel hw
    obtain ⟨fuel, rfl⟩ := Nat.exists_eq_succ_of_ne_zero (show fuel ≠ 0 by omega)
    refine (fixedStep_returns hP c label target binaryLadder comm rightmostTs (node k i) hw).bind ?_
    rintro ⟨turn, w'⟩ ⟨hw', hgoto⟩
    cases turn with
    | stop => exact hw'
    | terminal entry => exact hw'
    | goto entry =>
      rcases hgoto entry rfl with ⟨hleaf, rfl⟩ | hright
      · obtain ⟨k', i', hk, hchild, -, hblock⟩ := h.leftChild_eq hn hleaf
        dsimp only
        rw [hchild]
        exact ih k' hk hblock (by omega) hw'
      · rcases h.rightChild_cases hn with ⟨hnone, -⟩ | ⟨k', i', hk, hchild, -, hblock⟩
        · cases hnone.symm.trans hright
        · obtain rfl := Option.some.inj (hchild.symm.trans hright)
          exact ih k' hk hblock (by omega) hw'

theorem fixedLookup_returns {w : FixedWalk} (hw : w.ladders.Outputs) :
    (c.fixedLookup P label target binaryLadder comm w).Returns fun r => r.2.ladders.Outputs := by
  refine Result.Returns.okOr.bind fun identified _ => Result.Returns.ensure.bind fun _ _ =>
    w.reader.prefixProof_settles.bind ?_
  rintro ⟨pp, reader⟩
  refine (verifySingleLookup_returns hP c label pp binaryLadder target comm hw).context.bind ?_
  rintro ⟨root, included, ladders⟩ hladders
  exact (ProofReader.recordEntryRoot_settles _ _ _).bind fun _ =>
    Result.Returns.ensure.bind fun _ _ => hladders

/-- **The part of a search** that depends on its kind returns. -/
theorem searchWalk_returns (h₀ : 0 < n) (hn : n < 2 ^ 64) (requestedVersion : Option ℕ) {s : SearchState}
    (hs : s.ladders.Outputs) :
    (c.searchWalk P label requestedVersion n target binaryLadder comm s).Returns
      fun r => r.2.ladders.Outputs := by
  cases requestedVersion with
  | none =>
    have hlast : ((getFrontier n).getLast?.elim
        (.error (.panic "called `Option::unwrap()` on a `None` value")) .ok : Result ℕ).Settles := by
      cases hlast : (getFrontier n).getLast? with
      | none =>
        have hroot := (getFrontier_bounds h₀ hn).1
        rw [List.getLast?_eq_none_iff.1 hlast] at hroot
        cases hroot
      | some p => trivial
    exact hlast.bind fun rightmost =>
      (greatestWalk_returns hP c label target binaryLadder comm rightmost _ _ hs).bind fun _ hs' => hs'
  | some v =>
    have hblock := Block.root h₀
    have hlevel := hblock.level_lt hn
    refine (s.reader.timestamp_settles _).bind ?_
    rintro ⟨rightmostTs, reader⟩
    dsimp only
    rw [root_eq h₀ hn]
    refine (fixedLoop_returns hP c label target binaryLadder comm hn rightmostTs hblock (by omega)
      hs).bind ?_
    rintro ⟨terminal, w⟩ hw
    cases terminal with
    | none => exact fixedLookup_returns hP c label target binaryLadder comm hw
    | some entry => exact hw

/-! ### Owner monitoring -/

end KtClient

end

/-! ### The distinguished heads -/

end KeyTransparency
