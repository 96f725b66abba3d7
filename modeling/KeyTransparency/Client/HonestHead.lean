/-
# Taking over an honest head

What `verify_head_and_commit` does with the head of a log and the values of its own
nodes, outside of third-party auditing: it accepts, and afterwards the client retains
the peaks of that log (`verifyHeadAndCommit_honest`), which is how it got to the ones
it retains now.
-/

import KeyTransparency.Client.AuditorBoundary

namespace KeyTransparency

open InOrder LogMath MerkleLog LogVerifier LogTree

section

variable {P : Primitives} {leaves leaves' : List Octets} {visited wanted : List ℕ} {m n : ℕ}

/-- A client that is given the last leaf reaches all peaks. -/
theorem mem_walk_of_last (hlast : n - 1 ∈ visited) (h₀ : 0 < n) {c : ℕ × ℕ} (hc : c ∈ peaks n) :
    c ∈ walk n (above visited) (height n) 0 := by
  obtain ⟨k, i⟩ := c
  obtain ⟨hle, -, -⟩ := mem_peaksFrom hc
  have hn := le_two_pow_height n
  have hpos := Nat.two_pow_pos k
  have e : (i + 1) * 2 ^ k = i * 2 ^ k + 2 ^ k := Nat.add_one_mul _ _
  have hk : k ≤ height n :=
    (Nat.pow_le_pow_iff_right (by omega : 1 < 2)).1 (show 2 ^ k ≤ 2 ^ height n by omega)
  refine (mem_walk_above (by omega)).2 ?_
  rcases Nat.lt_or_eq_of_le hk with hk | rfl
  · refine .inr ⟨hk, by omega, by omega, by omega, above_iff.2 ⟨n - 1, hlast, ?_⟩⟩
    exact last_div_parent hc h₀
  · refine .inl ?_
    have : i = 0 := by
      rcases Nat.eq_zero_or_pos i with h | h
      · exact h
      · have := Nat.mul_le_mul_right (2 ^ height n) (show 1 ≤ i from h)
        omega
    rw [this]

/-- The values captured at the peaks are theirs. -/
theorem retainsPeaks_captured (hlast : leaves.length - 1 ∈ visited) (hne : leaves ≠ [])
    (hn : leaves.length ≤ 2 ^ 62) (hwanted : ∀ id ∈ getRoots leaves.length, id ∈ wanted) :
    RetainsPeaks P (fun id => if id ∈ getRoots leaves.length then
      capturedValues P leaves visited wanted id else none) leaves leaves.length := by
  intro k i
  dsimp only
  by_cases hc : (k, i) ∈ peaks leaves.length
  · have hroots := (mem_getRoots hn).2 hc
    rw [if_pos hroots, if_pos hc, capturedValues, capture_map,
      if_pos ⟨hwanted _ hroots, mem_walk_of_last hlast (List.length_pos_iff.2 hne) hc⟩]
  · rw [if_neg (mt (mem_getRoots hn).1 hc), if_neg hc]

/-- The peaks of a log stay what they are when the log grows. -/
theorem RetainsPeaks.grow {retained : NodeMap} (h : RetainsPeaks P retained leaves m)
    (hm : m ≤ leaves.length) (hpre : leaves <+: leaves') : RetainsPeaks P retained leaves' m := by
  intro k i
  rw [h]
  split_ifs with hc
  · have hle := (mem_peaksFrom hc).1
    have := Nat.two_pow_pos k
    have e : (i + 1) * 2 ^ k = i * 2 ^ k + 2 ^ k := Nat.add_one_mul _ _
    refine congrArg some (value_congr (by omega) fun p _ _ hp => ?_)
    obtain ⟨rest, rfl⟩ := hpre
    rw [leafAt, leafAt, List.getD_append _ _ _ _ (by omega)]
  · rfl

end

namespace KtClient

variable {P : Primitives} {c : KtClient} {fth : FullTreeHead} {leaves : List Octets}
  {visited extraWanted : List ℕ} {m : ℕ} {timestamp : Option U64}

/-- **An updated head of a log is taken over** with the log's root and peaks. -/
theorem verifyHeadAndCommit_honest {th : TreeHead}
    (hmode : c.config.mode ≠ deploymentModeThirdPartyAuditing) (hn : leaves.length ≤ 2 ^ 62)
    (hne : leaves ≠ []) (hlt : ∀ p ∈ visited, p < leaves.length)
    (hlast : leaves.length - 1 ∈ visited) (hm : m ≤ leaves.length)
    (hret : RetainsPeaks P c.retainedSubtrees leaves m) (hth : fth.treeHead = some th)
    (hsig : c.verifyTreeHeadSignature P th leaves.length (logRoot P leaves) = .ok ()) :
    ∃ captured retained, RetainsPeaks P retained leaves leaves.length ∧
      c.verifyHeadAndCommit P fth leaves.length timestamp true visited (leavesAt leaves visited)
        (neededValues P leaves visited m) extraWanted =
          .ok (captured, { c with
            retainedHead := some th
            state := some ⟨leaves.length, logRoot P leaves, timestamp.getD 0⟩
            retainedSubtrees := retained }) := by
  have hroot := calculateRootCapturing_neededValues hn hne hlt hm hret
    (c.wantedNodes fth leaves.length extraWanted)
  have hwanted : ∀ id ∈ getRoots leaves.length,
      id ∈ c.wantedNodes fth leaves.length extraWanted := fun id hid => by
    rw [wantedNodes, List.append_assoc]
    exact List.mem_append_left _ hid
  refine ⟨capturedValues P leaves visited (c.wantedNodes fth leaves.length extraWanted), _,
    retainsPeaks_captured hlast hne hn hwanted, ?_⟩
  simp only [verifyHeadAndCommit, hroot, hth, hsig, if_neg hmode, Result.context_ok,
    Result.ok_bind, okOr_some, if_true, Result.pure_eq]

/-- **An unchanged head** of a log changes nothing. -/
theorem verifyHeadAndCommit_honest_same {prev : TrustedState} (hn : leaves.length ≤ 2 ^ 62)
    (hne : leaves ≠ []) (hlt : ∀ p ∈ visited, p < leaves.length)
    (hret : RetainsPeaks P c.retainedSubtrees leaves leaves.length) (hprev : c.state = some prev)
    (heq : prev.rootHash = logRoot P leaves) :
    ∃ captured, c.verifyHeadAndCommit P fth leaves.length timestamp false visited
      (leavesAt leaves visited) (neededValues P leaves visited leaves.length) extraWanted =
        .ok (captured, c) :=
  ⟨_, verifyHeadAndCommit_same
    (calculateRootCapturing_neededValues hn hne hlt le_rfl hret _) hprev heq⟩

end KtClient

end KeyTransparency
