/-
# Distinguished log entries

`find_distinguished_nodes` of `src/tree/credential.rs`: the entries of the implicit
binary search tree whose timestamps on both sides lie a monitoring window apart.

`distinguishedIn` lists them in order, over the infinite tree in which the entries
that the log lacks are skipped.  An extension of the log changes the list at its end
only (`distinguished_stable`): the entry right of which the old log ends has the
same entry on its left in both logs, and no earlier one on its right.
-/

import KeyTransparency.Tree.Basic
import KeyTransparency.Tree.Frontier
import KeyTransparency.Tree.Log
import Mathlib.Data.List.Sort

namespace KeyTransparency

open InOrder LogMath

namespace Tree

/-- A child that is not gone into has no nodes. -/
def nodesIf (p : Prop) [Decidable p] (nodes : Result (List ℕ)) : Result (List ℕ) :=
  if p then nodes else .ok []

/-- `recursive_distinguished_wrapper`. -/
def distinguishedBelow (s : Store) (window treeSize : ℕ) : ℕ → ℕ → U64 → U64 → Result (List ℕ)
  | 0, _, _, _ => .error .diverge
  | fuel + 1, nodeIdx, leftTs, rightTs =>
    if rightTs.val - leftTs.val < window then .ok []
    else do
      let nodeTs ← LogTree.getTimestamp s nodeIdx
      let left ← nodesIf (isLeaf nodeIdx = false ∧ leftChild nodeIdx < treeSize)
        (distinguishedBelow s window treeSize fuel (leftChild nodeIdx) leftTs nodeTs)
      let right ← (ibstRightChild nodeIdx treeSize).elim (.ok []) fun r =>
        nodesIf (isLeaf nodeIdx = false ∧ r < treeSize ∧ r ≠ nodeIdx)
          (distinguishedBelow s window treeSize fuel r nodeTs rightTs)
      return nodeIdx :: left ++ right

def findDistinguishedNodes (t : Tree) (treeSize : ℕ) : Result (List ℕ) := do
  if treeSize = 0 then .error (.panic "attempt to subtract with overflow")
  else
    let rightmostTs ← LogTree.getTimestamp t.store (treeSize - 1)
    let results ← distinguishedBelow t.store t.config.reasonableMonitoringWindow treeSize 65
      (root treeSize) 0 rightmostTs
    return results.mergeSort (· ≤ ·)

end Tree

namespace LogMath

/-! ### In order -/

/-- The distinguished entries below the node at level `k`, in order, between the
timestamps on both sides. -/
def distinguishedIn (ts : ℕ → ℕ) (window n : ℕ) : ℕ → ℕ → ℕ → ℕ → List ℕ
  | 0, i, left, right => if n ≤ node 0 i ∨ right - left < window then [] else [node 0 i]
  | k + 1, i, left, right =>
    if n ≤ node (k + 1) i then distinguishedIn ts window n k (2 * i) left right
    else if right - left < window then []
    else
      distinguishedIn ts window n k (2 * i) left (ts (node (k + 1) i)) ++ node (k + 1) i ::
        distinguishedIn ts window n k (2 * i + 1) (ts (node (k + 1) i)) right

section

variable {ts : ℕ → ℕ} {window n n' : ℕ}

theorem distinguishedIn_of_lt :
    ∀ {k i left right : ℕ}, right - left < window → distinguishedIn ts window n k i left right = []
  | 0, i, left, right, h => by rw [distinguishedIn, if_pos (.inr h)]
  | k + 1, i, left, right, h => by
    rw [distinguishedIn, distinguishedIn_of_lt h, if_pos h, ite_self]

theorem distinguishedIn_succ {k i left right : ℕ} (hn : node (k + 1) i < n)
    (hw : window ≤ right - left) :
    distinguishedIn ts window n (k + 1) i left right =
      distinguishedIn ts window n k (2 * i) left (ts (node (k + 1) i)) ++ node (k + 1) i ::
        distinguishedIn ts window n k (2 * i + 1) (ts (node (k + 1) i)) right := by
  rw [distinguishedIn, if_neg (by omega), if_neg (by omega)]

/-- The entries below a node lie in its block. -/
theorem mem_distinguishedIn {x : ℕ} :
    ∀ {k i left right : ℕ}, x ∈ distinguishedIn ts window n k i left right →
      x < n ∧ i * 2 ^ (k + 1) ≤ x ∧ x + 1 < (i + 1) * 2 ^ (k + 1)
  | 0, i, left, right, h => by
    rw [distinguishedIn] at h
    split_ifs at h with hc
    · simp at h
    · rw [List.mem_singleton.1 h, node_zero] at *
      omega
  | k + 1, i, left, right, h => by
    have hnode := node_add_one (k + 1) i
    have hpos := Nat.two_pow_pos (k + 1)
    have e₁ : i * 2 ^ (k + 1 + 1) = 2 * i * 2 ^ (k + 1) := by ring
    have e₂ : (i + 1) * 2 ^ (k + 1 + 1) = 2 * i * 2 ^ (k + 1) + 2 * 2 ^ (k + 1) := by ring
    have e₃ : (2 * i + 1) * 2 ^ (k + 1) = 2 * i * 2 ^ (k + 1) + 2 ^ (k + 1) := by ring
    have e₄ : (2 * i + 1 + 1) * 2 ^ (k + 1) = 2 * i * 2 ^ (k + 1) + 2 * 2 ^ (k + 1) := by ring
    rw [distinguishedIn] at h
    split_ifs at h with hn hw
    · have := mem_distinguishedIn h
      omega
    · simp at h
    · rcases List.mem_append.1 h with h | h
      · have := mem_distinguishedIn h
        omega
      · rcases List.mem_cons.1 h with rfl | h
        · omega
        · have := mem_distinguishedIn h
          omega

/-- An entry is left of the node, the node itself, or right of it. -/
theorem mem_distinguishedIn_cases {x k i left right : ℕ}
    (h : x ∈ distinguishedIn ts window n k i left right) (hn : node k i < n) :
    (x < node k i ∧ ∃ j, k = j + 1 ∧
      x ∈ distinguishedIn ts window n j (2 * i) left (ts (node k i))) ∨
      x = node k i ∨ (node k i < x ∧ ∃ j, k = j + 1 ∧
        x ∈ distinguishedIn ts window n j (2 * i + 1) (ts (node k i)) right) := by
  cases k with
  | zero =>
    rw [distinguishedIn] at h
    split_ifs at h
    · cases h
    · exact .inr (.inl (List.mem_singleton.1 h))
  | succ k =>
    have hnode := node_add_one (k + 1) i
    have e : (2 * i + 1 : ℕ) * 2 ^ (k + 1) = node (k + 1) i + 1 := hnode.symm
    rw [distinguishedIn, if_neg (by omega)] at h
    split_ifs at h
    · cases h
    · rcases List.mem_append.1 h with h | h
      · have := mem_distinguishedIn h
        exact .inl ⟨by omega, k, rfl, h⟩
      · rcases List.mem_cons.1 h with rfl | h
        · exact .inr (.inl rfl)
        · have := mem_distinguishedIn h
          exact .inr (.inr ⟨by omega, k, rfl, h⟩)

theorem pairwise_distinguishedIn :
    ∀ {k i left right : ℕ}, (distinguishedIn ts window n k i left right).Pairwise (· < ·)
  | 0, i, left, right => by
    rw [distinguishedIn]
    split_ifs <;> simp
  | k + 1, i, left, right => by
    have hnode := node_add_one (k + 1) i
    rw [distinguishedIn]
    split_ifs
    · exact pairwise_distinguishedIn
    · exact List.Pairwise.nil
    · refine List.pairwise_append.2 ⟨pairwise_distinguishedIn,
        List.pairwise_cons.2 ⟨fun y hy => ?_, pairwise_distinguishedIn⟩, fun x hx y hy => ?_⟩
      · have := mem_distinguishedIn hy
        omega
      · have hx := mem_distinguishedIn hx
        rcases List.mem_cons.1 hy with rfl | hy
        · omega
        · have hy := mem_distinguishedIn hy
          omega

/-! ### Growing the log -/

/-- Below a node whose block the log has already, nothing changes. -/
theorem distinguishedIn_of_complete (hnn : n ≤ n') :
    ∀ {k i left right : ℕ}, (i + 1) * 2 ^ (k + 1) ≤ n + 1 →
      distinguishedIn ts window n k i left right = distinguishedIn ts window n' k i left right
  | 0, i, left, right, h => by
    rw [distinguishedIn, distinguishedIn]
    have h₁ : ¬ n ≤ node 0 i := by rw [node_zero]; omega
    have h₂ : ¬ n' ≤ node 0 i := by omega
    simp only [h₁, h₂]
  | k + 1, i, left, right, h => by
    have hnode := node_add_one (k + 1) i
    have hpos := Nat.two_pow_pos (k + 1)
    have e₁ : (i + 1) * 2 ^ (k + 1 + 1) = (2 * i + 1) * 2 ^ (k + 1) + 2 ^ (k + 1) := by ring
    have e₂ : (2 * i + 1 + 1) * 2 ^ (k + 1) = (i + 1) * 2 ^ (k + 1 + 1) := by ring
    rw [distinguishedIn, distinguishedIn, if_neg (show ¬ n ≤ node (k + 1) i by omega),
      if_neg (show ¬ n' ≤ node (k + 1) i by omega),
      distinguishedIn_of_complete hnn (k := k) (i := 2 * i) (by omega),
      distinguishedIn_of_complete hnn (k := k) (i := 2 * i + 1) (by omega)]

/-- **Growth at the end only.**  At a node right of which the old log has nothing, the
old list is the beginning of the new one. -/
theorem distinguishedIn_initial (hnn : n ≤ n') (hmono : ∀ p, n ≤ p → p < n' → ts (n - 1) ≤ ts p) :
    ∀ {k i left right : ℕ}, ts (n - 1) ≤ right →
      distinguishedIn ts window n k i left (ts (n - 1)) <+:
        distinguishedIn ts window n' k i left right
  | 0, i, left, right, h => by
    rw [distinguishedIn, distinguishedIn]
    split_ifs with h₁ h₂ h₂
    · exact List.prefix_rfl
    · exact List.nil_prefix
    · omega
    · exact List.prefix_rfl
  | k + 1, i, left, right, h => by
    have hnode := node_add_one (k + 1) i
    rw [distinguishedIn]
    split_ifs with h₁ h₂
    · rw [distinguishedIn]
      split_ifs with h₃ h₄
      · exact distinguishedIn_initial hnn hmono h
      · rw [distinguishedIn_of_lt (by omega)]
      · exact (distinguishedIn_initial hnn hmono (hmono _ h₁ (by omega))).trans
          (List.prefix_append _ _)
    · exact List.nil_prefix
    · rw [distinguishedIn, if_neg (by omega), if_neg (by omega),
        distinguishedIn_of_complete hnn (k := k) (i := 2 * i) (by omega)]
      refine (List.prefix_append_right_inj _).2 (List.cons_prefix_cons.2 ⟨rfl, ?_⟩)
      exact distinguishedIn_initial hnn hmono h

/-- The levels above the root of the log are skipped. -/
theorem distinguishedIn_above {k k' left right : ℕ} (hk : k ≤ k') (hn : n < 2 ^ (k + 1)) :
    distinguishedIn ts window n k' 0 left right = distinguishedIn ts window n k 0 left right := by
  induction k', hk using Nat.le_induction with
  | base => rfl
  | succ k' hk ih =>
    have hnode := node_add_one (k' + 1) 0
    have := Nat.pow_le_pow_right (show 0 < 2 by omega) (show k + 1 ≤ k' + 1 by omega)
    rw [distinguishedIn, if_pos (by omega), Nat.mul_zero, ih]

/-! ### The recursion of the source -/

/-- Where the loop of `ibst_right_child` stops: the entries below are the same. -/
theorem ibstRightLoop_cases :
    ∀ {k j fuel : ℕ}, k < fuel → k < 64 →
      (∃ k' j', k' ≤ k ∧ ibstRightLoop n fuel (node k j) = some (node k' j') ∧ node k' j' < n ∧
          ∀ left right, distinguishedIn ts window n k j left right =
            distinguishedIn ts window n k' j' left right) ∨
        ibstRightLoop n fuel (node k j) = none ∧
          ∀ left right, distinguishedIn ts window n k j left right = []
  | k, j, 0, hf, _ => absurd hf (by omega)
  | 0, j, fuel + 1, _, _ => by
    rw [ibstRightLoop, level_node (by omega), if_pos rfl]
    split_ifs with h
    · exact .inr ⟨rfl, fun left right => by rw [distinguishedIn, if_pos (.inl h)]⟩
    · exact .inl ⟨0, j, le_rfl, rfl, by omega, fun _ _ => rfl⟩
  | k + 1, j, fuel + 1, hf, hk => by
    rw [ibstRightLoop, level_node hk, if_neg (Nat.succ_ne_zero k), leftChild_node (by omega)]
    split_ifs with h
    · have hf' : k < fuel := by omega
      have hk' : k < 64 := by omega
      rcases ibstRightLoop_cases (j := 2 * j) hf' hk' with
        ⟨k', j', hk', hloop, hlt, heq⟩ | ⟨hloop, heq⟩
      · exact .inl ⟨k', j', by omega, hloop, hlt, fun left right => by
          rw [distinguishedIn, if_pos h, heq]⟩
      · exact .inr ⟨hloop, fun left right => by rw [distinguishedIn, if_pos h, heq]⟩
    · exact .inl ⟨k + 1, j, le_rfl, rfl, by omega, fun _ _ => rfl⟩

theorem distinguishedBelow_eq {s : Store} {ts : ℕ → U64} (hn : n < 2 ^ 64)
    (hts : ∀ p < n, s.timestamp p = some (ts p)) :
    ∀ {k i fuel : ℕ} {left right : U64}, k < fuel → k < 64 → node k i < n →
      ∃ l, Tree.distinguishedBelow s window n fuel (node k i) left right = .ok l ∧
        l.Perm (distinguishedIn (fun p => (ts p).val) window n k i left.val right.val)
  | k, i, 0, left, right, hf, _, _ => absurd hf (by omega)
  | 0, i, fuel + 1, left, right, _, _, hlt => by
    have hget : LogTree.getTimestamp s (node 0 i) = .ok (ts (node 0 i)) := by
      rw [LogTree.getTimestamp, hts _ hlt, okOr_some]
    have hleaf : ¬ (isLeaf (node 0 i) = false ∧ leftChild (node 0 i) < n) := by
      rintro ⟨h, -⟩
      rw [isLeaf_node] at h
      cases h
    have hright : ibstRightChild (node 0 i) n = none := by
      rw [ibstRightChild, level_node (by omega), if_pos rfl]
    unfold Tree.distinguishedBelow
    rw [distinguishedIn, hget, Result.ok_bind, Tree.nodesIf, if_neg hleaf, hright]
    rcases Nat.lt_or_ge (right.val - left.val) window with hw | hw
    · rw [if_pos hw, if_pos (.inr hw)]
      exact ⟨[], rfl, List.Perm.refl _⟩
    · rw [if_neg (by omega), if_neg (by omega)]
      exact ⟨[node 0 i], rfl, List.Perm.refl _⟩
  | k + 1, i, fuel + 1, left, right, hf, hk, hlt => by
    have hnode := node_add_one (k + 1) i
    have hleft := node_add_one k (2 * i)
    have hpos := Nat.two_pow_pos k
    have e₁ : (2 * i + 1) * 2 ^ (k + 1) = (2 * (2 * i) + 1) * 2 ^ k + 2 ^ k := by ring
    have hget : LogTree.getTimestamp s (node (k + 1) i) = .ok (ts (node (k + 1) i)) := by
      rw [LogTree.getTimestamp, hts _ hlt, okOr_some]
    unfold Tree.distinguishedBelow
    rcases Nat.lt_or_ge (right.val - left.val) window with hw | hw
    · rw [if_pos hw, distinguishedIn_of_lt hw]
      exact ⟨[], rfl, List.Perm.refl _⟩
    · rw [if_neg (by omega), distinguishedIn_succ hlt hw]
      obtain ⟨l, hl, hperm⟩ : ∃ l, Tree.distinguishedBelow s window n fuel (node k (2 * i)) left
          (ts (node (k + 1) i)) = .ok l ∧ _ :=
        distinguishedBelow_eq hn hts (by omega) (by omega) (by omega)
      have hnoleaf : isLeaf (node (k + 1) i) = false := by simp [isLeaf_node]
      have hchild : leftChild (node (k + 1) i) = node k (2 * i) := leftChild_node (by omega) i
      have hright : ibstRightChild (node (k + 1) i) n = ibstRightLoop n 64 (node k (2 * i + 1)) := by
        rw [ibstRightChild, level_node hk, if_neg (Nat.succ_ne_zero k), Nat.add_sub_cancel,
          node_xor_right]
      rw [hget, Result.ok_bind, hchild, Tree.nodesIf, if_pos ⟨hnoleaf, by omega⟩, hl,
        Result.ok_bind, hright]
      have hk64 : k < 64 := by omega
      rcases @ibstRightLoop_cases (fun p => (ts p).val) window n k (2 * i + 1) 64 hk64 hk64 with
        ⟨k', j', hk', hloop, hlt', heq⟩ | ⟨hloop, heq⟩
      · obtain ⟨l', hl', hperm'⟩ : ∃ l', Tree.distinguishedBelow s window n fuel (node k' j')
            (ts (node (k + 1) i)) right = .ok l' ∧ _ :=
          distinguishedBelow_eq hn hts (by omega) (by omega) hlt'
        have hne : node k' j' ≠ node (k + 1) i := fun h => by
          have := (node_inj h).1
          omega
        refine ⟨node (k + 1) i :: l ++ l', ?_, ?_⟩
        · rw [hloop]
          dsimp only [Option.elim]
          rw [Tree.nodesIf, if_pos ⟨hnoleaf, hlt', hne⟩, hl']
          rfl
        · rw [heq]
          exact (hperm'.append_left _).trans ((hperm.append_right _).cons _ |>.trans
            List.perm_middle.symm)
      · refine ⟨node (k + 1) i :: l ++ [], ?_, ?_⟩
        · rw [hloop]
          rfl
        · rw [heq, List.append_nil]
          exact (hperm.cons _).trans (List.perm_append_singleton _ _).symm

end

end LogMath

namespace Tree

variable {t t' : Tree} {n n' : ℕ} {ts : ℕ → U64}

/-- **The list of distinguished entries**, below any level that the log does not
reach. -/
theorem findDistinguishedNodes_eq {k : ℕ} (h₀ : 0 < n) (hn : n < 2 ^ 64) (hk : n < 2 ^ (k + 1))
    (hts : ∀ p < n, t.store.timestamp p = some (ts p)) :
    t.findDistinguishedNodes n = .ok (distinguishedIn (fun p => (ts p).val)
      t.config.reasonableMonitoringWindow n k 0 0 (ts (n - 1)).val) := by
  have hlog : Nat.log2 n < 64 := (Nat.log2_lt (by omega)).2 hn
  have hlogk : Nat.log2 n ≤ k := Nat.lt_succ_iff.1 ((Nat.log2_lt (by omega)).2 hk)
  have hroot : node (Nat.log2 n) 0 < n := by
    have := Nat.log2_self_le (show n ≠ 0 by omega)
    have := Nat.two_pow_pos (Nat.log2 n)
    have := node_add_one (Nat.log2 n) 0
    omega
  obtain ⟨l, hl, hperm⟩ : ∃ l, Tree.distinguishedBelow t.store t.config.reasonableMonitoringWindow n 65
      (node (Nat.log2 n) 0) 0 (ts (n - 1)) = .ok l ∧ _ :=
    distinguishedBelow_eq hn hts (by omega) hlog hroot
  have hlast : LogTree.getTimestamp t.store (n - 1) = .ok (ts (n - 1)) := by
    rw [LogTree.getTimestamp, hts _ (by omega), okOr_some]
  rw [findDistinguishedNodes, if_neg (by omega), hlast, Result.ok_bind, root_eq h₀ hn, hl]
  change Except.ok (l.mergeSort (· ≤ ·)) = _
  rw [distinguishedIn_above hlogk Nat.lt_log2_self]
  refine congrArg Except.ok (List.Perm.eq_of_pairwise' (r := (· ≤ ·)) (List.pairwise_mergeSort' _ l)
    (pairwise_distinguishedIn.imp Nat.le_of_lt) ((List.mergeSort_perm _ _).trans hperm))

/-- **Distinguished entries are stable.**  When a log with non-decreasing timestamps
grows, its list of distinguished entries grows at the end, where entries right of all
earlier ones are. -/
theorem distinguished_stable (h₀ : 0 < n) (hnn : n ≤ n') (hn : n' < 2 ^ 64)
    (hwindow : t'.config.reasonableMonitoringWindow = t.config.reasonableMonitoringWindow)
    (hts : ∀ p < n, t.store.timestamp p = some (ts p))
    (hts' : ∀ p < n', t'.store.timestamp p = some (ts p))
    (hmono : ∀ p q, p ≤ q → q < n' → ts p ≤ ts q) :
    ∃ l l', t.findDistinguishedNodes n = .ok l ∧ t'.findDistinguishedNodes n' = .ok l' ∧ l <+: l' ∧
      l'.Pairwise (· < ·) := by
  have hpow : n' < 2 ^ (63 + 1) := hn
  refine ⟨_, _, findDistinguishedNodes_eq h₀ (by omega) (hnn.trans_lt hpow) hts,
    findDistinguishedNodes_eq (h₀.trans_le hnn) hn hpow hts', ?_, pairwise_distinguishedIn⟩
  rw [hwindow]
  exact distinguishedIn_initial hnn (fun p hp hp' => hmono _ _ (by omega) hp')
    (hmono _ _ (by omega) (by omega))

/-- A server with the given number of timestamps, ten milliseconds apart. -/
def tickingServer (n : ℕ) : Tree where
  store := { Store.empty with
    timestamp := fun p => if p < n then some (Fin.ofNat _ (10 * p)) else none }
  config := ⟨1, 1, [], [], [], [], none, 0, 0, 0, 0, 15, none, none⟩
  latest := none
  auditors := []

theorem distinguished_stable_three : ∃ l l',
    (tickingServer 3).findDistinguishedNodes 3 = .ok l ∧
      (tickingServer 4).findDistinguishedNodes 4 = .ok l' ∧ l <+: l' ∧ l'.Pairwise (· < ·) := by
  have htick : ∀ n, ∀ p < n, (tickingServer n).store.timestamp p = some (Fin.ofNat _ (10 * p)) :=
    fun n p hp => if_pos hp
  refine distinguished_stable (t := tickingServer 3) (by omega) (by omega) (by omega) rfl
    (htick 3) (htick 4) fun p q hpq hq => ?_
  rw [Fin.le_def]
  simp only [Fin.ofNat]
  rw [Nat.mod_eq_of_lt (by omega), Nat.mod_eq_of_lt (by omega)]
  omega

end Tree

end KeyTransparency
