/-
# Where a search in the implicit tree ends

A search that goes right or left at each entry comes to a last entry, at which it stops
or at which it has nowhere to go (`Block.exists_endsAt`): its ancestors are the entries
that were passed, those on its left where the search went right and those on its right
where it went left.  Two facts tell what lies beside the path: two entries have an
ancestor between them, unless one is an ancestor of the other (`Block.ancestor_between`),
and an entry without a right child has the next entry as an ancestor
(`Block.next_ancestor`).
-/

import KeyTransparency.Tree.Navigation

namespace KeyTransparency

open InOrder

namespace LogMath

/-- **A search ends at an entry** after it has passed a path: it went right at the entries
left of it, left at the entries right of it, and it stops there or has no child to go to. -/
structure EndsAt (goes : ℕ → Ordering) (n : ℕ) (path : List ℕ) (z : ℕ) : Prop where
  right : ∀ a ∈ path, a < z → goes a = .lt
  left : ∀ a ∈ path, z < a → goes a = .gt
  stops : goes z = .eq ∨ goes z = .lt ∧ ibstRightChild z n = none ∨ goes z = .gt ∧ isLeaf z = true

section

variable {goes : ℕ → Ordering} {n k i size d z a : ℕ} {path : List ℕ}

theorem endsAt_cons : EndsAt goes n (a :: path) z ↔
    (a < z → goes a = .lt) ∧ (z < a → goes a = .gt) ∧ EndsAt goes n path z := by
  constructor
  · intro h
    exact ⟨h.right a List.mem_cons_self, h.left a List.mem_cons_self,
      fun b hb => h.right b (List.mem_cons_of_mem _ hb), fun b hb => h.left b (List.mem_cons_of_mem _ hb),
      h.stops⟩
  · rintro ⟨hright, hleft, h⟩
    refine ⟨fun b hb => ?_, fun b hb => ?_, h.stops⟩
    · rcases List.mem_cons.1 hb with rfl | hb
      · exact hright
      · exact h.right b hb
    · rcases List.mem_cons.1 hb with rfl | hb
      · exact hleft
      · exact h.left b hb

/-- **Every search ends** in the subtree that it starts in. -/
theorem Block.exists_endsAt (hn : n < 2 ^ 64) (goes : ℕ → Ordering) : ∀ {k i size fuel : ℕ},
    Block n k i size → k < fuel → ∃ z, i * 2 ^ (k + 1) ≤ z ∧ z < i * 2 ^ (k + 1) + size ∧
      EndsAt goes n (ibstDirectPathLoop z fuel size (i * 2 ^ (k + 1))) z := by
  intro k
  induction k using Nat.strong_induction_on with
  | _ k ih =>
    intro i size fuel h hfuel
    obtain ⟨fuel, rfl⟩ := Nat.exists_eq_succ_of_ne_zero (show fuel ≠ 0 by omega)
    have hnode : node k i = i * 2 ^ (k + 1) + (2 ^ k - 1) := rfl
    have hle := h.node_le
    have hpos := Nat.two_pow_pos k
    have hhere : (goes (node k i) = .eq ∨ goes (node k i) = .lt ∧ ibstRightChild (node k i) n = none ∨
        goes (node k i) = .gt ∧ isLeaf (node k i) = true) →
        ∃ z, i * 2 ^ (k + 1) ≤ z ∧ z < i * 2 ^ (k + 1) + size ∧
          EndsAt goes n (ibstDirectPathLoop z (fuel + 1) size (i * 2 ^ (k + 1))) z := fun hstops => by
      refine ⟨node k i, by omega, by omega, ?_⟩
      rw [h.path_self hn]
      exact ⟨fun a ha => (by cases ha), fun a ha => (by cases ha), hstops⟩
    cases hgoes : goes (node k i) with
    | eq => exact hhere (.inl hgoes)
    | lt =>
      rcases h.rightChild_cases hn with ⟨hnone, -⟩ | ⟨k', i', hk, -, hstart, hblock⟩
      · exact hhere (.inr (.inl ⟨hgoes, hnone⟩))
      · obtain ⟨z, hlow, hhigh, hends⟩ := ih k' hk hblock (show k' < fuel by omega)
        rw [hstart] at hlow hhigh hends
        refine ⟨z, by omega, by omega, ?_⟩
        rw [h.path_right hn (show node k i < z by omega), endsAt_cons]
        exact ⟨fun _ => hgoes, fun _ => by omega, hends⟩
    | gt =>
      cases hleaf : isLeaf (node k i) with
      | true => exact hhere (.inr (.inr ⟨hgoes, hleaf⟩))
      | false =>
        obtain ⟨k', i', hk, -, hstart, hblock⟩ := h.leftChild_eq hn hleaf
        obtain ⟨z, hlow, hhigh, hends⟩ := ih k' hk hblock (show k' < fuel by omega)
        rw [hstart] at hlow hhigh hends
        refine ⟨z, hlow, by omega, ?_⟩
        rw [h.path_left hn (show z < node k i by omega), endsAt_cons]
        exact ⟨fun _ => by omega, fun _ => hgoes, hends⟩

/-- **One step towards an entry**: into the left subtree or into the right one. -/
theorem Block.toward (h : Block n k i size) (hn : n < 2 ^ 64) (hlow : i * 2 ^ (k + 1) ≤ z)
    (hhigh : z < i * 2 ^ (k + 1) + size) (hne : z ≠ node k i) (fuel : ℕ) :
    ∃ k' i' size', k' < k ∧ i' * 2 ^ (k' + 1) ≤ z ∧ z < i' * 2 ^ (k' + 1) + size' ∧ Block n k' i' size' ∧
      ibstDirectPathLoop z (fuel + 1) size (i * 2 ^ (k + 1)) =
        node k i :: ibstDirectPathLoop z fuel size' (i' * 2 ^ (k' + 1)) ∧
      (z < node k i ∧ isLeaf (node k i) = false ∧ leftChild (node k i) = node k' i' ∧
          i' * 2 ^ (k' + 1) = i * 2 ^ (k + 1) ∧ i' * 2 ^ (k' + 1) + size' = node k i ∨
        node k i < z ∧ ibstRightChild (node k i) n = some (node k' i') ∧
          i' * 2 ^ (k' + 1) = node k i + 1 ∧ i' * 2 ^ (k' + 1) + size' = i * 2 ^ (k + 1) + size) := by
  have hnode : node k i = i * 2 ^ (k + 1) + (2 ^ k - 1) := rfl
  have hle := h.node_le
  have hpos := Nat.two_pow_pos k
  rcases Nat.lt_or_gt_of_ne hne with hlt | hgt
  · have hleaf : isLeaf (node k i) = false := by
      cases k with
      | zero =>
        rw [pow_zero] at hnode
        omega
      | succ k => simp [isLeaf_node]
    obtain ⟨k', i', hk, hchild, hstart, hblock⟩ := h.leftChild_eq hn hleaf
    refine ⟨k', i', 2 ^ k - 1, hk, by omega, by omega, hblock, ?_, .inl ⟨hlt, hleaf, hchild, hstart, by omega⟩⟩
    rw [h.path_left hn hlt, hstart]
  · rcases h.rightChild_cases hn with ⟨-, hsize⟩ | ⟨k', i', hk, hchild, hstart, hblock⟩
    · omega
    · refine ⟨k', i', size - 2 ^ k, hk, by omega, by omega, hblock, ?_,
        .inr ⟨hgt, hchild, hstart, by omega⟩⟩
      rw [h.path_right hn hgt, hstart]

/-- **Between two entries** lies an ancestor of both, unless one is an ancestor of the other. -/
theorem Block.ancestor_between (hn : n < 2 ^ 64) (hdz : d < z) : ∀ {k i size fuel : ℕ},
    Block n k i size → k < fuel → i * 2 ^ (k + 1) ≤ d → z < i * 2 ^ (k + 1) + size →
    d ∈ ibstDirectPathLoop z fuel size (i * 2 ^ (k + 1)) ∨
      z ∈ ibstDirectPathLoop d fuel size (i * 2 ^ (k + 1)) ∨
        ∃ a ∈ ibstDirectPathLoop z fuel size (i * 2 ^ (k + 1)),
          a ∈ ibstDirectPathLoop d fuel size (i * 2 ^ (k + 1)) ∧ d < a ∧ a < z := by
  intro k
  induction k using Nat.strong_induction_on with
  | _ k ih =>
    intro i size fuel h hfuel hlow hhigh
    obtain ⟨fuel, rfl⟩ := Nat.exists_eq_succ_of_ne_zero (show fuel ≠ 0 by omega)
    by_cases hd : d = node k i
    · rw [hd] at hdz ⊢
      rw [h.path_right hn hdz]
      exact .inl List.mem_cons_self
    · by_cases hz : z = node k i
      · rw [hz] at hdz ⊢
        rw [h.path_left hn hdz]
        exact .inr (.inl List.mem_cons_self)
      · obtain ⟨k', i', size', hk, hlow', hhigh', hblock, hpath, hside⟩ :=
          h.toward hn (show i * 2 ^ (k + 1) ≤ d from hlow) (by omega) hd fuel
        obtain ⟨l', j', size₂, -, hlow₂, hhigh₂, -, hpath₂, hside₂⟩ :=
          h.toward hn (show i * 2 ^ (k + 1) ≤ z by omega) hhigh hz fuel
        -- in the same subtree the claim is that of the subtree, across it is the entry itself
        have hsame : j' * 2 ^ (l' + 1) = i' * 2 ^ (k' + 1) → size₂ = size' →
            d ∈ ibstDirectPathLoop z (fuel + 1) size (i * 2 ^ (k + 1)) ∨
            z ∈ ibstDirectPathLoop d (fuel + 1) size (i * 2 ^ (k + 1)) ∨
            ∃ a ∈ ibstDirectPathLoop z (fuel + 1) size (i * 2 ^ (k + 1)),
              a ∈ ibstDirectPathLoop d (fuel + 1) size (i * 2 ^ (k + 1)) ∧ d < a ∧ a < z := by
          rintro hstart rfl
          rw [hpath, hpath₂, hstart]
          rw [hstart] at hhigh₂
          rcases ih k' hk hblock (show k' < fuel by omega) hlow' hhigh₂ with hmem | hmem | ⟨a, ha, ha', hda, haz⟩
          · exact .inl (List.mem_cons_of_mem _ hmem)
          · exact .inr (.inl (List.mem_cons_of_mem _ hmem))
          · exact .inr (.inr ⟨a, List.mem_cons_of_mem _ ha, List.mem_cons_of_mem _ ha', hda, haz⟩)
        rcases hside with ⟨hleft, -, -, hstart, hend⟩ | ⟨hright, -, hstart, hend⟩
        · rcases hside₂ with ⟨-, -, -, hstart₂, hend₂⟩ | ⟨hright₂, -⟩
          · exact hsame (by omega) (by omega)
          · refine .inr (.inr ⟨node k i, ?_, ?_, hleft, hright₂⟩)
            · rw [hpath₂]
              exact List.mem_cons_self
            · rw [hpath]
              exact List.mem_cons_self
        · rcases hside₂ with ⟨hleft₂, -⟩ | ⟨-, -, hstart₂, hend₂⟩
          · omega
          · exact hsame (by omega) (by omega)

/-- **An entry without a right child** has the next entry as an ancestor, or is the last one. -/
theorem Block.next_ancestor (hn : n < 2 ^ 64) (hnone : ibstRightChild z n = none) : ∀ {k i size fuel : ℕ},
    Block n k i size → k < fuel → i * 2 ^ (k + 1) ≤ z → z < i * 2 ^ (k + 1) + size →
    z + 1 = i * 2 ^ (k + 1) + size ∨
      z + 1 ∈ ibstDirectPathLoop z fuel size (i * 2 ^ (k + 1)) := by
  intro k
  induction k using Nat.strong_induction_on with
  | _ k ih =>
    intro i size fuel h hfuel hlow hhigh
    obtain ⟨fuel, rfl⟩ := Nat.exists_eq_succ_of_ne_zero (show fuel ≠ 0 by omega)
    have hnode : node k i = i * 2 ^ (k + 1) + (2 ^ k - 1) := rfl
    have hpos := Nat.two_pow_pos k
    by_cases hz : z = node k i
    · rw [hz] at hnone ⊢
      rcases h.rightChild_cases hn with ⟨-, hsize⟩ | ⟨k', i', -, hchild, -⟩
      · left
        omega
      · rw [hchild] at hnone
        cases hnone
    · obtain ⟨k', i', size', hk, hlow', hhigh', hblock, hpath, hside⟩ := h.toward hn hlow hhigh hz fuel
      rw [hpath]
      rcases ih k' hk hblock (show k' < fuel by omega) hlow' hhigh' with hend | hmem
      · rcases hside with ⟨-, -, -, -, hend'⟩ | ⟨-, -, -, hend'⟩
        · rw [hend, hend']
          exact .inr List.mem_cons_self
        · left
          omega
      · exact .inr (List.mem_cons_of_mem _ hmem)

/-- **An entry with a left subtree** is not a leaf. -/
theorem Block.ancestor_inner (hn : n < 2 ^ 64) (hza : z < a) : ∀ {k i size fuel : ℕ},
    Block n k i size → k < fuel → i * 2 ^ (k + 1) ≤ z → z < i * 2 ^ (k + 1) + size →
    a ∈ ibstDirectPathLoop z fuel size (i * 2 ^ (k + 1)) → isLeaf a = false := by
  intro k
  induction k using Nat.strong_induction_on with
  | _ k ih =>
    intro i size fuel h hfuel hlow hhigh ha
    obtain ⟨fuel, rfl⟩ := Nat.exists_eq_succ_of_ne_zero (show fuel ≠ 0 by omega)
    by_cases hz : z = node k i
    · rw [hz, h.path_self hn] at ha
      cases ha
    · obtain ⟨k', i', size', hk, hlow', hhigh', hblock, hpath, hside⟩ := h.toward hn hlow hhigh hz fuel
      rw [hpath] at ha
      rcases List.mem_cons.1 ha with rfl | ha
      · rcases hside with ⟨-, hleaf, -⟩ | ⟨hlt, -⟩
        · exact hleaf
        · omega
      · exact ih k' hk hblock (show k' < fuel by omega) hlow' hhigh' ha

end

end LogMath

end KeyTransparency
