/-
# Answering for the distinguished entries

The walk of `traverse_distinguished` in `src/tree/traversal.rs` over the distinguished
entries, and the request that it answers, from `src/tree/monitor.rs`.  The walk goes
right first, and left of an entry only when the entry lies right of the stop and is one
of the most recent ones.

`walkIn` lists the entries of such a walk for any condition on going left, between the
timestamps on both sides; the walk of a verifier is another instance of it.  Two such
walks are the same exactly when their outermost timestamps make the same entries
distinguished and one goes left wherever the other does and something lies there
(`walkIn_congr`, `alike_of_mem_walkIn_iff`).
-/

import KeyTransparency.Library.DepthFirst
import KeyTransparency.Tree.Distinguished
import KeyTransparency.Tree.Traversal

namespace KeyTransparency

open InOrder LogMath

namespace Tree

variable (P : Primitives) (t : Tree)

/-- The loop of `traverse_distinguished`. -/
def traverseDistinguishedLoop (treeSize : ℕ) (stop : Option ℕ) (dset recent : List ℕ) :
    ℕ → List ℕ → TraversalSession → Result TraversalSession
  | 0, _, _ => .error .diverge
  | _ + 1, [], session => .ok session
  | fuel + 1, curr :: stack, session =>
    if curr ∉ dset then traverseDistinguishedLoop treeSize stop dset recent fuel stack session
    else do
      let session ← session.visitTimestampOnly t curr
      let left := if isLeaf curr = false ∧ (∀ s ∈ stop, s < curr) ∧ curr ∈ recent then
        [leftChild curr] else []
      let right := if isLeaf curr then [] else (ibstRightChild curr treeSize).toList
      traverseDistinguishedLoop treeSize stop dset recent fuel (right ++ left ++ stack) session

/-- `traverse_distinguished`; `maxResponseEntries` comes from the configuration.  Every
entry is pushed once, so that twice the size of the tree bounds the turns of the loop. -/
def traverseDistinguished (maxResponseEntries treeSize : ℕ) (stop : Option ℕ) (last : ℕ) :
    Result CombinedTreeProof := do
  let session ← (TraversalSession.new []).visitFrontier t treeSize
  let distinguished ← t.findDistinguishedNodes treeSize
  let recent := distinguished.reverse.take maxResponseEntries
  let session ← t.traverseDistinguishedLoop treeSize stop distinguished recent (2 * treeSize + 2)
    [root treeSize] session
  session.finalize P t treeSize last

def distinguished (maxResponseEntries : ℕ) (req : DistinguishedRequest) :
    Result DistinguishedResponse := do
  let treeSize ← t.monitoredTreeSize
  if let some stop := req.stop then
    if treeSize ≤ stop then
      .error (.kt (.invalidArgument s!"Stop position {stop} outside tree of size {treeSize}"))
  let proof ← traverseDistinguished P t maxResponseEntries treeSize req.stop (req.last.getD 0)
  return ⟨some (t.getFullTreeHead req.last), some proof⟩

end Tree

namespace LogMath

/-! ### The entries of a walk -/

/-- The entries of a walk below the node at level `k`, between the timestamps on both
sides, in the order of the walk. -/
def walkIn (ts : ℕ → ℕ) (window n : ℕ) (goesLeft : ℕ → Bool) : ℕ → ℕ → ℕ → ℕ → List ℕ
  | 0, i, left, right => if n ≤ node 0 i ∨ right - left < window then [] else [node 0 i]
  | k + 1, i, left, right =>
    if n ≤ node (k + 1) i then walkIn ts window n goesLeft k (2 * i) left right
    else if right - left < window then []
    else
      node (k + 1) i :: (walkIn ts window n goesLeft k (2 * i + 1) (ts (node (k + 1) i)) right ++
        if goesLeft (node (k + 1) i) then
          walkIn ts window n goesLeft k (2 * i) left (ts (node (k + 1) i)) else [])

section

variable {ts : ℕ → ℕ} {window n : ℕ} {goesLeft goesLeft' : ℕ → Bool}

theorem walkIn_of_lt :
    ∀ {k i left right : ℕ}, right - left < window → walkIn ts window n goesLeft k i left right = []
  | 0, i, left, right, h => by rw [walkIn, if_pos (.inr h)]
  | k + 1, i, left, right, h => by
    rw [walkIn, walkIn_of_lt h, if_pos h, ite_self]

theorem walkIn_succ {k i left right : ℕ} (hn : node (k + 1) i < n) (hw : window ≤ right - left) :
    walkIn ts window n goesLeft (k + 1) i left right =
      node (k + 1) i :: (walkIn ts window n goesLeft k (2 * i + 1) (ts (node (k + 1) i)) right ++
        if goesLeft (node (k + 1) i) then
          walkIn ts window n goesLeft k (2 * i) left (ts (node (k + 1) i)) else []) := by
  rw [walkIn, if_neg (by omega), if_neg (by omega)]

theorem mem_walkIn_succ {x k i left right : ℕ} (hn : node (k + 1) i < n) (hw : window ≤ right - left) :
    x ∈ walkIn ts window n goesLeft (k + 1) i left right ↔
      x = node (k + 1) i ∨ x ∈ walkIn ts window n goesLeft k (2 * i + 1) (ts (node (k + 1) i)) right ∨
        goesLeft (node (k + 1) i) = true ∧
          x ∈ walkIn ts window n goesLeft k (2 * i) left (ts (node (k + 1) i)) := by
  rw [walkIn_succ hn hw, List.mem_cons, List.mem_append]
  split_ifs with hleft <;> simp [hleft]

/-- **A walk visits distinguished entries.** -/
theorem mem_distinguishedIn_of_walkIn {x : ℕ} :
    ∀ {k i left right : ℕ}, x ∈ walkIn ts window n goesLeft k i left right →
      x ∈ distinguishedIn ts window n k i left right
  | 0, i, left, right, h => h
  | k + 1, i, left, right, h => by
    by_cases hn : n ≤ node (k + 1) i
    · rw [walkIn, if_pos hn] at h
      rw [distinguishedIn, if_pos hn]
      exact mem_distinguishedIn_of_walkIn h
    by_cases hw : right - left < window
    · rw [walkIn_of_lt hw] at h
      cases h
    rw [distinguishedIn_succ (by omega) (by omega)]
    rcases (mem_walkIn_succ (by omega) (by omega)).1 h with rfl | h | ⟨-, h⟩
    · simp
    · exact List.mem_append_right _ (List.mem_cons_of_mem _ (mem_distinguishedIn_of_walkIn h))
    · exact List.mem_append_left _ (mem_distinguishedIn_of_walkIn h)

/-- A walk comes to an entry when it goes left at every entry right of it. -/
theorem mem_walkIn {x : ℕ} :
    ∀ {k i left right : ℕ}, x ∈ distinguishedIn ts window n k i left right →
      (∀ y ∈ distinguishedIn ts window n k i left right, x < y → goesLeft y = true) →
      x ∈ walkIn ts window n goesLeft k i left right
  | 0, i, left, right, h, _ => h
  | k + 1, i, left, right, h, hleft => by
    by_cases hn : n ≤ node (k + 1) i
    · rw [distinguishedIn, if_pos hn] at h hleft
      rw [walkIn, if_pos hn]
      exact mem_walkIn h hleft
    by_cases hw : right - left < window
    · rw [distinguishedIn_of_lt hw] at h
      cases h
    rw [distinguishedIn_succ (by omega) (by omega)] at h hleft
    rw [mem_walkIn_succ (by omega) (by omega)]
    rcases List.mem_append.1 h with h | h
    · have hnode := node_add_one (k + 1) i
      have hx := mem_distinguishedIn h
      have e : (2 * i + 1 : ℕ) * 2 ^ (k + 1) = node (k + 1) i + 1 := hnode.symm
      exact .inr (.inr ⟨hleft _ (by simp) (by omega),
        mem_walkIn h fun y hy => hleft y (List.mem_append_left _ hy)⟩)
    · rcases List.mem_cons.1 h with rfl | h
      · exact .inl rfl
      · exact .inr (.inl (mem_walkIn h fun y hy =>
          hleft y (List.mem_append_right _ (List.mem_cons_of_mem _ hy))))

theorem walkIn_eq_nil : ∀ {k i left right : ℕ}, walkIn ts window n goesLeft k i left right = [] ↔
    distinguishedIn ts window n k i left right = []
  | 0, i, left, right => Iff.rfl
  | k + 1, i, left, right => by
    rw [walkIn, distinguishedIn]
    split_ifs
    · exact walkIn_eq_nil
    · rfl
    · simp

/-- No entry is visited twice. -/
theorem nodup_walkIn : ∀ {k i left right : ℕ}, (walkIn ts window n goesLeft k i left right).Nodup
  | 0, i, left, right => by
    rw [walkIn]
    split_ifs <;> simp
  | k + 1, i, left, right => by
    by_cases hn : n ≤ node (k + 1) i
    · rw [walkIn, if_pos hn]
      exact nodup_walkIn
    by_cases hw : right - left < window
    · rw [walkIn_of_lt hw]
      exact List.nodup_nil
    have hnode := node_add_one (k + 1) i
    have e : (2 * i + 1 : ℕ) * 2 ^ (k + 1) = node (k + 1) i + 1 := hnode.symm
    have hright : ∀ x ∈ walkIn ts window n goesLeft k (2 * i + 1) (ts (node (k + 1) i)) right,
        node (k + 1) i < x := fun x hx => by
      have := mem_distinguishedIn (mem_distinguishedIn_of_walkIn hx)
      omega
    have hleft : ∀ x ∈ (if goesLeft (node (k + 1) i) then
        walkIn ts window n goesLeft k (2 * i) left (ts (node (k + 1) i)) else []),
        x < node (k + 1) i := fun x hx => by
      split_ifs at hx
      · have := mem_distinguishedIn (mem_distinguishedIn_of_walkIn hx)
        omega
      · cases hx
    rw [walkIn_succ (by omega) (by omega), List.nodup_cons, List.nodup_append]
    refine ⟨fun hmem => ?_, nodup_walkIn, ?_, fun x hx y hy => ?_⟩
    · rcases List.mem_append.1 hmem with h | h
      · exact absurd (hright _ h) (lt_irrefl _)
      · exact absurd (hleft _ h) (lt_irrefl _)
    · split_ifs
      · exact nodup_walkIn
      · exact List.nodup_nil
    · have := hright x hx
      have := hleft y hy
      omega

/-! ### Where two walks part -/

/-- The left child of an entry lies in every block that the entry lies in the middle of. -/
theorem leftChild_in_block {x k i : ℕ} (hx : x < 2 ^ 62) (hinner : isLeaf x = false)
    (hlow : i * 2 ^ (k + 1) ≤ x) (hhigh : x + 1 < (i + 1) * 2 ^ (k + 1)) :
    leftChild x < x ∧ i * 2 ^ (k + 1) ≤ leftChild x := by
  obtain ⟨a, b, rfl⟩ := exists_eq_node x
  cases a with
  | zero =>
    rw [isLeaf_node] at hinner
    cases hinner
  | succ a =>
    have hpow : 2 ^ (a + 1) < 2 ^ 63 := by
      have := node_add_one (a + 1) b
      have : 2 ^ (a + 1) ≤ (2 * b + 1) * 2 ^ (a + 1) := Nat.le_mul_of_pos_left _ (by omega)
      omega
    have ha := (Nat.pow_lt_pow_iff_right (by omega : 1 < 2)).1 hpow
    have hnode := node_add_one (a + 1) b
    have hchild := node_add_one a (2 * b)
    have hpos := Nat.two_pow_pos a
    have e₁ : (2 * b + 1) * 2 ^ (a + 1) = (2 * (2 * b) + 1) * 2 ^ a + 2 ^ a := by ring
    rw [leftChild_node (by omega)]
    refine ⟨by omega, ?_⟩
    -- the block starts at a multiple of a power of two that is not below the entry's
    have hak : a + 1 ≤ k := by
      by_contra hlt
      obtain ⟨d, hd⟩ := Nat.exists_eq_add_of_le (show k + 1 ≤ a + 1 by omega)
      have e₂ : (2 * b + 1) * 2 ^ (a + 1) = (2 * b + 1) * 2 ^ d * 2 ^ (k + 1) := by
        rw [hd]
        ring
      have h₁ : i * 2 ^ (k + 1) < (2 * b + 1) * 2 ^ d * 2 ^ (k + 1) := by omega
      have h₂ : (2 * b + 1) * 2 ^ d * 2 ^ (k + 1) < (i + 1) * 2 ^ (k + 1) := by omega
      have h₁ := Nat.lt_of_mul_lt_mul_right h₁
      have h₂ := Nat.lt_of_mul_lt_mul_right h₂
      omega
    obtain ⟨d, rfl⟩ := Nat.exists_eq_add_of_le hak
    have e₂ : i * 2 ^ (a + 1 + d + 1) = 2 * (i * 2 ^ d) * 2 ^ (a + 1) := by ring
    have h₁ : 2 * (i * 2 ^ d) * 2 ^ (a + 1) < (2 * b + 1) * 2 ^ (a + 1) := by omega
    have h₁ := Nat.mul_le_mul_right (2 ^ (a + 1)) (show 2 * (i * 2 ^ d) ≤ 2 * b by
      have := Nat.lt_of_mul_lt_mul_right h₁
      omega)
    have e₃ : 2 * b * 2 ^ (a + 1) = 2 * (2 * b) * 2 ^ a := by ring
    have e₄ : (2 * (2 * b) + 1) * 2 ^ a = 2 * (2 * b) * 2 ^ a + 2 ^ a := by ring
    omega

/-- Of two conditions on going left, the second one holds wherever the first one does
and there is a distinguished entry to go to. -/
def LeftAlike (goesLeft goesLeft' : ℕ → Bool) (distinguished : List ℕ) : Prop :=
  ∀ x ∈ distinguished, isLeaf x = false → goesLeft x = true → leftChild x ∈ distinguished →
    goesLeft' x = true

/-- At an entry, and on both sides of it. -/
theorem leftAlike_succ {k i left right : ℕ} (hk : k < 62) (hn : node (k + 1) i < n) (hn' : n ≤ 2 ^ 62)
    (hw : window ≤ right - left) :
    LeftAlike goesLeft goesLeft' (distinguishedIn ts window n (k + 1) i left right) ↔
      LeftAlike goesLeft goesLeft'
          (distinguishedIn ts window n k (2 * i) left (ts (node (k + 1) i))) ∧
        (goesLeft (node (k + 1) i) = true →
          distinguishedIn ts window n k (2 * i) left (ts (node (k + 1) i)) ≠ [] →
            goesLeft' (node (k + 1) i) = true) ∧
        LeftAlike goesLeft goesLeft'
          (distinguishedIn ts window n k (2 * i + 1) (ts (node (k + 1) i)) right) := by
  have hnode := node_add_one (k + 1) i
  have hleft := node_add_one k (2 * i)
  have hpos := Nat.two_pow_pos k
  have e₁ : (2 * i + 1) * 2 ^ (k + 1) = node (k + 1) i + 1 := hnode.symm
  have e₂ : (2 * i + 1) * 2 ^ (k + 1) = (2 * (2 * i) + 1) * 2 ^ k + 2 ^ k := by ring
  have hchild : leftChild (node (k + 1) i) = node k (2 * i) := leftChild_node (by omega) i
  have hinner : isLeaf (node (k + 1) i) = false := by simp [isLeaf_node]
  -- the left child is distinguished when anything below it is
  have hfirst : distinguishedIn ts window n k (2 * i) left (ts (node (k + 1) i)) ≠ [] ↔
      node k (2 * i) ∈ distinguishedIn ts window n k (2 * i) left (ts (node (k + 1) i)) := by
    refine ⟨fun hne => ?_, List.ne_nil_of_mem⟩
    have hw' : window ≤ ts (node (k + 1) i) - left := by
      by_contra hlt
      exact hne (distinguishedIn_of_lt (by omega))
    cases k with
    | zero =>
      rw [distinguishedIn, if_neg (by omega)]
      exact List.mem_cons_self
    | succ k =>
      rw [distinguishedIn_succ (by omega) hw']
      simp
  rw [distinguishedIn_succ hn hw]
  constructor
  · intro h
    refine ⟨fun x hx hxi hg hc => h x (by simp [hx]) hxi hg (by simp [hc]),
      fun hg hne => h _ (by simp) hinner hg ?_, fun x hx hxi hg hc => h x (by simp [hx]) hxi hg
        (by simp [hc])⟩
    rw [hchild]
    exact List.mem_append_left _ (hfirst.1 hne)
  · rintro ⟨hl, hm, hr⟩ x hx hxi hg hc
    rcases List.mem_append.1 hx with hx | hx
    · have hb := mem_distinguishedIn hx
      obtain ⟨hlt, -⟩ := leftChild_in_block (by omega) hxi hb.2.1 hb.2.2
      rcases List.mem_append.1 hc with hc | hc
      · exact hl x hx hxi hg hc
      · rcases List.mem_cons.1 hc with hc | hc
        · omega
        · have := mem_distinguishedIn hc
          omega
    · rcases List.mem_cons.1 hx with rfl | hx
      · refine hm hg (hfirst.2 ?_)
        rw [hchild] at hc
        rcases List.mem_append.1 hc with hc | hc
        · exact hc
        · rcases List.mem_cons.1 hc with hc | hc
          · omega
          · have := mem_distinguishedIn hc
            omega
      · have hb := mem_distinguishedIn hx
        obtain ⟨-, hge⟩ := leftChild_in_block (by omega) hxi hb.2.1 hb.2.2
        refine hr x hx hxi hg ?_
        rcases List.mem_append.1 hc with hc | hc
        · have := mem_distinguishedIn hc
          omega
        · rcases List.mem_cons.1 hc with hc | hc
          · omega
          · exact hc

/-- **Walks that are the same.** -/
theorem walkIn_congr (hle : ∀ x, goesLeft' x = true → goesLeft x = true)
    (hmono : ∀ {x y}, x ≤ y → goesLeft x = true → goesLeft y = true) (hn' : n ≤ 2 ^ 62) :
    ∀ {k i left right right' : ℕ}, k < 63 →
      distinguishedIn ts window n k i left right' = distinguishedIn ts window n k i left right →
      LeftAlike goesLeft goesLeft' (distinguishedIn ts window n k i left right) →
      walkIn ts window n goesLeft' k i left right' = walkIn ts window n goesLeft k i left right
  | 0, i, left, right, right', _, hd, _ => hd
  | k + 1, i, left, right, right', hk, hd, halike => by
    by_cases hn : n ≤ node (k + 1) i
    · rw [distinguishedIn, if_pos hn, distinguishedIn, if_pos hn] at hd
      rw [distinguishedIn, if_pos hn] at halike
      rw [walkIn, if_pos hn, walkIn, if_pos hn]
      exact walkIn_congr hle hmono hn' (by omega) hd halike
    by_cases hw : right - left < window
    · rw [distinguishedIn_of_lt hw] at hd
      rw [walkIn_eq_nil.2 hd, walkIn_of_lt hw]
    have hw' : window ≤ right' - left := by
      by_contra hlt
      rw [distinguishedIn_of_lt (by omega), distinguishedIn_succ (by omega) (by omega)] at hd
      simp at hd
    rw [leftAlike_succ (by omega) (by omega) hn' (by omega)] at halike
    obtain ⟨hl, hm, hr⟩ := halike
    rw [distinguishedIn_succ (by omega) hw', distinguishedIn_succ (by omega) (by omega)] at hd
    have hd := (List.cons.inj (List.append_cancel_left hd)).2
    rw [walkIn_succ (by omega) hw', walkIn_succ (by omega) (by omega),
      walkIn_congr hle hmono hn' (by omega) hd hr, walkIn_congr hle hmono hn' (by omega) rfl hl]
    by_cases hnil : distinguishedIn ts window n k (2 * i) left (ts (node (k + 1) i)) = []
    · rw [walkIn_eq_nil.2 hnil, ite_self, ite_self]
    by_cases hg : goesLeft (node (k + 1) i) = true
    · rw [if_pos (hm hg hnil), if_pos hg]
    · rw [if_neg hg, if_neg fun hg' => hg (hle _ hg')]

/-- **Walks that come to the same entries** are the same: their outermost timestamps
make the same entries distinguished, and they go left alike. -/
theorem alike_of_mem_walkIn_iff (hmono : ∀ {x y}, x ≤ y → goesLeft x = true → goesLeft y = true)
    (hle : ∀ x, goesLeft' x = true → goesLeft x = true) (hn' : n ≤ 2 ^ 62) :
    ∀ {k i left right right' : ℕ}, k < 63 →
      (∀ x, x ∈ walkIn ts window n goesLeft' k i left right' ↔
        x ∈ walkIn ts window n goesLeft k i left right) →
      distinguishedIn ts window n k i left right' = distinguishedIn ts window n k i left right ∧
        LeftAlike goesLeft goesLeft' (distinguishedIn ts window n k i left right)
  | 0, i, left, right, right', _, h => by
    rw [walkIn, walkIn] at h
    rw [distinguishedIn, distinguishedIn]
    refine ⟨?_, fun x hx hxi => ?_⟩
    · split_ifs at h ⊢
      · rfl
      · simp at h
      · simp at h
      · rfl
    · split_ifs at hx
      · cases hx
      · rw [List.mem_singleton.1 hx, isLeaf_node] at hxi
        cases hxi
  | k + 1, i, left, right, right', hk, h => by
    by_cases hn : n ≤ node (k + 1) i
    · rw [walkIn, if_pos hn, walkIn, if_pos hn] at h
      rw [distinguishedIn, if_pos hn, distinguishedIn, if_pos hn]
      exact alike_of_mem_walkIn_iff hmono hle hn' (by omega) h
    have hnode := node_add_one (k + 1) i
    have e : (2 * i + 1 : ℕ) * 2 ^ (k + 1) = node (k + 1) i + 1 := hnode.symm
    by_cases hw : right - left < window
    · rw [walkIn_of_lt hw] at h
      have hnil := walkIn_eq_nil.1 (List.eq_nil_iff_forall_not_mem.2 fun x hx => by
        have := (h x).1 hx
        cases this)
      rw [hnil, distinguishedIn_of_lt hw]
      exact ⟨rfl, fun x hx => by cases hx⟩
    have hw' : window ≤ right' - left := by
      by_contra hlt
      have := (h (node (k + 1) i)).2 ((mem_walkIn_succ (by omega) (by omega)).2 (.inl rfl))
      rw [walkIn_of_lt (by omega)] at this
      cases this
    simp only [mem_walkIn_succ (show node (k + 1) i < n by omega) hw',
      mem_walkIn_succ (show node (k + 1) i < n by omega) (show window ≤ right - left by omega)] at h
    -- what lies right of the node, and what lies left of it
    have hgt : ∀ {g : ℕ → Bool} {r x : ℕ},
        x ∈ walkIn ts window n g k (2 * i + 1) (ts (node (k + 1) i)) r → node (k + 1) i < x := by
      intro g r x hx
      have := mem_distinguishedIn (mem_distinguishedIn_of_walkIn hx)
      omega
    have hlt : ∀ {g : ℕ → Bool} {x : ℕ},
        x ∈ walkIn ts window n g k (2 * i) left (ts (node (k + 1) i)) → x < node (k + 1) i := by
      intro g x hx
      have := mem_distinguishedIn (mem_distinguishedIn_of_walkIn hx)
      omega
    have hright : ∀ x, x ∈ walkIn ts window n goesLeft' k (2 * i + 1) (ts (node (k + 1) i)) right' ↔
        x ∈ walkIn ts window n goesLeft k (2 * i + 1) (ts (node (k + 1) i)) right := by
      intro x
      constructor
      · intro hx
        rcases (h x).1 (.inr (.inl hx)) with rfl | hx' | ⟨-, hx'⟩
        · exact absurd (hgt hx) (lt_irrefl _)
        · exact hx'
        · exact absurd (hgt hx) (hlt hx').not_gt
      · intro hx
        rcases (h x).2 (.inr (.inl hx)) with rfl | hx' | ⟨-, hx'⟩
        · exact absurd (hgt hx) (lt_irrefl _)
        · exact hx'
        · exact absurd (hgt hx) (hlt hx').not_gt
    have hleft : ∀ x, (goesLeft' (node (k + 1) i) = true ∧
        x ∈ walkIn ts window n goesLeft' k (2 * i) left (ts (node (k + 1) i))) ↔
          goesLeft (node (k + 1) i) = true ∧
            x ∈ walkIn ts window n goesLeft k (2 * i) left (ts (node (k + 1) i)) := by
      intro x
      constructor
      · intro hx
        rcases (h x).1 (.inr (.inr hx)) with rfl | hx' | hx'
        · exact absurd (hlt hx.2) (lt_irrefl _)
        · exact absurd (hgt hx') (hlt hx.2).not_gt
        · exact hx'
      · intro hx
        rcases (h x).2 (.inr (.inr hx)) with rfl | hx' | hx'
        · exact absurd (hlt hx.2) (lt_irrefl _)
        · exact absurd (hgt hx') (hlt hx.2).not_gt
        · exact hx'
    obtain ⟨hd, hr⟩ := alike_of_mem_walkIn_iff hmono hle hn' (by omega) hright
    rw [leftAlike_succ (by omega) (by omega) hn' (by omega), distinguishedIn_succ (by omega) hw',
      distinguishedIn_succ (by omega) (by omega), hd]
    refine ⟨rfl, ?_, fun hg hne => ?_, hr⟩
    · by_cases hg : goesLeft (node (k + 1) i) = true
      · by_cases hg' : goesLeft' (node (k + 1) i) = true
        · have hsame : ∀ x, x ∈ walkIn ts window n goesLeft' k (2 * i) left (ts (node (k + 1) i)) ↔
              x ∈ walkIn ts window n goesLeft k (2 * i) left (ts (node (k + 1) i)) := fun x => by
            simpa [hg, hg'] using hleft x
          exact (alike_of_mem_walkIn_iff hmono hle hn' (by omega) hsame).2
        · -- nothing is there to go to
          have hnil : walkIn ts window n goesLeft k (2 * i) left (ts (node (k + 1) i)) = [] :=
            List.eq_nil_iff_forall_not_mem.2 fun x hx => hg' ((hleft x).2 ⟨hg, hx⟩).1
          rw [walkIn_eq_nil.1 hnil]
          exact fun x hx => by cases hx
      · intro x hx hxi hgx
        have := mem_distinguishedIn hx
        exact absurd (hmono (show x ≤ node (k + 1) i by omega) hgx) hg
    · obtain ⟨x, hx⟩ := List.exists_mem_of_ne_nil _ fun hnil => hne (walkIn_eq_nil.1 hnil)
      exact ((hleft x).2 ⟨hg, hx⟩).1

end

end LogMath

end KeyTransparency
