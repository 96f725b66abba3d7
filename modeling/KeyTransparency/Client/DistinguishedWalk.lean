/-
# The two walks over the distinguished entries

A server that answers for the distinguished entries and the client that verifies its
answer walk over the log apart from each other.  Each walk visits the entries of
`walkIn`, the server's between the timestamps of its last entry, the client's between
that of the head; and the server does not go left of an entry that is no longer recent.
-/

import KeyTransparency.Client.OwnerWalk
import KeyTransparency.Client.Retained
import KeyTransparency.Tree.DistinguishedWalk

namespace KeyTransparency

open InOrder LogMath LogVerifier MerkleLog

/-- Whether an entry lies right of the stop. -/
def rightOf (stop : Option ℕ) (x : ℕ) : Bool := decide (∀ s ∈ stop, s < x)

theorem rightOf_mono {stop : Option ℕ} {x y : ℕ} (hxy : x ≤ y) (h : rightOf stop x = true) :
    rightOf stop y = true := by
  rw [rightOf, decide_eq_true_eq] at h ⊢
  exact fun s hs => (h s hs).trans_le hxy

/-! ### The client's walk -/

namespace KtClient

/-- What the client goes on to from an entry between two timestamps. -/
def walkChildren (ts : ℕ → U64) (n rmw : ℕ) (stop : Option ℕ) (x : ℕ × U64 × U64) :
    Option (List (ℕ × U64 × U64)) :=
  if x.2.2.val - x.2.1.val < rmw then none
  else some ((if isLeaf x.1 then [] else
      ((ibstRightChild x.1 n).map fun rc => (rc, ts x.1, x.2.2)).toList) ++
    if isLeaf x.1 = false ∧ ∀ s ∈ stop, s < x.1 then [(leftChild x.1, x.2.1, ts x.1)] else [])

theorem length_walkChildren {ts : ℕ → U64} {n rmw : ℕ} {stop : Option ℕ} {x : ℕ × U64 × U64}
    {children : List (ℕ × U64 × U64)} (h : walkChildren ts n rmw stop x = some children) :
    children.length ≤ 2 := by
  rw [walkChildren] at h
  split_ifs at h
  all_goals rw [← Option.some.inj h]
  all_goals cases ibstRightChild x.1 n <;> simp

/-- **The entries of the client's walk.** -/
theorem depthFirst_walkChildren (ts : ℕ → U64) {n rmw : ℕ} (stop : Option ℕ) : ∀ {k i : ℕ}
    {lo hi : U64}, k < 64 → node k i < n →
    DepthFirst (walkChildren ts n rmw stop) Prod.fst [(node k i, lo, hi)]
      (walkIn (fun e => (ts e).val) rmw n (rightOf stop) k i lo.val hi.val) := by
  intro k
  induction k using Nat.strong_induction_on with
  | _ k ih =>
    intro i lo hi hk hlt
    by_cases hw : hi.val - lo.val < rmw
    · rw [walkIn_of_lt hw]
      exact .skip (if_pos hw) .done
    cases k with
    | zero =>
      have hleaf : isLeaf (node 0 i) = true := by rw [isLeaf_node]; rfl
      have hnone : walkChildren ts n rmw stop (node 0 i, lo, hi) = some [] := by
        rw [walkChildren, if_neg hw, if_pos hleaf, if_neg fun h => by rw [hleaf] at h; cases h.1]
        rfl
      rw [walkIn, if_neg (by omega)]
      exact .node hnone .done
    | succ k =>
      have hinner : isLeaf (node (k + 1) i) = false := by simp [isLeaf_node]
      have hchild : leftChild (node (k + 1) i) = node k (2 * i) := leftChild_node (by omega) i
      have hleft : DepthFirst (walkChildren ts n rmw stop) Prod.fst
          (if isLeaf (node (k + 1) i) = false ∧ ∀ s ∈ stop, s < node (k + 1) i then
            [(leftChild (node (k + 1) i), lo, ts (node (k + 1) i))] else [])
          (if rightOf stop (node (k + 1) i) then
            walkIn (fun e => (ts e).val) rmw n (rightOf stop) k (2 * i) lo.val (ts (node (k + 1) i)).val
              else []) := by
        by_cases hgo : ∀ s ∈ stop, s < node (k + 1) i
        · have hle : node k (2 * i) < n := by
            have := node_add_one (k + 1) i
            have := node_add_one k (2 * i)
            have := Nat.two_pow_pos k
            have e : (2 * i + 1) * 2 ^ (k + 1) = (2 * (2 * i) + 1) * 2 ^ k + 2 ^ k := by ring
            omega
          rw [if_pos ⟨hinner, hgo⟩, if_pos (by simpa [rightOf] using hgo), hchild]
          exact ih k (by omega) (by omega) hle
        · rw [if_neg fun h => hgo h.2, if_neg (by simpa [rightOf] using hgo)]
          exact .done
      have hright : DepthFirst (walkChildren ts n rmw stop) Prod.fst
          (if isLeaf (node (k + 1) i) then [] else ((ibstRightChild (node (k + 1) i) n).map fun rc =>
            (rc, ts (node (k + 1) i), hi)).toList)
          (walkIn (fun e => (ts e).val) rmw n (rightOf stop) k (2 * i + 1)
            (ts (node (k + 1) i)).val hi.val) := by
        rw [if_neg (by simp [hinner]), ibstRightChild_node hk]
        rcases ibstRightLoop_descends (n := n) (Q := fun k' j' =>
          walkIn (fun e => (ts e).val) rmw n (rightOf stop) k (2 * i + 1) (ts (node (k + 1) i)).val hi.val =
            walkIn (fun e => (ts e).val) rmw n (rightOf stop) k' j' (ts (node (k + 1) i)).val hi.val)
          (fun {k' j'} h hQ => by rw [hQ, walkIn, if_pos h]) (show k < 64 by omega) (by omega) rfl with
          ⟨k', j', hk', hloop, hlt', heq⟩ | ⟨hloop, j', hge, heq⟩
        · rw [hloop, heq]
          exact ih k' (by omega) (by omega) hlt'
        · rw [hloop, heq, walkIn, if_pos (.inl hge)]
          exact .done
      rw [walkIn_succ hlt (by omega)]
      exact .node (by rw [walkChildren, if_neg hw]) (hright.append hleft)

section

variable {P : Primitives} {L : LabelLog} {visits : List Visit} {m : ℕ} {proof : CombinedTreeProof}
  {rmw : ℕ} {stop : Option ℕ} {stack : List (ℕ × U64 × U64)} {l : List ℕ}

/-- **The client follows the walk** when the proof was made of it. -/
theorem distinguishedLoop_honest (ht : Transcript P L visits m proof)
    (h : DepthFirst (walkChildren L.timestamp L.size rmw stop) Prod.fst stack l) :
    ∀ {fuel : ℕ} {walked : List ℕ} {done : List Visit} {reader : ProofReader} {k : ℕ},
      stack.length + 2 * l.length < fuel → reader.At L proof (entriesOf done) k →
      done ++ l.map .stamp <+: visits →
      ∃ reader', distinguishedLoop L.size rmw stop fuel stack walked reader = .ok (walked ++ l, reader') ∧
        reader'.At L proof (entriesOf (done ++ l.map .stamp)) k := by
  induction h with
  | done =>
    intro fuel walked done reader k hfuel hreader _
    obtain ⟨fuel, rfl⟩ := Nat.exists_eq_succ_of_ne_zero (show fuel ≠ 0 by omega)
    exact ⟨reader, by rw [distinguishedLoop, List.append_nil],
      by rwa [List.map_nil, List.append_nil]⟩
  | @skip x stack l hx _ ih =>
    intro fuel walked done reader k hfuel hreader hvisits
    obtain ⟨fuel, rfl⟩ := Nat.exists_eq_succ_of_ne_zero (show fuel ≠ 0 by omega)
    have hw : x.2.2.val - x.2.1.val < rmw := by
      by_contra hw
      rw [walkChildren, if_neg hw] at hx
      cases hx
    obtain ⟨reader', hrun, hreader'⟩ := @ih fuel walked _ _ _
      (by rw [List.length_cons] at hfuel; omega) hreader hvisits
    refine ⟨reader', ?_, hreader'⟩
    obtain ⟨curr, lo, hi⟩ := x
    rw [distinguishedLoop, if_pos hw]
    exact hrun
  | @visit x children stack l hx _ ih =>
    intro fuel walked done reader k hfuel hreader hvisits
    obtain ⟨fuel, rfl⟩ := Nat.exists_eq_succ_of_ne_zero (show fuel ≠ 0 by omega)
    have hlen := length_walkChildren hx
    obtain ⟨curr, lo, hi⟩ := x
    have hw : ¬ hi.val - lo.val < rmw := fun hw => by
      rw [walkChildren, if_pos hw] at hx
      cases hx
    rw [walkChildren, if_neg hw] at hx
    obtain rfl := Option.some.inj hx
    rw [List.map_cons, List.append_cons] at hvisits
    have hentries := entriesOf_beginning ((List.prefix_append _ _).trans hvisits)
    rw [entriesOf_stamp] at hentries
    obtain ⟨reader₁, hts, hreader₁⟩ := hreader.timestamp ht hentries
    rw [← entriesOf_stamp] at hreader₁
    obtain ⟨reader', hrun, hreader'⟩ := @ih fuel (walked ++ [curr]) _ _ _
      (by rw [List.length_cons, List.length_cons] at hfuel; rw [List.length_append]; omega) hreader₁
      hvisits
    refine ⟨reader', ?_, by rwa [List.map_cons, List.append_cons]⟩
    rw [distinguishedLoop, if_neg hw, hts, Result.ok_bind]
    dsimp only at hrun ⊢
    rw [hrun, List.append_assoc]
    rfl

/-- **What the client walks** is the walk over the log that it read. -/
theorem distinguishedLoop_walked {ts : ℕ → U64} {n : ℕ} (hn : n ≤ 2 ^ 62) : ∀ {fuel : ℕ}
    {stack : List (ℕ × U64 × U64)} {walked walked' : List ℕ} {reader reader' : ProofReader},
    (∀ e ∈ stack, e.1 < n) →
    distinguishedLoop n rmw stop fuel stack walked reader = .ok (walked', reader') →
    (∀ e ∈ reader'.assignedTs.entries, e.2 = ts e.1) →
    ∃ l, DepthFirst (walkChildren ts n rmw stop) Prod.fst stack l ∧ walked' = walked ++ l ∧
      ∀ e ∈ reader'.assignedTs.entries, e ∈ reader.assignedTs.entries ∨ e.1 ∈ l
  | 0, stack, walked, walked', reader, reader', _, h, _ => by cases h
  | fuel + 1, [], walked, walked', reader, reader', _, h, _ => by
    obtain ⟨rfl, rfl⟩ := Prod.mk.inj (Except.ok.inj h)
    exact ⟨[], .done, (List.append_nil _).symm, fun _ => .inl⟩
  | fuel + 1, (curr, lo, hi) :: stack, walked, walked', reader, reader', hlt, h, htrue => by
    rw [distinguishedLoop] at h
    by_cases hw : hi.val - lo.val < rmw
    · rw [if_pos hw] at h
      obtain ⟨l, hl, rfl, hreads⟩ :=
        distinguishedLoop_walked hn (fun e he => hlt e (List.mem_cons_of_mem _ he)) h htrue
      exact ⟨l, .skip (if_pos hw) hl, rfl, hreads⟩
    · rw [if_neg hw] at h
      obtain ⟨⟨ts', reader₁⟩, hts, h⟩ := Result.bind_eq_ok.1 h
      dsimp only at h
      have hnext := @distinguishedStack_lt n stop curr lo ts' hi stack (by omega) (hlt _ List.mem_cons_self)
        fun e he => hlt e (List.mem_cons_of_mem _ he)
      obtain rfl : ts' = ts curr :=
        htrue (curr, ts') ((distinguishedLoop_extends (by omega) hnext h).1.keeps (ProofReader.mem_of_timestamp hts))
      obtain ⟨l, hl, rfl, hreads⟩ := distinguishedLoop_walked hn hnext h htrue
      refine ⟨curr :: l, .visit (by rw [walkChildren, if_neg hw]) hl, by simp, fun e he => ?_⟩
      rcases hreads e he with he | he
      · exact ((ProofReader.timestamp_reads hts).2 e he).imp_right fun heq => List.mem_cons.2 (.inl heq)
      · exact .inr (List.mem_cons_of_mem _ he)

end

end KtClient

/-! ### The server's walk -/

namespace Tree

/-- Whether the server goes left of an entry. -/
def goesLeft (stop : Option ℕ) (recent : List ℕ) (x : ℕ) : Bool := rightOf stop x && decide (x ∈ recent)

/-- What the server goes on to from an entry. -/
def walkChildren (n : ℕ) (stop : Option ℕ) (dset recent : List ℕ) (x : ℕ) : Option (List ℕ) :=
  if x ∉ dset then none
  else some ((if isLeaf x then [] else (ibstRightChild x n).toList) ++
    if isLeaf x = false ∧ (∀ s ∈ stop, s < x) ∧ x ∈ recent then [leftChild x] else [])

theorem length_walkChildren {n x : ℕ} {stop : Option ℕ} {dset recent children : List ℕ}
    (h : walkChildren n stop dset recent x = some children) : children.length ≤ 2 := by
  rw [walkChildren] at h
  split_ifs at h
  all_goals rw [← Option.some.inj h]
  all_goals cases ibstRightChild x n <;> simp

/-- In a node's block, the members of a list are the distinguished entries below it. -/
def Below (ts : ℕ → ℕ) (rmw n : ℕ) (dset : List ℕ) (k i left right : ℕ) : Prop :=
  ∀ x, i * 2 ^ (k + 1) ≤ x → x + 1 < (i + 1) * 2 ^ (k + 1) →
    (x ∈ dset ↔ x ∈ distinguishedIn ts rmw n k i left right)

theorem Below.skip {ts : ℕ → ℕ} {rmw n k i left right : ℕ} {dset : List ℕ} (hge : n ≤ node (k + 1) i)
    (h : Below ts rmw n dset (k + 1) i left right) : Below ts rmw n dset k (2 * i) left right := by
  intro x hlow hhigh
  have hpos := Nat.two_pow_pos (k + 1)
  have e₁ : i * 2 ^ (k + 1 + 1) = 2 * i * 2 ^ (k + 1) := by ring
  have e₂ : (i + 1) * 2 ^ (k + 1 + 1) = 2 * i * 2 ^ (k + 1) + 2 * 2 ^ (k + 1) := by ring
  have e₃ : (2 * i + 1) * 2 ^ (k + 1) = 2 * i * 2 ^ (k + 1) + 2 ^ (k + 1) := by ring
  rw [h x (by omega) (by omega), distinguishedIn, if_pos hge]

/-- On both sides of a distinguished entry. -/
theorem Below.sides {ts : ℕ → ℕ} {rmw n k i left right : ℕ} {dset : List ℕ}
    (h : Below ts rmw n dset (k + 1) i left right) (hlt : node (k + 1) i < n)
    (hw : rmw ≤ right - left) :
    Below ts rmw n dset k (2 * i) left (ts (node (k + 1) i)) ∧
      Below ts rmw n dset k (2 * i + 1) (ts (node (k + 1) i)) right := by
  have hnode := node_add_one (k + 1) i
  have hpos := Nat.two_pow_pos (k + 1)
  have e₁ : i * 2 ^ (k + 1 + 1) = 2 * i * 2 ^ (k + 1) := by ring
  have e₂ : (i + 1) * 2 ^ (k + 1 + 1) = 2 * i * 2 ^ (k + 1) + 2 * 2 ^ (k + 1) := by ring
  have e₃ : (2 * i + 1) * 2 ^ (k + 1) = 2 * i * 2 ^ (k + 1) + 2 ^ (k + 1) := by ring
  have e₄ : (2 * i + 1 + 1) * 2 ^ (k + 1) = 2 * i * 2 ^ (k + 1) + 2 * 2 ^ (k + 1) := by ring
  constructor
  · intro x hlow hhigh
    rw [h x (by omega) (by omega), distinguishedIn_succ hlt hw, List.mem_append, List.mem_cons]
    constructor
    · rintro (hx | rfl | hx)
      · exact hx
      · omega
      · have := mem_distinguishedIn hx
        omega
    · exact .inl
  · intro x hlow hhigh
    rw [h x (by omega) (by omega), distinguishedIn_succ hlt hw, List.mem_append, List.mem_cons]
    constructor
    · rintro (hx | rfl | hx)
      · have := mem_distinguishedIn hx
        omega
      · omega
      · exact hx
    · exact fun hx => .inr (.inr hx)

/-- A node is distinguished when the timestamps on its sides are a window apart. -/
theorem Below.node_mem {ts : ℕ → ℕ} {rmw n k i left right : ℕ} {dset : List ℕ}
    (h : Below ts rmw n dset k i left right) (hlt : node k i < n) :
    node k i ∈ dset ↔ rmw ≤ right - left := by
  have hnode := node_add_one k i
  have hpos := Nat.two_pow_pos k
  have e₁ : i * 2 ^ (k + 1) + 2 ^ k = (2 * i + 1) * 2 ^ k := by ring
  have e₂ : (i + 1) * 2 ^ (k + 1) = (2 * i + 1) * 2 ^ k + 2 ^ k := by ring
  rw [h _ (by omega) (by omega)]
  constructor
  · intro hmem
    by_contra hw
    rw [distinguishedIn_of_lt (by omega)] at hmem
    cases hmem
  · intro hw
    cases k with
    | zero =>
      rw [distinguishedIn, if_neg (by omega)]
      exact List.mem_cons_self
    | succ k =>
      rw [distinguishedIn_succ hlt hw]
      simp

/-- **The entries of the server's walk.** -/
theorem depthFirst_walkChildren {ts : ℕ → ℕ} {n rmw : ℕ} (stop : Option ℕ) {dset : List ℕ}
    (recent : List ℕ) : ∀ {k i left right : ℕ}, k < 64 → node k i < n →
    Below ts rmw n dset k i left right →
    DepthFirst (walkChildren n stop dset recent) (fun x => x) [node k i]
      (walkIn ts rmw n (goesLeft stop recent) k i left right) := by
  intro k
  induction k using Nat.strong_induction_on with
  | _ k ih =>
    intro i left right hk hlt hbelow
    have hmem := hbelow.node_mem hlt
    by_cases hw : right - left < rmw
    · rw [walkIn_of_lt hw]
      exact .skip (if_pos fun h => by have := hmem.1 h; omega) .done
    have hvisit : ¬ node k i ∉ dset := not_not.2 (hmem.2 (by omega))
    cases k with
    | zero =>
      have hleaf : isLeaf (node 0 i) = true := by rw [isLeaf_node]; rfl
      have hnone : walkChildren n stop dset recent (node 0 i) = some [] := by
        rw [walkChildren, if_neg hvisit, if_pos hleaf, if_neg fun h => by rw [hleaf] at h; cases h.1]
        rfl
      rw [walkIn, if_neg (by omega)]
      exact .node hnone .done
    | succ k =>
      have hinner : isLeaf (node (k + 1) i) = false := by simp [isLeaf_node]
      have hchild : leftChild (node (k + 1) i) = node k (2 * i) := leftChild_node (by omega) i
      obtain ⟨hbelow₁, hbelow₂⟩ := hbelow.sides hlt (by omega)
      have hleft : DepthFirst (walkChildren n stop dset recent) (fun x => x)
          (if isLeaf (node (k + 1) i) = false ∧ (∀ s ∈ stop, s < node (k + 1) i) ∧
            node (k + 1) i ∈ recent then [leftChild (node (k + 1) i)] else [])
          (if goesLeft stop recent (node (k + 1) i) then
            walkIn ts rmw n (goesLeft stop recent) k (2 * i) left (ts (node (k + 1) i)) else []) := by
        by_cases hgo : (∀ s ∈ stop, s < node (k + 1) i) ∧ node (k + 1) i ∈ recent
        · have hle : node k (2 * i) < n := by
            have := node_add_one (k + 1) i
            have := node_add_one k (2 * i)
            have := Nat.two_pow_pos k
            have e : (2 * i + 1) * 2 ^ (k + 1) = (2 * (2 * i) + 1) * 2 ^ k + 2 ^ k := by ring
            omega
          rw [if_pos ⟨hinner, hgo⟩, if_pos (by simpa [goesLeft, rightOf] using hgo), hchild]
          exact ih k (by omega) (by omega) hle hbelow₁
        · rw [if_neg fun h => hgo h.2, if_neg (by simpa [goesLeft, rightOf] using hgo)]
          exact .done
      have hright : DepthFirst (walkChildren n stop dset recent) (fun x => x)
          (if isLeaf (node (k + 1) i) then [] else (ibstRightChild (node (k + 1) i) n).toList)
          (walkIn ts rmw n (goesLeft stop recent) k (2 * i + 1) (ts (node (k + 1) i)) right) := by
        rw [if_neg (by simp [hinner]), ibstRightChild_node hk]
        rcases ibstRightLoop_descends (n := n) (Q := fun k' j' =>
          walkIn ts rmw n (goesLeft stop recent) k (2 * i + 1) (ts (node (k + 1) i)) right =
            walkIn ts rmw n (goesLeft stop recent) k' j' (ts (node (k + 1) i)) right ∧
              Below ts rmw n dset k' j' (ts (node (k + 1) i)) right)
          (fun {k' j'} h hQ => ⟨by rw [hQ.1, walkIn, if_pos h], hQ.2.skip h⟩) (show k < 64 by omega)
          (by omega) ⟨rfl, hbelow₂⟩ with
          ⟨k', j', hk', hloop, hlt', heq, hbelow'⟩ | ⟨hloop, j', hge, heq, -⟩
        · rw [hloop, heq]
          exact ih k' (by omega) (by omega) hlt' hbelow'
        · rw [hloop, heq, walkIn, if_pos (.inl hge)]
          exact .done
      rw [walkIn_succ hlt (by omega)]
      exact .node (by rw [walkChildren, if_neg hvisit]) (hright.append hleft)

/-- **The server gathers its walk.** -/
theorem traverseDistinguishedLoop_honest {P : Primitives} {t : Tree} {L : LabelLog} {label : Octets}
    (hs : t.ServesLog P L) {n : ℕ} {stop : Option ℕ} {dset recent stack l : List ℕ}
    (h : DepthFirst (walkChildren n stop dset recent) (fun x => x) stack l) :
    ∀ {fuel : ℕ} {visits : List Visit} {s : TraversalSession}, stack.length + 2 * l.length < fuel →
      (∀ e ∈ l, e < L.size) → s.Gathered P label L none visits →
      ∃ s', t.traverseDistinguishedLoop n stop dset recent fuel stack s = .ok s' ∧
        s'.Gathered P label L none (visits ++ l.map .stamp) := by
  induction h with
  | done =>
    intro fuel visits s hfuel _ hgathered
    obtain ⟨fuel, rfl⟩ := Nat.exists_eq_succ_of_ne_zero (show fuel ≠ 0 by omega)
    exact ⟨s, by rw [traverseDistinguishedLoop], by rwa [List.map_nil, List.append_nil]⟩
  | @skip x stack l hx _ ih =>
    intro fuel visits s hfuel hlt hgathered
    obtain ⟨fuel, rfl⟩ := Nat.exists_eq_succ_of_ne_zero (show fuel ≠ 0 by omega)
    have hnot : x ∉ dset := by
      by_contra hmem
      rw [walkChildren, if_neg (not_not.2 hmem)] at hx
      cases hx
    obtain ⟨s', hrun, hgathered'⟩ := @ih fuel _ _
      (by rw [List.length_cons] at hfuel; omega) hlt hgathered
    exact ⟨s', by rw [traverseDistinguishedLoop, if_pos hnot, hrun], hgathered'⟩
  | @visit x children stack l hx _ ih =>
    intro fuel visits s hfuel hlt hgathered
    obtain ⟨fuel, rfl⟩ := Nat.exists_eq_succ_of_ne_zero (show fuel ≠ 0 by omega)
    have hlen := length_walkChildren hx
    have hmem : ¬ x ∉ dset := fun hnot => by
      rw [walkChildren, if_pos hnot] at hx
      cases hx
    rw [walkChildren, if_neg hmem] at hx
    obtain rfl := Option.some.inj hx
    obtain ⟨s₁, hvisit, h₁, -, -⟩ := hgathered.visitTimestampOnly hs (hlt x List.mem_cons_self)
    obtain ⟨s', hrun, hgathered'⟩ := @ih fuel _ _
      (by rw [List.length_cons, List.length_cons] at hfuel; rw [List.length_append]; omega)
      (fun e he => hlt e (List.mem_cons_of_mem _ he)) h₁
    refine ⟨s', ?_, by rwa [List.map_cons, List.append_cons]⟩
    rw [traverseDistinguishedLoop, if_neg hmem, hvisit, Result.ok_bind]
    exact hrun

end Tree

end KeyTransparency
