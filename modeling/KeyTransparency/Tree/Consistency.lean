/-
# Consistency proofs

`consistency_proof` lists the nodes from which a verifier is to recompute the root of the
first `m` leaves and the root of all `n`.  The verifier's recursion is `recompute`: it
splits a range of leaves at the largest power of two below its length, as the log tree
does, and asks for the nodes on the other side by their ids in the log tree.

The source finds the children of `root(n)`, the root of the search tree over the entries,
where the log tree's root is `merkle_root(n)`.  The two are one id exactly when `n` is a
power of two, and for all other sizes the nodes listed leave leaves out
(`consistency_proof_iff`).
-/

import KeyTransparency.Library.MerkleLog.LeftBalanced
import KeyTransparency.Tree.HistoricalRoot

namespace KeyTransparency

open InOrder LogMath MerkleLog

/-! ### What a verifier recomputes -/

/-- The id of the node of the log tree over `count` leaves from `start` on. -/
def LogMath.subtreeId (start count : ℕ) : ℕ := merkleRoot count + 2 * start

/-- **The roots of the first `m` and of all `n` leaves from `start` on**, from the values of
nodes.  The flag says that the first root is that of the whole smaller log, which the
verifier has. -/
def recompute (par : Bool → Octets → Octets → Octets) (given : ℕ → Option Octets)
    (oldRoot : Octets) (start m n : ℕ) (b : Bool) : Option (Octets × Octets) :=
  if m = n then
    if b then some (oldRoot, oldRoot) else (given (subtreeId start n)).map fun v => (v, v)
  else if 1 < n then
    if m ≤ splitSize n then do
      let roots ← recompute par given oldRoot start m (splitSize n) b
      let right ← given (subtreeId (start + splitSize n) (n - splitSize n))
      return (roots.1, par (splitSize n == 1) roots.2 right)
    else do
      let left ← given (subtreeId start (splitSize n))
      let roots ← recompute par given oldRoot (start + splitSize n) (m - splitSize n)
        (n - splitSize n) false
      return (par (splitSize n == 1) left roots.1, par (splitSize n == 1) left roots.2)
  else none
termination_by n
decreasing_by
  · exact splitSize_lt ‹_›
  · have := splitSize_pos n
    omega

section

variable {par : Bool → Octets → Octets → Octets} {given : ℕ → Option Octets} {oldRoot : Octets}
  {start m n k : ℕ} {b : Bool}

theorem recompute_left (hk : 2 ^ k < n) (hk' : n ≤ 2 ^ (k + 1)) (hm : m ≤ 2 ^ k) :
    recompute par given oldRoot start m n b =
      (recompute par given oldRoot start m (2 ^ k) b).bind fun roots =>
        (given (subtreeId (start + 2 ^ k) (n - 2 ^ k))).bind fun right =>
          some (roots.1, par (k == 0) roots.2 right) := by
  have := Nat.two_pow_pos k
  rw [recompute, if_neg (by omega), if_pos (by omega), splitSize_eq hk hk', if_pos hm,
    two_pow_beq_one]
  rfl

theorem recompute_right (hk : 2 ^ k < n) (hk' : n ≤ 2 ^ (k + 1)) (hm : 2 ^ k < m) (hmn : m < n) :
    recompute par given oldRoot start m n b =
      (given (subtreeId start (2 ^ k))).bind fun left =>
        (recompute par given oldRoot (start + 2 ^ k) (m - 2 ^ k) (n - 2 ^ k) false).bind fun roots =>
          some (par (k == 0) left roots.1, par (k == 0) left roots.2) := by
  have := Nat.two_pow_pos k
  rw [recompute, if_neg (by omega), if_pos (by omega), splitSize_eq hk hk', if_neg (by omega),
    two_pow_beq_one]
  rfl

/-! ### Powers of two -/

theorem height_two_pow (k : ℕ) : height (2 ^ k) = k :=
  le_antisymm (height_le_of_le_two_pow le_rfl)
    ((Nat.pow_le_pow_iff_right (by omega : 1 < 2)).1 (le_two_pow_height (2 ^ k)))

/-- From the height of a log on, the first node has the root as its value. -/
theorem value_eq_root {leaf : ℕ → Octets} : ∀ {k : ℕ}, m ≤ 2 ^ k →
    value par leaf m k 0 = MerkleLog.root par leaf m
  | 0, h => by rw [MerkleLog.root, Nat.le_zero.1 (height_le_of_le_two_pow h)]
  | k + 1, h => by
    rcases (height_le_of_le_two_pow h).eq_or_lt with heq | hlt
    · rw [MerkleLog.root, heq]
    · have hle : m ≤ 2 ^ k :=
        (le_two_pow_height m).trans (Nat.pow_le_pow_right (by omega) (by omega))
      rw [value_succ_of_le (by omega), Nat.mul_zero, value_eq_root hle]

theorem subtreeId_two_pow (hk : k ≤ 62) (q : ℕ) : subtreeId (q * 2 ^ k) (2 ^ k) = node k q := by
  have : 2 ^ k ≤ 2 ^ 62 := Nat.pow_le_pow_right (by omega) hk
  rw [subtreeId, merkleRoot_eq (by omega), height_two_pow, Nat.mul_comm 2, node_add]

/-- The nodes below a block, moved to another block of its size. -/
theorem node_shift {j i k : ℕ} (hj : j ≤ k) (q : ℕ) :
    node j i + 2 * (q * 2 ^ k) = node j (i + q * 2 ^ (k - j)) := by
  have e : (2 : ℕ) ^ k = 2 ^ (k - j) * 2 ^ j := by rw [← pow_add, Nat.sub_add_cancel hj]
  rw [e]
  simp only [node, pow_succ]
  ring

/-- The ids of the nodes below the first block of a size. -/
def InSubtree (k id : ℕ) : Prop := ∃ j i, id = node j i ∧ j ≤ k ∧ (i + 1) * 2 ^ j ≤ 2 ^ k

theorem InSubtree.lt {id : ℕ} (h : InSubtree k id) : id < 2 * 2 ^ k := by
  obtain ⟨j, i, rfl, -, hle⟩ := h
  have := Nat.two_pow_pos j
  have e : i * 2 ^ (j + 1) = 2 * (i * 2 ^ j) := by ring
  have e' : (i + 1) * 2 ^ j = i * 2 ^ j + 2 ^ j := by ring
  rw [node]
  omega

theorem InSubtree.mono {id : ℕ} (h : InSubtree k id) : InSubtree (k + 1) id := by
  obtain ⟨j, i, rfl, hj, hle⟩ := h
  have e : (2 : ℕ) ^ (k + 1) = 2 * 2 ^ k := by ring
  exact ⟨j, i, rfl, by omega, by omega⟩

theorem InSubtree.shift {id : ℕ} (h : InSubtree k id) : InSubtree (k + 1) (id + 2 * 2 ^ k) := by
  obtain ⟨j, i, rfl, hj, hle⟩ := h
  have hshift := node_shift (i := i) hj 1
  have e : (2 : ℕ) ^ (k + 1) = 2 ^ k + 2 ^ k := by ring
  have e' : (2 : ℕ) ^ (k - j) * 2 ^ j = 2 ^ k := by rw [← pow_add, Nat.sub_add_cancel hj]
  rw [Nat.one_mul, Nat.one_mul] at hshift
  refine ⟨j, i + 2 ^ (k - j), hshift, by omega, ?_⟩
  have e'' : (i + 2 ^ (k - j) + 1) * 2 ^ j = (i + 1) * 2 ^ j + 2 ^ (k - j) * 2 ^ j := by ring
  omega

/-- One turn of `sub_proof` on a power of two, where the roots of both trees are one node. -/
theorem subProof_two_pow_succ {fuel m k : ℕ} (hk : k < 62) (h₀ : m < 2 ^ (k + 1)) {b : Bool} :
    subProof (fuel + 1) m (2 ^ (k + 1)) b =
      if m ≤ 2 ^ k then subProof fuel m (2 ^ k) b >>= fun ids => .ok (ids ++ [node k 1])
      else subProof fuel (m - 2 ^ k) (2 ^ k) false >>= fun ids =>
        .ok (node k 0 :: ids.map (· + 2 * 2 ^ k)) := by
  have e : (2 : ℕ) ^ (k + 1) = 2 * 2 ^ k := by ring
  have hpos := Nat.two_pow_pos k
  have hroot : root (2 ^ (k + 1)) = node (k + 1) 0 := root_two_pow (by omega)
  have hright : rightChild (node (k + 1) 0) (2 ^ (k + 1)) = .ok (node k 1) := by
    rw [rightChild_node (by omega), if_pos (by omega)]
  have hleft : leftChild (node (k + 1) 0) = node k 0 := leftChild_node (by omega) 0
  have hhalf : 2 ^ (k + 1) / 2 = 2 ^ k := by omega
  have hrest : 2 ^ (k + 1) - 2 ^ k = 2 ^ k := by omega
  rw [subProof, if_neg (by omega), log2_two_pow (by omega), Nat.one_shiftLeft, if_pos rfl, hroot,
    hright, hleft, hhalf]
  dsimp only
  rw [hrest]
  rfl

/-- **For a power of two** the ids are those of distinct nodes of the block, and their
values, as nodes of the `q`-th block of this size, make up the two roots. -/
theorem subProof_two_pow {leaf : ℕ → Octets} {N : ℕ} : ∀ {k fuel m : ℕ} (b : Bool), k < fuel →
    k ≤ 62 → 0 < m → m ≤ 2 ^ k →
    ∃ ids, subProof fuel m (2 ^ k) b = .ok ids ∧ ids.Nodup ∧ (∀ id ∈ ids, InSubtree k id) ∧
      ∀ (q : ℕ) (given : ℕ → Option Octets) (oldRoot : Octets), (q + 1) * 2 ^ k ≤ N →
        (∀ j i, node j i ∈ ids → given (node j i + 2 * (q * 2 ^ k)) =
          some (value par leaf N j (i + q * 2 ^ (k - j)))) →
        (b = true → oldRoot = value par leaf (q * 2 ^ k + m) k q) →
        recompute par given oldRoot (q * 2 ^ k) m (2 ^ k) b =
          some (value par leaf (q * 2 ^ k + m) k q, value par leaf N k q)
  | k, 0, m, b, hfuel, _, _, _ => absurd hfuel (by omega)
  | k, fuel + 1, m, b, hfuel, hk, h₀, hm => by
    rcases hm.eq_or_lt with rfl | hlt
    · have hroot : root (2 ^ k) = node k 0 := root_two_pow (by omega)
      refine ⟨if b then [] else [node k 0], by rw [subProof, if_pos rfl, hroot], ?_, ?_, ?_⟩
      · cases b <;> simp
      · intro id hid
        cases b with
        | true => cases hid
        | false =>
          obtain rfl := List.mem_singleton.1 hid
          exact ⟨k, 0, rfl, le_rfl, by omega⟩
      · intro q given oldRoot hN hgiven hold
        have e : (q + 1) * 2 ^ k = q * 2 ^ k + 2 ^ k := by ring
        have hcomplete : value par leaf N k q = value par leaf (q * 2 ^ k + 2 ^ k) k q :=
          value_of_complete hN (by omega)
        rw [recompute, if_pos rfl, hcomplete]
        cases b with
        | true => rw [if_pos rfl, hold rfl]
        | false =>
          have hvalue := hgiven k 0 (List.mem_singleton_self _)
          rw [Nat.mul_comm 2, node_add, Nat.sub_self, pow_zero, Nat.mul_one, Nat.zero_add,
            hcomplete] at hvalue
          rw [if_neg (by simp), subtreeId_two_pow hk, hvalue]
          rfl
    · cases k with
      | zero =>
        rw [pow_zero] at hlt
        omega
      | succ k =>
        have hpos := Nat.two_pow_pos k
        have e : (2 : ℕ) ^ (k + 1) = 2 * 2 ^ k := by ring
        have hself : 2 ^ (k + 1) - 2 ^ k = 2 ^ k := by omega
        -- a node of a half, moved with its block
        have hlevel : ∀ {j}, j ≤ k → (2 : ℕ) ^ (k + 1 - j) = 2 * 2 ^ (k - j) := fun {j} hj => by
          rw [show k + 1 - j = k - j + 1 by omega, pow_succ, Nat.mul_comm]
        rw [subProof_two_pow_succ (by omega) hlt]
        by_cases hmk : m ≤ 2 ^ k
        · obtain ⟨ids, hids, hnodup, hbelow, hroots⟩ :=
            @subProof_two_pow leaf N k fuel m b (by omega) (by omega) h₀ hmk
          rw [if_pos hmk, hids]
          have hlast : node k 1 = 2 * 2 ^ k + (2 ^ k - 1) := by
            rw [node]
            omega
          refine ⟨ids ++ [node k 1], rfl, ?_, ?_, ?_⟩
          · refine List.nodup_append.2 ⟨hnodup, List.nodup_singleton _, fun x hx y hy => ?_⟩
            rw [List.mem_singleton.1 hy, hlast]
            have := (hbelow x hx).lt
            omega
          · intro id hid
            rcases List.mem_append.1 hid with hid | hid
            · exact (hbelow id hid).mono
            · rw [List.mem_singleton.1 hid]
              exact ⟨k, 1, rfl, by omega, by omega⟩
          · intro q given oldRoot hN hgiven hold
            obtain ⟨e₀, e₁, e₂, e₃⟩ := block_halves k q
            have hleft := hroots (2 * q) given oldRoot (by omega)
              (fun j i hmem => by
                obtain ⟨j', i', hnode, hj, -⟩ := hbelow _ hmem
                obtain ⟨rfl, rfl⟩ := node_inj hnode
                have := hgiven j i (List.mem_append_left _ hmem)
                rwa [hlevel hj, ← e₀, show i + q * (2 * 2 ^ (k - j)) = i + 2 * q * 2 ^ (k - j) by
                  ring] at this)
              (fun hb => by rw [hold hb, value_succ_of_le (by omega), e₀])
            have hright := hgiven k 1 (List.mem_append_right _ (List.mem_singleton_self _))
            rw [node_shift (by omega), hlevel le_rfl, Nat.sub_self, pow_zero, Nat.mul_one,
              show 1 + q * 2 = 2 * q + 1 by omega] at hright
            rw [recompute_left (by omega) le_rfl hmk, hself, ← e₀, hleft,
              show 2 * q * 2 ^ k + 2 ^ k = (2 * q + 1) * 2 ^ k by omega,
              subtreeId_two_pow (by omega), hright, value_succ_of_le (by omega),
              value_succ_of_lt (show (2 * q + 1) * 2 ^ k < N by omega)]
            rfl
        · obtain ⟨ids, hids, hnodup, hbelow, hroots⟩ :=
            @subProof_two_pow leaf N k fuel (m - 2 ^ k) false (by omega) (by omega) (by omega)
              (by omega)
          rw [if_neg hmk, hids]
          have hfirst : node k 0 = 2 ^ k - 1 := by
            rw [node]
            omega
          refine ⟨node k 0 :: ids.map (· + 2 * 2 ^ k), rfl, ?_, ?_, ?_⟩
          · refine List.nodup_cons.2 ⟨fun h => ?_, hnodup.map fun x y h => Nat.add_right_cancel h⟩
            obtain ⟨x, -, hx⟩ := List.mem_map.1 h
            omega
          · intro id hid
            rcases List.mem_cons.1 hid with rfl | hid
            · exact ⟨k, 0, rfl, by omega, by omega⟩
            · obtain ⟨x, hx, rfl⟩ := List.mem_map.1 hid
              exact (hbelow x hx).shift
          · intro q given oldRoot hN hgiven hold
            obtain ⟨e₀, e₁, e₂, e₃⟩ := block_halves k q
            have hright := hroots (2 * q + 1) given oldRoot (by omega)
              (fun j i hmem => by
                obtain ⟨j', i', hnode, hj, -⟩ := hbelow _ hmem
                obtain ⟨rfl, rfl⟩ := node_inj hnode
                have hshift := node_shift (i := i) hj 1
                rw [Nat.one_mul, Nat.one_mul] at hshift
                have := hgiven j (i + 2 ^ (k - j)) (List.mem_cons_of_mem _
                  (List.mem_map.2 ⟨_, hmem, hshift⟩))
                rw [hlevel hj, ← hshift] at this
                rw [e₁, show i + (2 * q + 1) * 2 ^ (k - j) = i + 2 ^ (k - j) + q * (2 * 2 ^ (k - j)) by
                  ring, ← this]
                congr 1
                omega)
              (fun hb => by cases hb)
            have hleft := hgiven k 0 List.mem_cons_self
            rw [node_shift (by omega), hlevel le_rfl, Nat.sub_self, pow_zero, Nat.mul_one, Nat.zero_add,
              Nat.mul_comm q] at hleft
            have hsize : (2 * q + 1) * 2 ^ k + (m - 2 ^ k) = q * 2 ^ (k + 1) + m := by omega
            have hcomplete : value par leaf N k (2 * q) =
                value par leaf (q * 2 ^ (k + 1) + m) k (2 * q) :=
              value_of_complete (by omega) (by omega)
            rw [recompute_right (by omega) le_rfl (by omega) (by omega), hself, ← e₀,
              show 2 * q * 2 ^ k + 2 ^ k = (2 * q + 1) * 2 ^ k by omega, subtreeId_two_pow (by omega),
              hleft, hright, hsize, e₀, value_succ_of_lt (show (2 * q + 1) * 2 ^ k < N by omega),
              value_succ_of_lt (show (2 * q + 1) * 2 ^ k < q * 2 ^ (k + 1) + m by omega), ← hcomplete]
            rfl

/-! ### Other sizes -/

theorem inLog_two_pow_lt {id : ℕ} (h : InLog (2 ^ k) id) : id < 2 * 2 ^ k := by
  obtain ⟨j, i, rfl, hj, hi⟩ := h
  have hjk : j ≤ k := (Nat.pow_le_pow_iff_right (by omega : 1 < 2)).1 hj
  have e : (2 : ℕ) ^ k = 2 ^ (k - j) * 2 ^ j := by rw [← pow_add, Nat.sub_add_cancel hjk]
  have hi' : i + 1 ≤ 2 ^ (k - j) := by
    rw [e] at hi
    exact Nat.lt_of_mul_lt_mul_right hi
  refine InSubtree.lt ⟨j, i, rfl, hjk, ?_⟩
  rw [e]
  exact Nat.mul_le_mul_right _ hi'

/-- **For no other size** do the ids cover the leaves: the right part of the log is not
among them, or its left part is not. -/
theorem subProof_missing (hn : n ≤ 2 ^ 62) (hk : 2 ^ k < n) (hk' : n < 2 ^ (k + 1)) (h₀ : 0 < m)
    (hm : m < n) {ids : List ℕ} (hids : subProof 128 m n true = .ok ids) :
    if m ≤ 2 ^ k then subtreeId (2 ^ k) (n - 2 ^ k) ∉ ids else subtreeId 0 (2 ^ k) ∉ ids := by
  have hlog : Nat.log2 n = k := (Nat.log2_eq_iff (by omega)).2 ⟨hk.le, hk'⟩
  have hk62 : k < 62 := (Nat.pow_lt_pow_iff_right (by omega : 1 < 2)).1 (hk.trans_le hn)
  obtain ⟨l, rfl⟩ := Nat.exists_eq_succ_of_ne_zero (show k ≠ 0 by
    rintro rfl
    rw [pow_zero] at hk
    rw [Nat.zero_add, pow_one] at hk'
    omega)
  rw [Nat.succ_eq_add_one] at *
  have e : (2 : ℕ) ^ (l + 1) = 2 * 2 ^ l := by ring
  have hpos := Nat.two_pow_pos l
  have hroot : root n = node (l + 1) 0 := by rw [root_eq (by omega) (by omega), hlog]
  have hright : rightChild (node (l + 1) 0) n = .ok (node l 1) := by
    rw [rightChild_node (by omega), if_pos (by omega)]
  have hheight : height (2 ^ (l + 1)) < 127 := by
    rw [height_two_pow]
    omega
  rw [subProof, if_neg (by omega), log2_eq (by omega), hlog, Nat.one_shiftLeft,
    if_neg (show ¬ 2 ^ (l + 1) = n by omega), hroot, hright, leftChild_node (by omega)] at hids
  dsimp only at hids
  split_ifs at hids ⊢ with hmk
  · obtain ⟨below, hbelow, hin⟩ := @subProof_eq_ok 127 m (2 ^ (l + 1)) true h₀ hmk (by omega) hheight
    rw [hbelow] at hids
    obtain rfl := Except.ok.inj hids
    have hlarge : 2 * 2 ^ (l + 1) ≤ subtreeId (2 ^ (l + 1)) (n - 2 ^ (l + 1)) := Nat.le_add_left _ _
    intro hmem
    rcases List.mem_append.1 hmem with hmem | hmem
    · have := inLog_two_pow_lt (hin _ hmem)
      omega
    · have hlast : node l 1 = 2 * 2 ^ l + (2 ^ l - 1) := by
        rw [node]
        omega
      have := List.mem_singleton.1 hmem
      omega
  · obtain ⟨above, -, hids⟩ := Result.bind_eq_ok.1 hids
    obtain rfl := Except.ok.inj hids
    have hwhole : subtreeId 0 (2 ^ (l + 1)) = 2 ^ (l + 1) - 1 := by
      have := subtreeId_two_pow (show l + 1 ≤ 62 by omega) 0
      rw [Nat.zero_mul] at this
      rw [this, node]
      omega
    have hfirst : node l (2 * 0) = 2 ^ l - 1 := by
      rw [node]
      omega
    rw [hwhole]
    intro hmem
    rcases List.mem_cons.1 hmem with h | hmem
    · omega
    · obtain ⟨x, -, hx⟩ := List.mem_map.1 hmem
      omega

/-! ### The server's proofs -/

theorem lookup_zip_of_notMem {ids : List ℕ} {values : List Octets} {id : ℕ} (h : id ∉ ids) :
    (ids.zip values).lookup id = none := by
  refine List.lookup_eq_none_iff.2 fun p hp => ?_
  rw [bne_iff_ne]
  rintro rfl
  exact h (List.of_mem_zip hp).1

theorem lookup_zip_map {f : ℕ → Octets} {id : ℕ} : ∀ {ids : List ℕ}, id ∈ ids →
    (ids.zip (ids.map f)).lookup id = some (f id)
  | x :: ids, h => by
    rw [List.map_cons, List.zip_cons_cons, List.lookup_cons]
    by_cases hx : id = x
    · subst hx
      simp
    · rw [beq_eq_false_iff_ne.2 hx]
      exact lookup_zip_map ((List.mem_cons.1 h).resolve_left hx)

end

/-- **A consistency proof is what it should be**: distinct nodes of the log tree, whose
values make up the roots of the first `m` and of all leaves. -/
def ConsistencyCorrect (P : Primitives) (s : Store) (leaves : List Octets) (m : ℕ) : Prop :=
  ∃ ids values, consistencyProof m leaves.length = .ok ids ∧
    LogTree.getConsistencyProof P s m leaves.length = .ok values ∧
    (∀ id ∈ ids, InLog leaves.length id) ∧ ids.Nodup ∧
    recompute (logPar P) (fun id => (ids.zip values).lookup id) (logRoot P (leaves.take m)) 0 m
      leaves.length true = some (logRoot P (leaves.take m), logRoot P leaves)

section

variable {P : Primitives} {s : Store} {leaves : List Octets} {m : ℕ}

/-- The values of nodes of the log, as `resolve_node` reads them. -/
theorem LogTree.getConsistencyProof_eq (hs : Holds s leaves) (hn : leaves.length ≤ 2 ^ 62) (h₀ : 0 < m)
    (hm : m < leaves.length) : ∃ ids f, consistencyProof m leaves.length = .ok ids ∧
      LogTree.getConsistencyProof P s m leaves.length = .ok (ids.map f) ∧
      subProof 128 m leaves.length true = .ok ids ∧ (∀ id ∈ ids, InLog leaves.length id) ∧
      ∀ k i, node k i ∈ ids → f (node k i) = value (logPar P) (leafAt leaves) leaves.length k i := by
  have hh := height_le_of_le_two_pow hn
  obtain ⟨ids, hids, hin⟩ := @subProof_eq_ok 128 m leaves.length true h₀ hm.le hn (by omega)
  have hproof : consistencyProof m leaves.length = .ok ids := by
    rw [consistencyProof, if_neg (by omega), hids]
  have hvalue : ∀ k i, node k i ∈ ids → resolveNode P s 64 (node k i) leaves.length =
      .ok (value (logPar P) (leafAt leaves) leaves.length k i) := fun k i hmem => by
    obtain ⟨k', i', hnode, hk, hi⟩ := hin _ hmem
    obtain ⟨rfl, rfl⟩ := node_inj hnode
    have : k ≤ 62 := (Nat.pow_le_pow_iff_right (by omega : 1 < 2)).1 (hk.trans hn)
    rw [resolveNode_node hs le_rfl (by omega) this hi, readBack_current]
  refine ⟨ids, fun id => (resolveNode P s 64 id leaves.length).toOption.getD [], hproof, ?_, hids, hin,
    fun k i hmem => by
      dsimp only
      rw [hvalue k i hmem]
      rfl⟩
  rw [LogTree.getConsistencyProof, if_neg (by omega), hproof, Result.ok_bind]
  refine Result.mapM_eq_ok fun id hid => ?_
  obtain ⟨k, i, rfl⟩ := exists_eq_node id
  rw [hvalue k i hid]
  rfl

/-- A log whose size is no power of two has no correct consistency proof. -/
theorem not_consistencyCorrect (hn : leaves.length ≤ 2 ^ 62) (h₀ : 0 < m) (hm : m < leaves.length)
    (hpow : ¬ ∃ k, leaves.length = 2 ^ k) : ¬ ConsistencyCorrect P s leaves m := by
  rintro ⟨ids, values, hids, -, -, -, hroots⟩
  have hk := Nat.log2_self_le (show leaves.length ≠ 0 by omega)
  have hk' : leaves.length < 2 ^ (Nat.log2 leaves.length + 1) := Nat.lt_log2_self
  generalize Nat.log2 leaves.length = k at hk hk'
  have hlt : 2 ^ k < leaves.length := lt_of_le_of_ne hk fun h => hpow ⟨k, h.symm⟩
  rw [consistencyProof, if_neg (by omega)] at hids
  have hmissing := subProof_missing hn hlt hk' h₀ hm hids
  split_ifs at hmissing with hmk
  · rw [recompute_left hlt hk'.le hmk, Nat.zero_add, lookup_zip_of_notMem hmissing] at hroots
    simp at hroots
  · rw [recompute_right hlt hk'.le (by omega) hm, lookup_zip_of_notMem hmissing] at hroots
    simp at hroots

/-- **Consistency proofs are right exactly for logs whose size is a power of two.** -/
theorem consistency_proof_iff (hs : Holds s leaves) (hn : leaves.length ≤ 2 ^ 62) (h₀ : 0 < m)
    (hm : m < leaves.length) : ConsistencyCorrect P s leaves m ↔ ∃ k, leaves.length = 2 ^ k := by
  constructor
  · intro h
    by_contra hpow
    exact not_consistencyCorrect hn h₀ hm hpow h
  · rintro ⟨k, hk⟩
    have hk62 : k ≤ 62 := (Nat.pow_le_pow_iff_right (by omega : 1 < 2)).1 (hk ▸ hn)
    obtain ⟨ids, f, hids, hvalues, hsub, hin, hf⟩ := LogTree.getConsistencyProof_eq (P := P) hs hn h₀ hm
    obtain ⟨ids', hsub', hnodup, hbelow, hroots⟩ := @subProof_two_pow (logPar P) (leafAt leaves)
      leaves.length k 128 m true (by omega) hk62 h₀ (by omega)
    rw [hk] at hsub
    obtain rfl := Except.ok.inj (hsub.symm.trans hsub')
    refine ⟨ids, ids.map f, hids, hvalues, hin, hnodup, ?_⟩
    have hheight : height m ≤ k := height_le_of_le_two_pow (by omega)
    have hold : logRoot P (leaves.take m) = value (logPar P) (leafAt leaves) m k 0 := by
      rw [LogTree.logRoot_take h₀ hm.le]
      exact (value_eq_root (show m ≤ 2 ^ k by omega)).symm
    have hnew : logRoot P leaves = value (logPar P) (leafAt leaves) leaves.length k 0 := by
      rw [logRoot_of_ne_nil (List.length_pos_iff.1 (by omega)), MerkleLog.root, hk, height_two_pow]
    have := hroots 0 (fun id => (ids.zip (ids.map f)).lookup id) (logRoot P (leaves.take m)) (by omega)
      (fun j i hmem => by
        rw [Nat.zero_mul, Nat.mul_zero, Nat.add_zero, Nat.zero_mul, Nat.add_zero, lookup_zip_map hmem,
          hf j i hmem])
      (fun _ => by rw [Nat.zero_mul, Nat.zero_add, hold])
    rwa [Nat.zero_mul, Nat.zero_add, ← hold, ← hnew, ← hk] at this

end

/-- A store after a batch of entries. -/
theorem exists_store_of (P : Primitives) {entries : List (U64 × Octets)} (hn : entries.length ≤ 2 ^ 62) :
    ∃ r s, Db.Runs (LogTree.batchAppend P 0 entries) Store.empty r s ∧
      Holds s (entries.map (LogTree.entryLeaf P)) := by
  have hempty : LogTree.Filled P Store.empty [] := .empty fun _ => rfl
  obtain ⟨s, -, hrun⟩ := @LogTree.batchAppend_spec P _ _ (hempty.holds (by simp)) entries (by simpa using hn)
  exact ⟨_, s, hrun, (LogTree.Filled.append hempty hrun).holds (by simpa using hn)⟩

/-- From three to four entries. -/
theorem consistency_proof_four : ∃ r s,
    Db.Runs (LogTree.batchAppend Primitives.ideal 0 fourEntries) Store.empty r s ∧
      ConsistencyCorrect Primitives.ideal s (fourEntries.map (LogTree.entryLeaf Primitives.ideal)) 3 := by
  obtain ⟨r, s, hrun, hs⟩ := @exists_store_of Primitives.ideal fourEntries (by decide)
  exact ⟨r, s, hrun, (consistency_proof_iff hs (by decide) (by decide) (by decide)).2 ⟨2, rfl⟩⟩

/-- **From one entry to three** the proof lists leaf 1 twice and leaf 2 not at all. -/
theorem consistency_proof_three : ∃ r s,
    Db.Runs (LogTree.batchAppend Primitives.ideal 0 (fourEntries.take 3)) Store.empty r s ∧
      consistencyProof 1 3 = .ok [node 0 1, node 0 1] ∧
      ¬ ConsistencyCorrect Primitives.ideal s
        ((fourEntries.take 3).map (LogTree.entryLeaf Primitives.ideal)) 1 := by
  obtain ⟨r, s, hrun, hs⟩ := @exists_store_of Primitives.ideal (fourEntries.take 3) (by decide)
  refine ⟨r, s, hrun, by decide, not_consistencyCorrect (by decide) (by decide) (by decide) ?_⟩
  rintro ⟨k, hk⟩
  have hk : 3 = 2 ^ k := hk
  rcases k with _ | _ | k
  · omega
  · omega
  · have e : (2 : ℕ) ^ (k + 2) = 2 ^ k * 4 := by ring
    omega

end KeyTransparency
