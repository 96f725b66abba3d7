/-
# What the log tables hold

`Holds` says that the chunks of a store hold a list of leaf hashes.  A chunk that
is read back gives the value of every node that is complete in it, and of no
other (`getValue_node`); appending keeps `Holds` (`batchAppend_spec`); resolving a
node returns `readBack`, the value in which the nodes of a chunk that are complete
in the whole log are taken from there (`resolveNode_node`).
-/

import KeyTransparency.Tree.Log

namespace KeyTransparency

open LogMath InOrder MerkleLog

/-! ### Chunks -/

/-- The parent of two values when both are present. -/
def parOf (par : Octets → Octets → Octets) : Option Octets → Option Octets → Option Octets
  | some l, some r => some (par l r)
  | _, _ => none

/-- The value of a node all of whose leaves are present. -/
def completeValue (par : Bool → Octets → Octets → Octets) (leaf : ℕ → Option Octets) :
    ℕ → ℕ → Option Octets
  | 0, i => leaf i
  | k + 1, i =>
    parOf (par (k == 0)) (completeValue par leaf k (2 * i)) (completeValue par leaf k (2 * i + 1))

theorem completeValue_shift {par : Bool → Octets → Octets → Octets} {leaf : ℕ → Option Octets}
    (o d : ℕ) : ∀ k i, k ≤ d →
      completeValue par (fun t => leaf (t + o * 2 ^ d)) k i =
        completeValue par leaf k (i + o * 2 ^ (d - k))
  | 0, i, _ => rfl
  | k + 1, i, h => by
    have e : o * 2 ^ (d - k) = 2 * (o * 2 ^ (d - (k + 1))) := by
      rw [show d - k = d - (k + 1) + 1 by omega]
      ring
    have h₀ : 2 * i + o * 2 ^ (d - k) = 2 * (i + o * 2 ^ (d - (k + 1))) := by omega
    have h₁ : 2 * i + 1 + o * 2 ^ (d - k) = 2 * (i + o * 2 ^ (d - (k + 1))) + 1 := by omega
    rw [completeValue, completeValue, completeValue_shift o d k _ (by omega),
      completeValue_shift o d k _ (by omega), h₀, h₁]

/-- A value depends on the leaves below it only. -/
theorem completeValue_congr {par : Bool → Octets → Octets → Octets}
    {leaf leaf' : ℕ → Option Octets} :
    ∀ {k i : ℕ}, (∀ t, i * 2 ^ k ≤ t → t < (i + 1) * 2 ^ k → leaf t = leaf' t) →
      completeValue par leaf k i = completeValue par leaf' k i
  | 0, i, h => h i (by omega) (by omega)
  | k + 1, i, h => by
    obtain ⟨e₀, e₁, e₂, e₃⟩ := block_halves k i
    have hl : completeValue par leaf k (2 * i) = completeValue par leaf' k (2 * i) :=
      completeValue_congr fun t h₁ h₂ => h t (by omega) (by omega)
    have hr : completeValue par leaf k (2 * i + 1) = completeValue par leaf' k (2 * i + 1) :=
      completeValue_congr fun t h₁ h₂ => h t (by omega) (by omega)
    rw [completeValue, completeValue, hl, hr]

/-- The leaf at a position of a log, if the log reaches that far. -/
def leafAt (leaves : List Octets) (p : ℕ) : Octets := leaves.getD p []

theorem completeValue_eq {par : Bool → Octets → Octets → Octets} (leaves : List Octets) :
    ∀ k i, completeValue par (fun t => leaves[t]?) k i =
      if (i + 1) * 2 ^ k ≤ leaves.length then
        some (value par (leafAt leaves) leaves.length k i)
      else none
  | 0, i => by
    rw [completeValue]
    split_ifs with h
    · rw [value_zero, leafAt, List.getD_eq_getElem?_getD, List.getElem?_eq_getElem (by omega)]
      rfl
    · exact List.getElem?_eq_none (by omega)
  | k + 1, i => by
    obtain ⟨e₀, e₁, e₂, e₃⟩ := block_halves k i
    have := Nat.two_pow_pos k
    rw [completeValue, completeValue_eq leaves k, completeValue_eq leaves k]
    by_cases h : (i + 1) * 2 ^ (k + 1) ≤ leaves.length
    · rw [if_pos (by omega), if_pos (by omega), if_pos h, value_succ_of_lt (by omega)]
      rfl
    · rw [if_neg h, if_neg (show ¬ (2 * i + 1 + 1) * 2 ^ k ≤ leaves.length by omega)]
      split_ifs <;> rfl

namespace NodeChunk

variable {P : Primitives} {c : NodeChunk} {j : ℕ}

/-- The ids of the `j`-th chunk start at `16 j`. -/
theorem slot_eq (hc : c.chunkRootId = node 3 j) {t : ℕ} (ht : t < 15) :
    c.slot (16 * j + t) = some t := by
  have hl : chunkLayout c.chunkRootId = (List.range 15).map fun t => 16 * j + t := by
    rw [hc, chunkLayout_node]
  have hnd : ((List.range 15).map fun t => 16 * j + t).Nodup :=
    List.nodup_range.map fun a b h => by simpa using h
  have hidx := hnd.idxOf_getElem t (by simpa using ht)
  rw [List.getElem_map, List.getElem_range] at hidx
  rw [slot, hl, if_pos (List.mem_map.2 ⟨t, List.mem_range.2 ht, rfl⟩), hidx]

/-- The slot of a node in its chunk is its id among the eight leaves. -/
theorem slot_node {k i : ℕ} (hk : k ≤ 3) (hc : c.chunkRootId = node 3 (i / 2 ^ (3 - k))) :
    c.slot (node k i) = some (node k (i % 2 ^ (3 - k))) := by
  have hi : i % 2 ^ (3 - k) < 2 ^ (3 - k) := Nat.mod_lt _ (Nat.two_pow_pos _)
  have hdiv := Nat.div_add_mod i (2 ^ (3 - k))
  have hn : node k i = 16 * (i / 2 ^ (3 - k)) + node k (i % 2 ^ (3 - k)) ∧
      node k (i % 2 ^ (3 - k)) < 15 := by
    rcases k with _ | _ | _ | _ | k <;> simp only [node] at * <;> omega
  rw [hn.1, slot_eq hc hn.2]

theorem getD_chunkLayout {t : ℕ} (ht : t < 15) : (chunkLayout (node 3 j)).getD t 0 = 16 * j + t := by
  rw [chunkLayout_node, List.getD_eq_getElem?_getD, List.getElem?_map,
    List.getElem?_range ht]
  rfl

theorem recomputeSlot_of_ne {ids : List ℕ} {nodes : ℕ → Option Octets} {i d t : ℕ} (h : t ≠ i) :
    recomputeSlot P ids nodes i d t = nodes t := by
  rw [recomputeSlot]
  cases nodes (i - d) <;> cases nodes (i + d) <;> simp [h]

/-- An empty slot is filled with the parent of its neighbours, which are both
leaves or neither. -/
theorem recomputeSlot_self {nodes : ℕ → Option Octets} {i d : ℕ} (h : nodes i = none)
    (hi : i + d < 15) (hd : d ≤ i) :
    recomputeSlot P (chunkLayout (node 3 j)) nodes i d i =
      parOf (logPar P (isLeaf (i + d))) (nodes (i - d)) (nodes (i + d)) := by
  have hl : ∀ t, isLeaf (16 * j + t) = isLeaf t := by
    intro t
    simp only [isLeaf, Nat.and_one_is_mod]
    rw [show (16 * j + t) % 2 = t % 2 by omega]
  have hd : isLeaf (i - d) = isLeaf (i + d) := by
    simp only [isLeaf, Nat.and_one_is_mod]
    rw [show (i - d) % 2 = (i + d) % 2 by omega]
  rw [recomputeSlot, getD_chunkLayout (by omega), getD_chunkLayout hi, hl, hl, hd]
  cases nodes (i - d) <;> cases nodes (i + d) <;> simp [h, parOf, logPar]

theorem recomputeIntermediates_even {ids : List ℕ} {nodes : ℕ → Option Octets} (t : ℕ) :
    recomputeIntermediates P nodes ids (2 * t) = nodes (2 * t) := by
  simp only [recomputeIntermediates, List.foldl_cons, List.foldl_nil]
  repeat rw [recomputeSlot_of_ne (by omega)]

/-- **Recomputing** fills the slot of a node with its value when all its leaves are
there. -/
theorem recomputeIntermediates_node {nodes : ℕ → Option Octets}
    (hodd : ∀ t, t % 2 = 1 → nodes t = none) {k i : ℕ} (hk : k ≤ 3) (hi : i < 2 ^ (3 - k)) :
    recomputeIntermediates P nodes (chunkLayout (node 3 j)) (node k i) =
      completeValue (logPar P) (fun t => nodes (2 * t)) k i := by
  have hself := fun nodes i d => @recomputeSlot_self P j nodes i d
  generalize chunkLayout (node 3 j) = ids at hself ⊢
  -- an odd slot is empty until its own turn, and keeps what it got then
  rcases k with _ | _ | _ | _ | k
  · rw [node_zero, recomputeIntermediates_even]
    rfl
  · have : i = 0 ∨ i = 1 ∨ i = 2 ∨ i = 3 := by omega
    rcases this with rfl | rfl | rfl | rfl <;>
      simp [recomputeIntermediates, recomputeSlot_of_ne, hself, hodd, completeValue, node, isLeaf]
  · have : i = 0 ∨ i = 1 := by omega
    rcases this with rfl | rfl <;>
      simp [recomputeIntermediates, recomputeSlot_of_ne, hself, hodd, completeValue, node, isLeaf]
  · obtain rfl : i = 0 := by omega
    simp [recomputeIntermediates, recomputeSlot_of_ne, hself, hodd, completeValue, node, isLeaf]
  · omega

/-- The leaves of the `j`-th chunk of a log. -/
def chunkLeaves (leaves : List Octets) (j : ℕ) : List Octets := (leaves.drop (8 * j)).take 8

theorem getElem?_chunkLeaves {leaves : List Octets} {t : ℕ} (ht : t < 8) :
    (chunkLeaves leaves j)[t]? = leaves[t + j * 2 ^ 3]? := by
  rw [chunkLeaves, List.getElem?_take_of_lt ht, List.getElem?_drop]
  congr 1
  omega

theorem length_flatten_eq {ls : List Octets} (h : ∀ l ∈ ls, l.length = 32) :
    ls.flatten.length = 32 * ls.length := by
  induction ls with
  | nil => rfl
  | cons l ls ih =>
    rw [List.flatten_cons, List.length_append, h l List.mem_cons_self,
      ih fun l hl => h l (List.mem_cons_of_mem _ hl), List.length_cons]
    omega

theorem take_drop_flatten {ls : List Octets} (h : ∀ l ∈ ls, l.length = 32) {t : ℕ}
    (ht : t < ls.length) : (ls.flatten.drop (32 * t)).take 32 = ls[t] := by
  induction ls generalizing t with
  | nil => exact absurd ht (by simp)
  | cons l ls ih =>
    have hl := h l List.mem_cons_self
    cases t with
    | zero => simp [← hl]
    | succ t =>
      rw [List.flatten_cons, show 32 * (t + 1) = l.length + 32 * t by omega,
        List.drop_length_add_append, List.getElem_cons_succ]
      exact ih (fun l hl => h l (List.mem_cons_of_mem _ hl)) (by simpa using ht)

/-- Parsing a serialized chunk gives its leaves back. -/
theorem parseLeaves_flatten {ls : List Octets} (h : ∀ l ∈ ls, l.length = 32) {t : ℕ}
    (ht : t < 8) : parseLeaves ls.flatten (2 * t) = ls[t]? := by
  rw [parseLeaves, length_flatten_eq h, show 16 * (2 * t) = 32 * t by ring]
  by_cases htl : t < ls.length
  · rw [if_pos (by omega), take_drop_flatten h htl, List.getElem?_eq_getElem htl]
  · rw [if_neg (by omega), List.getElem?_eq_none (by omega)]

theorem parseLeaves_odd {bytes : Octets} {t : ℕ} (ht : t % 2 = 1) :
    parseLeaves bytes t = none := if_neg (by omega)

theorem serializeFrom_eq {nodes : ℕ → Option Octets} {ls : List Octets}
    (h : ∀ t < 8, nodes (2 * t) = ls[t]?) :
    ∀ fuel t, fuel + t = 8 → serializeFrom nodes fuel (2 * t) = ((ls.take 8).drop t).flatten
  | 0, t, ht => by
    rw [serializeFrom, List.drop_eq_nil_of_le (by rw [List.length_take]; omega)]
    rfl
  | fuel + 1, t, ht => by
    rw [serializeFrom, h t (by omega)]
    by_cases htl : t < ls.length
    · rw [List.getElem?_eq_getElem htl, ← Nat.mul_succ, serializeFrom_eq h fuel (t + 1) (by omega),
        List.drop_eq_getElem_cons (i := t) (by rw [List.length_take]; omega)]
      simp
    · rw [List.getElem?_eq_none (by omega), List.drop_eq_nil_of_le (by rw [List.length_take]; omega)]
      rfl

/-- **A chunk read back** gives the values of the nodes that are complete. -/
theorem getValue_new {leaves : List Octets} (h : ∀ l ∈ leaves, l.length = 32) {k i : ℕ}
    (hk : k ≤ 3) :
    (NodeChunk.new P (node 3 (i / 2 ^ (3 - k)))
      (some (chunkLeaves leaves (i / 2 ^ (3 - k))).flatten)).getValue (node k i) =
      if (i + 1) * 2 ^ k ≤ leaves.length then
        some (value (logPar P) (leafAt leaves) leaves.length k i)
      else none := by
  have hls : ∀ l ∈ chunkLeaves leaves (i / 2 ^ (3 - k)), l.length = 32 := fun l hl =>
    h l (List.mem_of_mem_drop (List.mem_of_mem_take hl))
  have hmod : i % 2 ^ (3 - k) < 2 ^ (3 - k) := Nat.mod_lt _ (Nat.two_pow_pos _)
  rw [getValue, slot_node hk rfl, Option.bind_some]
  simp only [NodeChunk.new]
  rw [recomputeIntermediates_node (fun _ ht => parseLeaves_odd ht) hk hmod]
  have hcongr : completeValue (logPar P)
      (fun t => parseLeaves (chunkLeaves leaves (i / 2 ^ (3 - k))).flatten (2 * t)) k
        (i % 2 ^ (3 - k)) =
      completeValue (logPar P) (fun t => leaves[t + i / 2 ^ (3 - k) * 2 ^ 3]?) k
        (i % 2 ^ (3 - k)) := by
    refine completeValue_congr fun t _ ht => ?_
    have : t < 8 := by
      have h₁ : (i % 2 ^ (3 - k) + 1) * 2 ^ k ≤ 2 ^ (3 - k) * 2 ^ k := Nat.mul_le_mul_right _ hmod
      rw [← pow_add, Nat.sub_add_cancel hk] at h₁
      omega
    rw [parseLeaves_flatten hls this, getElem?_chunkLeaves this]
  have hi : i % 2 ^ (3 - k) + i / 2 ^ (3 - k) * 2 ^ (3 - k) = i := Nat.mod_add_div' i _
  rw [hcongr, completeValue_shift (i / 2 ^ (3 - k)) 3 k _ hk, hi, completeValue_eq]

end NodeChunk

/-! ### Reading -/

/-- The chunks of the store hold these leaf hashes. -/
structure Holds (s : Store) (leaves : List Octets) : Prop where
  digest : ∀ l ∈ leaves, l.length = 32
  chunk : ∀ j, s.log (node 3 j) =
    if 8 * j < leaves.length then some (NodeChunk.chunkLeaves leaves j).flatten else none
  high : ∀ k i, 3 < k → s.log (node k i) = none

/-- What resolving a node for a log of `n` leaves reads back: up to level three the
value it has in the whole log, if it is complete there. -/
def readBack (par : Bool → Octets → Octets → Octets) (leaves : List Octets) (n : ℕ) :
    ℕ → ℕ → Octets
  | 0, i => leafAt leaves i
  | k + 1, i =>
    if k + 1 ≤ 3 ∧ (i + 1) * 2 ^ (k + 1) ≤ leaves.length then
      value par (leafAt leaves) leaves.length (k + 1) i
    else if (2 * i + 1) * 2 ^ k < n then
      par (k == 0) (readBack par leaves n k (2 * i)) (readBack par leaves n k (2 * i + 1))
    else readBack par leaves n k (2 * i)

namespace LogTree

variable {P : Primitives} {s : Store} {leaves : List Octets}

/-- What the chunk of a node says about it. -/
theorem chunk_getValue (hs : Holds s leaves) {k i : ℕ} (hk : k ≤ 62)
    (hi : i * 2 ^ k < leaves.length) :
    (s.log (chunkId (node k i))).bind (fun data =>
        (NodeChunk.new P (chunkId (node k i)) (some data)).getValue (node k i)) =
      if k ≤ 3 ∧ (i + 1) * 2 ^ k ≤ leaves.length then
        some (value (logPar P) (leafAt leaves) leaves.length k i)
      else none := by
  by_cases h : k ≤ 3
  · have hj : 8 * (i / 2 ^ (3 - k)) < leaves.length := by
      have h₁ : i / 2 ^ (3 - k) * 2 ^ (3 - k) * 2 ^ k ≤ i * 2 ^ k :=
        Nat.mul_le_mul_right _ (Nat.div_mul_le_self _ _)
      rw [Nat.mul_assoc, ← pow_add, Nat.sub_add_cancel h] at h₁
      omega
    rw [chunkId_node h, hs.chunk, if_pos hj, Option.bind_some, NodeChunk.getValue_new hs.digest h]
    simp [h]
  · obtain ⟨k', i', hk', e⟩ := chunkId_node_high (by omega : 3 < k) hk i
    rw [e, hs.high k' i' hk', if_neg (by omega)]
    rfl

/-- **Resolving a node** reads back its value. -/
theorem resolveNode_node (hs : Holds s leaves) {n fuel : ℕ} (hn : n ≤ leaves.length) :
    ∀ {k i : ℕ}, k < fuel → k ≤ 62 → i * 2 ^ k < n →
      resolveNode P s fuel (node k i) n = .ok (readBack (logPar P) leaves n k i) := by
  induction fuel with
  | zero => intro k i hk; omega
  | succ fuel ih =>
    intro k i hk hk' hi
    rw [resolveNode, chunk_getValue hs hk' (by omega), isLeaf_node]
    cases k with
    | zero =>
      rw [if_pos ⟨by omega, by omega⟩]
      rfl
    | succ k =>
      obtain ⟨e₀, e₁, e₂, e₃⟩ := block_halves k i
      have hleaf : ¬ (k + 1 == 0) = true := by simp
      rw [readBack]
      by_cases hc : k + 1 ≤ 3 ∧ (i + 1) * 2 ^ (k + 1) ≤ leaves.length
      · rw [if_pos hc, if_pos hc]
      rw [if_neg hc, if_neg hc]
      simp only [if_neg hleaf, rightChild_node (show k < 63 by omega),
        leftChild_node (show k < 63 by omega), Result.ok_bind]
      by_cases hr : (2 * i + 1) * 2 ^ k < n
      · have hne : node k (2 * i) ≠ node k (2 * i + 1) := fun h => by
          have := (node_inj h).2
          omega
        rw [if_pos hr, if_neg hne, ih (by omega) (by omega) (by omega),
          ih (by omega) (by omega) hr, isLeaf_node, isLeaf_node, if_pos hr]
        rfl
      · rw [if_neg hr, if_pos rfl, ih (by omega) (by omega) (by omega), if_neg hr]

/-- **A node resolved at the current size** has its value. -/
theorem readBack_current {par : Bool → Octets → Octets → Octets} (leaves : List Octets) :
    ∀ k i, readBack par leaves leaves.length k i = value par (leafAt leaves) leaves.length k i
  | 0, _ => rfl
  | k + 1, i => by
    rw [readBack]
    split_ifs with h₁ h₂
    · rfl
    · rw [value_succ_of_lt h₂, readBack_current leaves k, readBack_current leaves k]
    · rw [value_succ_of_le (by omega), readBack_current leaves k]

theorem getRoot_eq (hs : Holds s leaves) {n : ℕ} (hn : n ≤ leaves.length) (h₀ : 0 < n)
    (hn' : n ≤ 2 ^ 62) : getRoot P s n = .ok (readBack (logPar P) leaves n (height n) 0) := by
  have := height_le_of_le_two_pow hn'
  rw [getRoot, if_neg (by omega), merkleRoot_eq (by omega),
    resolveNode_node hs hn (by omega) this (by omega)]

end LogTree

/-- The root of a log: the hash of its leaves, or zeros when it has none. -/
def logRoot (P : Primitives) (leaves : List Octets) : Octets :=
  if leaves = [] then Octets.zeros 32 else root (logPar P) (leafAt leaves) leaves.length

theorem logRoot_of_ne_nil {P : Primitives} {leaves : List Octets} (h : leaves ≠ []) :
    logRoot P leaves = root (logPar P) (leafAt leaves) leaves.length := if_neg h

theorem length_value {P : Primitives} {leaf : ℕ → Octets} {n : ℕ}
    (h : ∀ p < n, (leaf p).length = 32) :
    ∀ {k i : ℕ}, i * 2 ^ k < n → (value (logPar P) leaf n k i).length = 32
  | 0, i, hi => h i (by omega)
  | k + 1, i, hi => by
    obtain ⟨e₀, e₁, e₂, e₃⟩ := block_halves k i
    rw [value]
    split_ifs with hr
    · exact length_logParentValue P _ _ _ _
    · exact length_value h (by omega)

theorem leafAt_mem {leaves : List Octets} {p : ℕ} (hp : p < leaves.length) :
    leafAt leaves p ∈ leaves := by
  rw [leafAt, List.getD_eq_getElem?_getD, List.getElem?_eq_getElem hp]
  exact List.getElem_mem hp

/-- The root of a log is a digest. -/
theorem length_logRoot {P : Primitives} {leaves : List Octets} (h : ∀ l ∈ leaves, l.length = 32) :
    (logRoot P leaves).length = 32 := by
  by_cases hne : leaves = []
  · rw [logRoot, if_pos hne, Octets.length_zeros]
  · have := List.length_pos_iff.2 hne
    rw [logRoot_of_ne_nil hne]
    exact length_value (fun p hp => h _ (leafAt_mem hp)) (by omega)

namespace LogTree

variable {P : Primitives} {s : Store} {leaves : List Octets}

theorem getRoot_current (hs : Holds s leaves) (hn : leaves.length ≤ 2 ^ 62) :
    getRoot P s leaves.length = .ok (logRoot P leaves) := by
  by_cases h : leaves = []
  · subst h
    rfl
  · rw [getRoot_eq hs le_rfl (List.length_pos_iff.2 h) hn, readBack_current, logRoot_of_ne_nil h]
    rfl

end LogTree

end KeyTransparency
