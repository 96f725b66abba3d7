/-
# What the chunks hold

A chunk root is a node at a level that is three modulo four; its layout is the fifteen nodes of
the four levels that end with it.  `chunk_id` finds the one chunk of every node
(`mem_chunkLayout_iff`), and in whatever batches a log was appended, each chunk that is stored
yields the hashes of its complete nodes and of no other (`chunks_faithful`).
-/

import KeyTransparency.Tree.LogAppend

namespace KeyTransparency

open InOrder MerkleLog

namespace LogMath

variable {q j k i id c : ℕ}

/-! ### The chunk of a node -/

/-- A node at which `chunk_id` stops, below level 60. -/
def ChunkRoot (c : ℕ) : Prop := level c % 4 = 3 ∧ level c < 60

/-- The level above its lowest one, and the index in that level, of each slot of a chunk. -/
def chunkPlaces : List (ℕ × ℕ) :=
  [(0, 0), (1, 0), (0, 1), (2, 0), (0, 2), (1, 1), (0, 3), (3, 0), (0, 4), (1, 2), (0, 5), (2, 1),
    (0, 6), (1, 3), (0, 7)]

theorem mem_chunkPlaces {x : ℕ × ℕ} : x ∈ chunkPlaces ↔ x.1 ≤ 3 ∧ x.2 < 2 ^ (3 - x.1) := by
  constructor
  · have hall : ∀ x ∈ chunkPlaces, x.1 ≤ 3 ∧ x.2 < 2 ^ (3 - x.1) := by decide
    exact hall x
  · rintro ⟨ha, hb⟩
    have hall : ∀ a < 4, ∀ b < 2 ^ (3 - a), (a, b) ∈ chunkPlaces := by decide
    exact hall x.1 (by omega) x.2 hb

/-- **The layout of a chunk**, slot by slot. -/
theorem chunkLayout_eq (hq : q + 3 < 64) (j : ℕ) : chunkLayout (node (q + 3) j) =
    chunkPlaces.map fun x => node (q + x.1) (2 ^ (3 - x.1) * j + x.2) := by
  simp only [chunkLayout, internalLeft_node (show q + 2 < 63 by omega),
    internalRight_node (show q + 2 < 63 by omega), internalLeft_node (show q + 1 < 63 by omega),
    internalRight_node (show q + 1 < 63 by omega), internalLeft_node (show q < 63 by omega),
    internalRight_node (show q < 63 by omega), chunkPlaces, List.map_cons, List.map_nil]
  simp only [List.cons.injEq, and_true, Nat.add_zero]
  and_intros <;> exact congrArg (node _) (by omega)

theorem nodup_chunkLayout (hq : q + 3 < 64) (j : ℕ) : (chunkLayout (node (q + 3) j)).Nodup := by
  rw [chunkLayout_eq hq]
  have hnodup : chunkPlaces.Nodup := by decide
  refine hnodup.map fun x y h => ?_
  obtain ⟨hlevel, hindex⟩ := node_inj h
  have hfst : x.1 = y.1 := by omega
  rw [hfst] at hindex
  exact Prod.ext hfst (by omega)

/-- The nodes of a chunk lie below its root, on four levels. -/
theorem mem_chunkLayout (hq : q + 3 < 64) : node k i ∈ chunkLayout (node (q + 3) j) ↔
    q ≤ k ∧ k ≤ q + 3 ∧ i / 2 ^ (q + 3 - k) = j := by
  rw [chunkLayout_eq hq, List.mem_map]
  constructor
  · rintro ⟨x, hx, heq⟩
    obtain ⟨ha, hb⟩ := mem_chunkPlaces.1 hx
    obtain ⟨rfl, rfl⟩ := node_inj heq
    refine ⟨by omega, by omega, ?_⟩
    rw [show q + 3 - (q + x.1) = 3 - x.1 by omega, Nat.mul_add_div (Nat.two_pow_pos _),
      Nat.div_eq_of_lt hb, Nat.add_zero]
  · rintro ⟨hle, hge, rfl⟩
    obtain ⟨a, rfl⟩ := Nat.exists_eq_add_of_le hle
    refine ⟨(a, i % 2 ^ (3 - a)), mem_chunkPlaces.2 ⟨by omega, Nat.mod_lt _ (Nat.two_pow_pos _)⟩, ?_⟩
    dsimp only
    rw [show q + 3 - (q + a) = 3 - a by omega, Nat.div_add_mod]

/-- A node of a high level ends with ones only. -/
theorem trailingOnes_of_le : ∀ {w k : ℕ}, w ≤ k → ∀ i, trailingOnes w (node k i) = w
  | 0, _, _, _ => rfl
  | w + 1, 0, hle, _ => absurd hle (by omega)
  | w + 1, k + 1, hle, i => by
    have hodd : node (k + 1) i % 2 = 1 := by rw [node_succ]; omega
    have hhalf : node (k + 1) i / 2 = node k i := by rw [node_succ]; omega
    rw [trailingOnes, if_pos hodd, hhalf, trailingOnes_of_le (by omega)]

theorem exists_node_of_level {b : ℕ} (h : level id < b) (hb : b ≤ 64) :
    ∃ k i, k < b ∧ id = node k i := by
  obtain ⟨k, i, rfl⟩ := exists_eq_node id
  refine ⟨k, i, ?_, rfl⟩
  by_contra hk
  rcases Nat.lt_or_ge k 64 with hlt | hge
  · rw [level_node hlt] at h
    omega
  · have hpos : k ≠ 0 := by omega
    rw [level, isLeaf_node, trailingOnes_of_le hge] at h
    simp only [beq_iff_eq, hpos, if_false] at h
    omega

/-- A chunk root has a chunk below it. -/
theorem ChunkRoot.exists_node (h : ChunkRoot c) : ∃ q j, q % 4 = 0 ∧ q + 3 < 60 ∧ c = node (q + 3) j := by
  obtain ⟨hmod, hlevel⟩ := h
  obtain ⟨k, i, hk, rfl⟩ := exists_node_of_level hlevel (by omega)
  rw [level_node (by omega)] at hmod
  exact ⟨k - 3, i, by omega, by omega, by rw [Nat.sub_add_cancel (by omega)]⟩

theorem chunkRoot_node (hk : k < 60) (hmod : k % 4 = 3) (i : ℕ) : ChunkRoot (node k i) := by
  rw [ChunkRoot, level_node (by omega)]
  exact ⟨hmod, hk⟩

/-- **`chunk_id` finds the chunk**: of the chunk roots, the one whose layout has the node. -/
theorem mem_chunkLayout_iff (hid : level id < 60) : (ChunkRoot c ∧ id ∈ chunkLayout c) ↔ c = chunkId id := by
  obtain ⟨k, i, hk, rfl⟩ := exists_node_of_level hid (by omega)
  rw [chunkId_eq hk]
  constructor
  · rintro ⟨hroot, hmem⟩
    obtain ⟨q, j, hmod, hq, rfl⟩ := hroot.exists_node
    obtain ⟨hle, hge, rfl⟩ := (mem_chunkLayout (by omega)).1 hmem
    rw [show q + 3 - k = 3 - k % 4 by omega, show q + 3 = k + (3 - k % 4) by omega]
  · rintro rfl
    refine ⟨chunkRoot_node (by omega) (by omega) _, ?_⟩
    obtain ⟨q, hq⟩ : ∃ q, k + (3 - k % 4) = q + 3 := ⟨k - k % 4, by omega⟩
    rw [hq, mem_chunkLayout (by omega)]
    exact ⟨by omega, by omega, by rw [show q + 3 - k = 3 - k % 4 by omega]⟩

/-- **The chunks share out the nodes** below level 60: each is a node of its own chunk only. -/
theorem ChunkRoot.mem_chunkLayout (h : ChunkRoot c) :
    id ∈ chunkLayout c ↔ level id < 60 ∧ chunkId id = c := by
  constructor
  · intro hmem
    obtain ⟨q, j, -, hq, rfl⟩ := h.exists_node
    obtain ⟨k, i, rfl⟩ := exists_eq_node id
    obtain ⟨-, hge, -⟩ := (LogMath.mem_chunkLayout (by omega)).1 hmem
    have hlevel : level (node k i) < 60 := by
      rw [level_node (by omega)]
      omega
    exact ⟨hlevel, ((mem_chunkLayout_iff hlevel).1 ⟨h, hmem⟩).symm⟩
  · rintro ⟨hlevel, rfl⟩
    exact ((mem_chunkLayout_iff hlevel).2 rfl).2

end LogMath

/-! ### The chunks of a store -/

namespace LogTree

open LogMath

/-- The stores that batches of entries leave, from the empty log on, whatever the batches are
and whether or not `batch_append` could return a root; what else happens to the other tables
is left open. -/
inductive Batched (P : Primitives) : Store → List Octets → Prop
  | empty {s : Store} (h : ∀ id, s.log id = none) : Batched P s []
  | append {s s' : Store} {leaves : List Octets} {entries : List (U64 × Octets)} {r : Result Octets}
      (h : Batched P s leaves) (hrun : batchAppend P leaves.length entries ⟨s, none⟩ = (r, ⟨s', none⟩)) :
      Batched P s' (leaves ++ entries.map (entryLeaf P))
  | other {s s' : Store} {leaves : List Octets} (h : Batched P s leaves) (hlog : s'.log = s.log) :
      Batched P s' leaves

variable {P : Primitives} {s : Store} {leaves : List Octets}

/-- **Every batch keeps the chunks**, at the ids of their roots only. -/
theorem Batched.holds (h : Batched P s leaves) :
    Holds s leaves ∧ ∀ id, (∀ j, id ≠ node 3 j) → s.log id = none := by
  induction h with
  | empty h => exact ⟨⟨by simp, fun j => by simp [h], fun k i _ => h _⟩, fun id _ => h id⟩
  | @append s s' leaves entries r _ hrun ih =>
    obtain ⟨s₁, happended, hother, hrun₁⟩ := batchAppend_appended (P := P) ih.1 entries
    obtain rfl : s₁ = s' := congrArg (fun x => x.2.store) (hrun₁.symm.trans hrun)
    exact ⟨happended.1, fun id hid => (hother id hid).trans (ih.2 id hid)⟩
  | other h hlog ih =>
    rw [hlog]
    exact ⟨⟨ih.1.digest, by rw [hlog]; exact ih.1.chunk, by rw [hlog]; exact ih.1.high⟩, ih.2⟩

/-- **A stored chunk read back**: the hashes of its nodes that are complete, and no other. -/
theorem Batched.getValue (h : Batched P s leaves) {c : ℕ} {bytes : Octets} (hc : s.log c = some bytes) :
    ChunkRoot c ∧ ∀ k i, (NodeChunk.new P c (some bytes)).getValue (node k i) =
      if node k i ∈ chunkLayout c ∧ (i + 1) * 2 ^ k ≤ leaves.length then
        some (value (logPar P) (leafAt leaves) leaves.length k i) else none := by
  obtain ⟨hs, hother⟩ := h.holds
  obtain ⟨j, rfl⟩ : ∃ j, c = node 3 j := by
    by_contra hnot
    push Not at hnot
    rw [hother c hnot] at hc
    cases hc
  refine ⟨chunkRoot_node (by omega) rfl j, fun k i => ?_⟩
  rw [hs.chunk] at hc
  split_ifs at hc with hlt
  obtain rfl := Option.some.inj hc
  by_cases hmem : node k i ∈ chunkLayout (node 3 j)
  · obtain ⟨-, hk, rfl⟩ := (mem_chunkLayout (q := 0) (by omega)).1 hmem
    rw [Nat.zero_add] at hk hmem ⊢
    rw [NodeChunk.getValue_new hs.digest hk]
    simp only [hmem, true_and]
  · have hroot : (NodeChunk.new P (node 3 j) (some (NodeChunk.chunkLeaves leaves j).flatten)).chunkRootId =
        node 3 j := rfl
    rw [if_neg fun hand => hmem hand.1, NodeChunk.getValue, NodeChunk.slot, hroot, if_neg hmem]
    rfl

end LogTree

open LogMath LogTree

/-- A chunk id is a word where the node id is. -/
theorem LogMath.chunkId_lt {id : ℕ} (hid : id < 2 ^ 64) (hlevel : level id < 60) : chunkId id < 2 ^ 64 := by
  obtain ⟨k, i, hk, rfl⟩ := exists_node_of_level hlevel (by omega)
  rw [chunkId_eq hk]
  obtain ⟨d, hd⟩ : ∃ d, 3 - k % 4 = d := ⟨_, rfl⟩
  obtain ⟨e, he⟩ := Nat.exists_eq_add_of_le (show k + d + 1 ≤ 64 by omega)
  have htop : 2 ^ 64 = 2 ^ e * 2 ^ (k + d + 1) := by
    rw [Nat.mul_comm, ← pow_add, ← he]
  rw [node] at hid
  rw [hd, node]
  have hlow : i / 2 ^ d * 2 ^ (k + d + 1) ≤ i * 2 ^ (k + 1) := by
    rw [show k + d + 1 = d + (k + 1) by omega, pow_add, ← Nat.mul_assoc]
    exact Nat.mul_le_mul_right _ (Nat.div_mul_le_self _ _)
  have hindex : i / 2 ^ d < 2 ^ e := by
    refine Nat.lt_of_mul_lt_mul_right (a := 2 ^ (k + d + 1)) ?_
    omega
  -- the whole block of the chunk is below the bound
  have hblock : (i / 2 ^ d + 1) * 2 ^ (k + d + 1) ≤ 2 ^ e * 2 ^ (k + d + 1) :=
    Nat.mul_le_mul_right _ hindex
  have hhalf : 2 ^ (k + d + 1) = 2 ^ (k + d) * 2 := pow_succ 2 (k + d)
  rw [Nat.add_mul, Nat.one_mul] at hblock
  have := Nat.two_pow_pos (k + d)
  omega

/-- **Chunked node storage is faithful.**  `chunk_id` returns the one chunk root whose layout has
the node, so that the chunks share out the nodes below level 60.  In whatever batches a log is
appended, every leaf has a stored chunk, and each stored chunk read back yields the leaf hashes
that were appended, the hashes of the nodes above them whose leaves are all there, and nothing
for any other node. -/
theorem chunks_faithful :
    (∀ id, level id < 60 → (id < 2 ^ 64 → chunkId id < 2 ^ 64) ∧
      ∀ c, (ChunkRoot c ∧ id ∈ chunkLayout c) ↔ c = chunkId id) ∧
    (∀ c, ChunkRoot c → (chunkLayout c).Nodup ∧ (chunkLayout c).length = 15 ∧
      ∀ id, id ∈ chunkLayout c ↔ level id < 60 ∧ chunkId id = c) ∧
    ∀ (P : Primitives) (s : Store) (leaves : List Octets), Batched P s leaves →
      (∀ p < leaves.length, (s.log (chunkId (2 * p))).isSome) ∧
      ∀ c bytes, s.log c = some bytes → ChunkRoot c ∧ ∀ k i,
        (NodeChunk.new P c (some bytes)).getValue (node k i) =
          if node k i ∈ chunkLayout c ∧ (i + 1) * 2 ^ k ≤ leaves.length then
            some (value (logPar P) (leafAt leaves) leaves.length k i) else none := by
  refine ⟨fun id hlevel => ⟨fun hid => chunkId_lt hid hlevel, fun c => mem_chunkLayout_iff hlevel⟩,
    fun c hc => ⟨?_, rfl, fun id => hc.mem_chunkLayout⟩, fun P s leaves h => ⟨fun p hp => ?_,
      fun c bytes hbytes => h.getValue hbytes⟩⟩
  · obtain ⟨q, j, -, hq, rfl⟩ := hc.exists_node
    exact nodup_chunkLayout (by omega) j
  · have hid : chunkId (2 * p) = node 3 (p / 2 ^ 3) := by
      rw [← node_zero, chunkId_node (by omega)]
    rw [hid, h.holds.1.chunk, if_pos (by omega)]
    rfl

/-- After four entries the chunk yields the node over the four, and not yet its root. -/
theorem chunks_faithful_four : ∃ s bytes,
    Batched Primitives.ideal s (fourEntries.map (entryLeaf Primitives.ideal)) ∧ s.log 7 = some bytes ∧
      ((NodeChunk.new Primitives.ideal 7 (some bytes)).getValue 3).isSome ∧
      (NodeChunk.new Primitives.ideal 7 (some bytes)).getValue 7 = none := by
  obtain ⟨r, s, hrun, -⟩ := exists_fourEntries_store
  have hbatched : Batched Primitives.ideal s ([] ++ fourEntries.map (entryLeaf Primitives.ideal)) :=
    .append (.empty fun _ => rfl) hrun
  obtain ⟨hstored, hread⟩ := chunks_faithful.2.2 _ s _ hbatched
  obtain ⟨bytes, hbytes⟩ := Option.isSome_iff_exists.1 (hstored 0 (by decide))
  have hvalues := (hread _ bytes hbytes).2
  refine ⟨s, bytes, hbatched, hbytes, ?_, ?_⟩
  · have hnode := hvalues 2 0
    rw [if_pos (by decide)] at hnode
    exact Option.isSome_iff_exists.2 ⟨_, hnode⟩
  · have hroot := hvalues 3 0
    rwa [if_neg (by decide)] at hroot

end KeyTransparency
