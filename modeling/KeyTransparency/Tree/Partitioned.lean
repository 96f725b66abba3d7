/-
# Histories that are partitioned

A history is made of the histories of partitions, one after another (`joined`); that of each
partition lies below its node of a level `k` of the tree (`Parted`).  Below the node of a
partition the whole history is the partition's own, and the last insertion below a node
further up is the last one of the last partition there.

`mended_of_parts`: entries that were made for the histories of the partitions, with the
nodes of the whole history above the partitions' roots written into them, are right where a
search asks them, if the partitions are `Spread`.
-/

import KeyTransparency.Library.BitPath
import KeyTransparency.Tree.Bulk
import KeyTransparency.Tree.PrefixMerge

namespace KeyTransparency

open SparseMerkle BitPath

/-- One history after another. -/
def joined : List (List Insertion) → List Insertion
  | [] => []
  | h :: parts => joined parts ++ h

/-- The history of each partition lies below its node of level `k`. -/
structure Parted (k : ℕ) (parts : List (List Insertion)) : Prop where
  length : parts.length = 2 ^ k
  depth : k ≤ 256
  below : ∀ i h, parts[i]? = some h → ∀ x ∈ h, nodePath k i <+: keyBits x.key
  keys : ∀ h ∈ parts, KeysValid h

variable {P : Primitives} {parts : List (List Insertion)} {h h' before : List Insertion} {x y : Insertion}
  {q : List Bool} {t : Octets} {k level i j m p : ℕ}

/-! ### Joined histories -/

theorem joined_append (parts' : List (List Insertion)) : joined (parts ++ parts') = joined parts' ++ joined parts := by
  induction parts with
  | nil => rw [List.nil_append, joined, List.append_nil]
  | cons h parts ih => rw [List.cons_append, joined, joined, ih, List.append_assoc]

theorem mem_joined : x ∈ joined parts ↔ ∃ h ∈ parts, x ∈ h := by
  induction parts with
  | nil => simp [joined]
  | cons h parts ih => rw [joined, List.mem_append, ih, List.exists_mem_cons_iff, or_comm]

/-- A suffix of an appended list ends in one of the two. -/
theorem suffix_append_cases (h' : List Insertion) (hs : y :: before <:+ h ++ h') :
    y :: before <:+ h' ∨ ∃ own, y :: own <:+ h ∧ before = own ++ h' := by
  induction h with
  | nil => exact .inl hs
  | cons z h ih =>
    rcases List.suffix_cons_iff.1 hs with heq | hs
    · obtain ⟨rfl, hrest⟩ := List.cons.inj heq
      exact .inr ⟨h, List.suffix_rfl, hrest⟩
    · rcases ih hs with hs' | ⟨own, hown, hrest⟩
      · exact .inl hs'
      · exact .inr ⟨own, hown.trans (List.suffix_cons z h), hrest⟩

/-- A suffix of the whole history ends within one of the histories. -/
theorem suffix_joined (hs : y :: before <:+ joined parts) :
    ∃ p h own, parts[p]? = some h ∧ y :: own <:+ h ∧ before = own ++ joined (parts.take p) := by
  induction parts generalizing before with
  | nil => simp [joined] at hs
  | cons h parts ih =>
    rcases suffix_append_cases _ hs with hh | ⟨own, hown, rfl⟩
    · exact ⟨0, h, before, rfl, hh, (List.append_nil _).symm⟩
    · obtain ⟨p, h', own', hp, hown', rfl⟩ := ih hown
      exact ⟨p + 1, h', own', hp, hown', by rw [List.take_succ_cons, joined, List.append_assoc]⟩

theorem latestBelow_append (h h' : List Insertion) (q : List Bool) :
    latestBelow (h ++ h') q = (latestBelow h q).or (latestBelow h' q) := List.find?_append

theorem latestBelow_append_of_none (hn : latestBelow h q = none) : latestBelow (h ++ h') q = latestBelow h' q := by
  rw [latestBelow_append, hn, Option.none_or]

theorem latestBelow_append_none (hn : latestBelow h' q = none) : latestBelow (h ++ h') q = latestBelow h q := by
  rw [latestBelow_append, hn, Option.or_none]

/-- The whole history, with the partitions that come after one before it. -/
theorem joined_split (hp : parts[p]? = some h) :
    joined parts = joined (parts.drop (p + 1)) ++ (h ++ joined (parts.take p)) := by
  obtain ⟨hlt, hget⟩ := List.getElem?_eq_some_iff.1 hp
  have hsplit := List.take_append_drop p parts
  rw [List.drop_eq_getElem_cons hlt, hget] at hsplit
  rw [← hsplit, joined_append, joined, List.append_assoc, hsplit]

/-! ### Partitions below nodes -/

namespace Parted

theorem lt (hp : Parted k parts) (hm : parts[m]? = some h) : m < 2 ^ k := by
  rw [← hp.length]
  exact (List.getElem?_eq_some_iff.1 hm).1

theorem keysValid (hp : Parted k parts) : KeysValid (joined parts) := by
  intro x hx
  obtain ⟨h, hh, hxh⟩ := mem_joined.1 hx
  exact hp.keys h hh x hxh

theorem shift_lt (hp : Parted k parts) (hm : parts[m]? = some h) (hl : level ≤ k) : m >>> (k - level) < 2 ^ level := by
  rw [Nat.shiftRight_eq_div_pow, Nat.div_lt_iff_lt_mul (Nat.two_pow_pos _), ← Nat.pow_add, Nat.add_sub_cancel' hl]
  exact hp.lt hm

/-- The node of a level that the insertions of a partition lie below. -/
theorem take_eq (hp : Parted k parts) (hm : parts[m]? = some h) (hx : x ∈ h) (hl : level ≤ k) :
    (keyBits x.key).take level = nodePath level (m >>> (k - level)) := by
  have htake := List.prefix_iff_eq_take.1 (hp.below m h hm x hx)
  rw [length_nodePath] at htake
  rw [← take_nodePath hl, htake, List.take_take, Nat.min_eq_left hl]

theorem below_iff (hp : Parted k parts) (hm : parts[m]? = some h) (hx : x ∈ h) (hl : level ≤ k)
    (hj : j < 2 ^ level) : nodePath level j <+: keyBits x.key ↔ m >>> (k - level) = j := by
  have hself : nodePath level (m >>> (k - level)) <+: keyBits x.key := by
    rw [← hp.take_eq hm hx hl]
    exact List.take_prefix _ _
  constructor
  · exact fun hj' => eq_of_nodePath_prefix (hp.shift_lt hm hl) hj hself hj'
  · rintro rfl
    exact hself

/-- The partition of an insertion. -/
theorem index_unique (hp : Parted k parts) (hm : parts[m]? = some h) (hx : x ∈ h) (hi : parts[i]? = some h')
    (hx' : x ∈ h') : m = i := by
  simpa using (hp.below_iff hm hx le_rfl (hp.lt hi)).1 (hp.below i h' hi x hx')

/-- A partition has no insertions below the node of another. -/
theorem latestBelow_other (hp : Parted k parts) (hm : parts[m]? = some h) (hne : m ≠ i) (hi : i < 2 ^ k)
    (hq : nodePath k i <+: q) : latestBelow h q = none := by
  refine latestBelow_eq_none.2 fun x hx hbelow => hne ?_
  simpa using (hp.below_iff hm hx le_rfl hi).1 (hq.trans hbelow)

theorem latestBelow_others (hp : Parted k parts) (hi : i < 2 ^ k) (hq : nodePath k i <+: q)
    {parts' : List (List Insertion)} (hparts' : ∀ h' ∈ parts', ∃ m, parts[m]? = some h' ∧ m ≠ i) :
    latestBelow (joined parts') q = none := by
  refine latestBelow_eq_none.2 fun x hx => ?_
  obtain ⟨h', hh', hxh'⟩ := mem_joined.1 hx
  obtain ⟨m, hm, hne⟩ := hparts' h' hh'
  exact latestBelow_eq_none.1 (hp.latestBelow_other hm hne hi hq) x hxh'

theorem latestBelow_earlier (hp : Parted k parts) (hi : i < 2 ^ k) (hq : nodePath k i <+: q) :
    latestBelow (joined (parts.take i)) q = none := by
  refine hp.latestBelow_others hi hq fun h' hh' => ?_
  obtain ⟨m, hm⟩ := List.mem_iff_getElem?.1 hh'
  rw [List.getElem?_take] at hm
  split_ifs at hm with hlt
  exact ⟨m, hm, hlt.ne⟩

/-- **Below the node of a partition** the whole history is the partition's own. -/
theorem latestBelow_part (hp : Parted k parts) (hi : parts[i]? = some h) (hq : nodePath k i <+: q) :
    latestBelow (joined parts) q = latestBelow h q := by
  have hlater : latestBelow (joined (parts.drop (i + 1))) q = none := by
    refine hp.latestBelow_others (hp.lt hi) hq fun h' hh' => ?_
    obtain ⟨m, hm⟩ := List.mem_iff_getElem?.1 hh'
    rw [List.getElem?_drop] at hm
    exact ⟨_, hm, by omega⟩
  rw [joined_split hi, latestBelow_append_of_none hlater,
    latestBelow_append_none (hp.latestBelow_earlier (hp.lt hi) hq)]

/-- The last insertion below a node is in no earlier partition than any there. -/
theorem later_none (hp : Parted k parts) (hy : latestBelow (joined parts) q = some y) (hi : parts[i]? = some h)
    (hmem : y ∈ h) (hm : parts[m]? = some h') (him : i < m) : latestBelow h' q = none := by
  have hsplit : joined parts = joined (parts.drop (i + 1)) ++ joined (parts.take (i + 1)) := by
    rw [← joined_append, List.take_append_drop]
  have hlater : latestBelow (joined (parts.drop (i + 1))) q = none := by
    cases hz : latestBelow (joined (parts.drop (i + 1))) q with
    | none => rfl
    | some z =>
      rw [hsplit, latestBelow_append, hz, Option.some_or] at hy
      obtain rfl := Option.some.inj hy
      obtain ⟨h'', hh'', hzh''⟩ := mem_joined.1 (mem_of_latestBelow hz)
      obtain ⟨d, hd⟩ := List.mem_iff_getElem?.1 hh''
      rw [List.getElem?_drop] at hd
      have := hp.index_unique hi hmem hd hzh''
      omega
  refine latestBelow_eq_none.2 fun x hx => latestBelow_eq_none.1 hlater x (mem_joined.2 ⟨h', ?_, hx⟩)
  rw [List.mem_iff_getElem?]
  refine ⟨m - (i + 1), ?_⟩
  rw [List.getElem?_drop, show i + 1 + (m - (i + 1)) = m by omega]
  exact hm

/-- **The last insertion below a node** is that of the last partition there. -/
theorem latestBelow_last (hp : Parted k parts) (hm : parts[m]? = some (x :: h)) (hl : level ≤ k)
    (hlast : ∀ m', m < m' → m' >>> (k - level) ≠ m >>> (k - level)) :
    latestBelow (joined parts) (nodePath level (m >>> (k - level))) = some x := by
  have hbelow := (hp.below_iff hm List.mem_cons_self hl (hp.shift_lt hm hl)).2 rfl
  have hlater : latestBelow (joined (parts.drop (m + 1))) (nodePath level (m >>> (k - level))) = none := by
    refine latestBelow_eq_none.2 fun z hz hz' => ?_
    obtain ⟨h', hh', hzh'⟩ := mem_joined.1 hz
    obtain ⟨d, hd⟩ := List.mem_iff_getElem?.1 hh'
    rw [List.getElem?_drop] at hd
    exact hlast _ (by omega) ((hp.below_iff hd hzh' hl (hp.shift_lt hm hl)).1 hz')
  rw [joined_split hm, latestBelow_append_of_none hlater, List.cons_append, latestBelow_cons_of hbelow]

end Parted

/-! ### The hashes above the partitions -/

/-- The hash of a node with insertions below it. -/
theorem subtreeHash_node (hk : KeysValid h) (hq : q.length < 256) (hne : latestBelow h q ≠ none) :
    subtreeHash P (commitmentsOf h) q =
      parentHash P (subtreeHash P (commitmentsOf h) (q ++ [false])) (subtreeHash P (commitmentsOf h) (q ++ [true])) := by
  obtain ⟨r, hr, hleaf⟩ := exists_leaf_below (P := P) hk hne
  rw [subtreeHash, subtreeHash, subtreeHash, List.length_append, List.length_append, List.length_singleton,
    List.length_singleton, show 256 - q.length = 256 - (q.length + 1) + 1 by omega]
  exact hash_succ ⟨r, by omega, hleaf⟩

theorem length_subtreeHash (hinj : Function.Injective P.sha256) (hzero : ∀ m, P.sha256 m ≠ zeroValue)
    (commitments : Octets → Option Octets) (q : List Bool) : (subtreeHash P commitments q).length = 32 := by
  refine Scheme.hash_digest (S := prefixScheme P hinj hzero) (fun p v hv => ?_) _ _
  obtain ⟨c, -, rfl⟩ := Option.map_eq_some_iff.1 hv
  exact P.length_sha256 _

namespace Bulk

variable {hashes : List Octets}

/-- A level of the hash tree, from the one below. -/
def parents (P : Primitives) (level : ℕ) (hashes : List Octets) : List Octets :=
  (List.range (1 <<< level)).map fun j => parentHash P (hashes.getD (2 * j) []) (hashes.getD (2 * j + 1) [])

theorem getD_parents (hj : j < 2 ^ level) : (parents P level hashes).getD j [] =
    parentHash P (hashes.getD (2 * j) []) (hashes.getD (2 * j + 1) []) := by
  have hlt : j < (List.range (1 <<< level)).length := by rwa [List.length_range, Nat.one_shiftLeft]
  rw [parents, List.getD_eq_getElem _ _ (by rwa [List.length_map]), List.getElem_map, List.getElem_range]

@[simp] theorem length_buildHashTree (level : ℕ) (hashes : List Octets) :
    (buildHashTree P level hashes).length = level + 1 := by
  induction level generalizing hashes with
  | zero => rfl
  | succ level ih => rw [buildHashTree, List.length_append, ih, List.length_singleton]

theorem getD_buildHashTree_last (level : ℕ) (hashes : List Octets) :
    (buildHashTree P level hashes).getD level [] = hashes := by
  cases level with
  | zero => rfl
  | succ level =>
    rw [buildHashTree, List.getD_append_right _ _ _ _ (by simp), length_buildHashTree, Nat.sub_self]
    rfl

theorem getD_buildHashTree_succ (hl : i ≤ level) : (buildHashTree P (level + 1) hashes).getD i [] =
    (buildHashTree P level (parents P level hashes)).getD i [] := by
  rw [buildHashTree, List.getD_append _ _ _ _ (by simp; omega)]
  rfl

/-- **The hash tree is right** if every node above the partitions has insertions below it. -/
theorem buildHashTree_eq (hk : KeysValid h) (hlevel : level ≤ 256)
    (hh : ∀ j < 2 ^ level, hashes.getD j [] = subtreeHash P (commitmentsOf h) (nodePath level j))
    (hne : ∀ l < level, ∀ j < 2 ^ l, latestBelow h (nodePath l j) ≠ none) {l : ℕ}
    (hl : l ≤ level) (hj : j < 2 ^ l) :
    ((buildHashTree P level hashes).getD l []).getD j [] = subtreeHash P (commitmentsOf h) (nodePath l j) := by
  induction level generalizing hashes with
  | zero =>
    obtain rfl := Nat.le_zero.1 hl
    exact hh j hj
  | succ level ih =>
    rcases Nat.eq_or_lt_of_le hl with rfl | hlt
    · rw [getD_buildHashTree_last]
      exact hh j hj
    · have hl' : l ≤ level := by omega
      rw [getD_buildHashTree_succ hl']
      refine ih (by omega) (fun i hi => ?_) (fun l' hl'' => hne l' (by omega)) hl'
      have h₀ := hh (2 * i) (by rw [Nat.pow_succ]; omega)
      have h₁ := hh (2 * i + 1) (by rw [Nat.pow_succ]; omega)
      rw [getD_parents hi, h₀, h₁, subtreeHash_node hk (by rw [length_nodePath]; omega) (hne level (by omega) i hi)]
      exact congrArg₂ _ (congrArg _ (nodePath_double level i false)) (congrArg _ (nodePath_double level i true))

/-- **If the root is right** every node above the partitions has insertions below it. -/
theorem of_buildHashTree_root (hinj : Function.Injective P.sha256) (hzero : ∀ m, P.sha256 m ≠ zeroValue)
    (hk : KeysValid h) (hlevel : level ≤ 256) (hlen : ∀ j < 2 ^ level, (hashes.getD j []).length = 32)
    (hroot : ((buildHashTree P level hashes).getD 0 []).getD 0 [] = subtreeHash P (commitmentsOf h) []) :
    (∀ j < 2 ^ level, hashes.getD j [] = subtreeHash P (commitmentsOf h) (nodePath level j)) ∧
      ∀ l < level, ∀ j < 2 ^ l, latestBelow h (nodePath l j) ≠ none := by
  induction level generalizing hashes with
  | zero =>
    refine ⟨fun j hj => ?_, fun l hl => absurd hl (by omega)⟩
    obtain rfl : j = 0 := by omega
    exact hroot
  | succ level ih =>
    rw [getD_buildHashTree_succ (Nat.zero_le level)] at hroot
    obtain ⟨hparents, habove⟩ := ih (by omega)
      (fun j hj => by rw [getD_parents hj]; exact length_parentHash P _ _) hroot
    have hnode : ∀ j < 2 ^ level, latestBelow h (nodePath level j) ≠ none := by
      intro j hj hnone
      have heq := hparents j hj
      rw [getD_parents hj, subtreeHash_of_none hk (by rw [length_nodePath]; omega) hnone] at heq
      exact hzero _ heq
    refine ⟨fun j hj => ?_, fun l hl j hj => ?_⟩
    · rw [Nat.pow_succ] at hj
      have heq := hparents (j / 2) (by omega)
      rw [getD_parents (by omega), subtreeHash_node hk (by rw [length_nodePath]; omega) (hnode _ (by omega))] at heq
      obtain ⟨h₀, h₁⟩ := (prefixScheme P hinj hzero).par_inj_left (hlen _ (by rw [Nat.pow_succ]; omega))
        (length_subtreeHash hinj hzero _ _) heq
      rcases Nat.even_or_odd' j with ⟨i, rfl | rfl⟩
      · rw [show 2 * i / 2 = i by omega] at h₀
        rw [h₀]
        exact congrArg _ (nodePath_double level i false).symm
      · rw [show (2 * i + 1) / 2 = i by omega] at h₁
        rw [h₁]
        exact congrArg _ (nodePath_double level i true).symm
    · rcases Nat.eq_or_lt_of_le (Nat.le_of_lt_succ hl) with rfl | hlt
      · exact hnode j hj
      · exact habove l hlt j hj

end Bulk

/-! ### Partitions that have insertions -/

/-- Of two partitions beside each other one has entries. -/
def Paired {α : Type} (parts : List (List α)) : Prop :=
  ∀ j, 2 * j + 1 < parts.length → parts.getD (2 * j) [] ≠ [] ∨ parts.getD (2 * j + 1) [] ≠ []

/-- Of two partitions beside each other the later one has entries, or they are the last two
and the other one has. -/
def Spread {α : Type} (parts : List (List α)) : Prop :=
  ∀ j, 2 * j + 1 < parts.length →
    parts.getD (2 * j + 1) [] ≠ [] ∨ (2 * j + 2 = parts.length ∧ parts.getD (2 * j) [] ≠ [])

theorem Spread.paired {α : Type} {parts : List (List α)} (hs : Spread parts) : Paired parts := fun j hj =>
  (hs j hj).elim .inr fun h => .inl h.2

namespace Parted

theorem getD_ne_nil (hne : parts.getD m [] ≠ []) : ∃ x h, parts[m]? = some (x :: h) := by
  rw [List.getD_eq_getElem?_getD] at hne
  cases hm : parts[m]? with
  | none => simp [hm] at hne
  | some h =>
    cases h with
    | nil => simp [hm] at hne
    | cons x h => exact ⟨x, h, rfl⟩

/-- A partition with insertions is below a node with insertions. -/
theorem latestBelow_ne_none (hp : Parted k parts) (hm : parts.getD m [] ≠ []) (hl : level ≤ k)
    (hj : m >>> (k - level) = j) : latestBelow (joined parts) (nodePath level j) ≠ none := by
  obtain ⟨x, h, hx⟩ := getD_ne_nil hm
  have hlt := hp.shift_lt hx hl
  rw [hj] at hlt
  have hbelow := (hp.below_iff hx List.mem_cons_self hl hlt).2 hj
  exact fun hnone => latestBelow_eq_none.1 hnone x (mem_joined.2 ⟨_, List.mem_of_getElem? hx, List.mem_cons_self⟩) hbelow

/-- **The partitions are paired** when every node above them has insertions below it. -/
theorem paired_iff (hp : Parted k parts) :
    Paired parts ↔ ∀ l < k, ∀ j < 2 ^ l, latestBelow (joined parts) (nodePath l j) ≠ none := by
  constructor
  · intro hpair l hl j hj
    obtain ⟨b, rfl⟩ : ∃ b, k = l + (b + 1) := ⟨k - l - 1, by omega⟩
    have hpos := Nat.two_pow_pos b
    have hlt : 2 * (j * 2 ^ b) + 1 < parts.length := by
      have hmul := Nat.mul_le_mul_right (2 ^ b) (Nat.succ_le_of_lt hj)
      rw [Nat.succ_mul] at hmul
      rw [hp.length, Nat.pow_add, Nat.pow_succ, ← Nat.mul_assoc (2 ^ l)]
      omega
    have hnode : ∀ d ≤ 1, (2 * (j * 2 ^ b) + d) >>> (l + (b + 1) - l) = j := by
      intro d hd
      rw [Nat.add_sub_cancel_left, Nat.shiftRight_eq_div_pow, Nat.pow_succ,
        show 2 * (j * 2 ^ b) + d = d + j * (2 ^ b * 2) by rw [← Nat.mul_assoc j]; omega,
        Nat.add_mul_div_right _ _ (by omega), Nat.div_eq_of_lt (by omega), Nat.zero_add]
    rcases hpair _ hlt with h₀ | h₁
    · exact hp.latestBelow_ne_none h₀ hl.le (hnode 0 (by omega))
    · exact hp.latestBelow_ne_none h₁ hl.le (hnode 1 le_rfl)
  · intro hall j hj
    rw [hp.length] at hj
    obtain ⟨l, rfl⟩ : ∃ l, k = l + 1 := Nat.exists_eq_succ_of_ne_zero (by rintro rfl; simp at hj)
    rw [Nat.pow_succ] at hj
    obtain ⟨x, hx⟩ := Option.ne_none_iff_exists'.1 (hall l (Nat.lt_succ_self l) j (by omega))
    obtain ⟨h, hh, hxh⟩ := mem_joined.1 (mem_of_latestBelow hx)
    obtain ⟨m, hm⟩ := List.mem_iff_getElem?.1 hh
    have hnode := (hp.below_iff hm hxh (Nat.le_succ l) (by omega)).1 (prefix_of_latestBelow hx)
    rw [Nat.add_sub_cancel_left, Nat.shiftRight_one] at hnode
    have hself : parts.getD m [] ≠ [] := by
      rw [List.getD_eq_getElem?_getD, hm]
      exact List.ne_nil_of_mem hxh
    rcases Nat.mod_two_eq_zero_or_one m with h₀ | h₁
    · exact .inl (by rwa [show 2 * j = m by omega])
    · exact .inr (by rwa [show 2 * j + 1 = m by omega])

/-! ### The node beside a path -/

variable {b : ℕ}

/-- The nodes beside a path, by their numbers. -/
theorem beside_eq (hp : Parted k parts) (hi : parts[p]? = some h) (hy : y ∈ h) {l : ℕ} (hk : k = l + 1 + b) :
    beside (keyBits y.key) l = nodePath (l + 1) ((p >>> b) ^^^ 1) := by
  have hdepth := hp.depth
  have htake := hp.take_eq hi hy (show l + 1 ≤ k by omega)
  rw [take_succ_keyBits (by omega), nodePath, show k - (l + 1) = b by omega] at htake
  obtain ⟨habove, hbit⟩ := List.append_inj' htake rfl
  rw [nodePath_beside, beside, habove, List.singleton_inj.1 hbit]

theorem last_shift (i b : ℕ) : (i * 2 ^ b + (2 ^ b - 1)) >>> b = i := by
  have hpos := Nat.two_pow_pos b
  rw [Nat.shiftRight_eq_div_pow, Nat.add_comm, Nat.add_mul_div_right _ _ hpos, Nat.div_eq_of_lt (by omega),
    Nat.zero_add]

theorem lt_shift {i b m : ℕ} (hm : i * 2 ^ b + (2 ^ b - 1) < m) : i < m >>> b := by
  rw [Nat.shiftRight_eq_div_pow]
  refine (Nat.le_div_iff_mul_le (Nat.two_pow_pos b)).2 ?_
  rw [Nat.succ_mul]
  omega

theorem xor_one_cases (q : ℕ) : (q ^^^ 1) = q + 1 ∨ (q ^^^ 1) + 1 = q := by
  have hdiv : (q ^^^ 1) / 2 = q / 2 := by rw [Nat.xor_div_two, show (1 : ℕ) / 2 = 0 from rfl, Nat.xor_zero]
  have hmod : (q ^^^ 1) % 2 = (q + 1) % 2 := Nat.xor_mod_two_eq
  omega

/-- To the right of the latest insertion below a node nothing was inserted. -/
theorem beside_right_none (hp : Parted k parts) (hi : parts[p]? = some h) (hy : y ∈ h) {l : ℕ} (hk : k = l + 1 + b)
    (hlatest : latestBelow (joined parts) ((keyBits y.key).take l) = some y) (hright : (p >>> b) ^^^ 1 = (p >>> b) + 1) :
    latestBelow (joined parts) (beside (keyBits y.key) l) = none := by
  have hl : l + 1 ≤ k := by omega
  have hb : k - (l + 1) = b := by omega
  have hshift := hp.shift_lt hi hl
  rw [hb] at hshift
  have hbeside_lt : (p >>> b) ^^^ 1 < 2 ^ (l + 1) := Nat.xor_lt_two_pow hshift (Nat.one_lt_two_pow (Nat.succ_ne_zero l))
  refine latestBelow_eq_none.2 fun z hz hbelow => ?_
  obtain ⟨h', hh', hzh'⟩ := mem_joined.1 hz
  obtain ⟨m, hm⟩ := List.mem_iff_getElem?.1 hh'
  have hnode := hbelow
  rw [hp.beside_eq hi hy hk, hp.below_iff hm hzh' hl hbeside_lt, hb, hright] at hnode
  have hlt : p < m := by
    by_contra hge
    have hle := Nat.div_le_div_right (c := 2 ^ b) (Nat.le_of_not_lt hge)
    rw [← Nat.shiftRight_eq_div_pow, ← Nat.shiftRight_eq_div_pow] at hle
    omega
  have hlater := hp.later_none hlatest hi hy hm hlt
  exact latestBelow_eq_none.1 (latestBelow_longer (take_prefix_beside le_rfl) hlater) z hzh' hbelow

/-- The last partition of a sub-tree to the left has insertions, if the partitions are spread. -/
theorem last_left_ne_nil (hspread : Spread parts) (hlt : p < parts.length) {c i : ℕ}
    (hleft : i + 1 = p >>> (c + 1)) : parts.getD (i * 2 ^ (c + 1) + (2 ^ (c + 1) - 1)) [] ≠ [] := by
  have hc := Nat.two_pow_pos c
  have hodd : i * 2 ^ (c + 1) + (2 ^ (c + 1) - 1) = 2 * (i * 2 ^ c + 2 ^ c - 1) + 1 := by
    rw [Nat.pow_succ, ← Nat.mul_assoc i]
    omega
  have hend : i * 2 ^ (c + 1) + (2 ^ (c + 1) - 1) + 1 ≤ p := by
    have hmul := Nat.div_mul_le_self p (2 ^ (c + 1))
    rw [← Nat.shiftRight_eq_div_pow, ← hleft, Nat.succ_mul] at hmul
    omega
  rw [hodd] at hend ⊢
  rcases hspread (i * 2 ^ c + 2 ^ c - 1) (by omega) with hne | ⟨hlast, -⟩
  · exact hne
  · omega

/-- **The last partition beside a path** has the last insertion there, or there is none, if
the partitions are spread. -/
theorem latestBelow_beside (hp : Parted k parts) (hspread : Spread parts) (hi : parts[p]? = some h) (hy : y ∈ h)
    {l : ℕ} (hk : k = l + 1 + b) (hlatest : latestBelow (joined parts) ((keyBits y.key).take l) = some y) :
    (parts.map rootPtr).getD (Bulk.siblingRootPid p l k) none =
      (latestBelow (joined parts) (beside (keyBits y.key) l)).map Insertion.position := by
  have hl : l + 1 ≤ k := by omega
  have hpos := Nat.two_pow_pos b
  obtain ⟨i, hieq⟩ : ∃ i, i = (p >>> b) ^^^ 1 := ⟨_, rfl⟩
  obtain ⟨m, hmeq⟩ : ∃ m, m = i * 2 ^ b + (2 ^ b - 1) := ⟨_, rfl⟩
  have hpid : Bulk.siblingRootPid p l k = m := by
    rw [hmeq, hieq, Bulk.siblingRootPid, show k - 1 - l = b by omega]
    exact lastBeside_eq p b
  have hshift := hp.shift_lt hi hl
  rw [show k - (l + 1) = b by omega] at hshift
  have hi_lt : i < 2 ^ (l + 1) := by
    rw [hieq]
    exact Nat.xor_lt_two_pow hshift (Nat.one_lt_two_pow (Nat.succ_ne_zero l))
  have hlen : parts.length = 2 ^ (l + 1) * 2 ^ b := by rw [hp.length, hk, Nat.pow_add]
  have hm_lt : m < parts.length := by
    have hmul := Nat.mul_le_mul_right (2 ^ b) (Nat.succ_le_of_lt hi_lt)
    rw [Nat.succ_mul] at hmul
    omega
  have hnode : m >>> (k - (l + 1)) = i := by rw [show k - (l + 1) = b by omega, hmeq, last_shift]
  have hbeside := hp.beside_eq hi hy hk
  rw [← hieq] at hbeside
  rw [hpid, hbeside, List.getD_eq_getElem?_getD, List.getElem?_map]
  cases hpart : parts[m]? with
  | none => exact absurd (List.getElem?_eq_none_iff.1 hpart) (by omega)
  | some h' =>
    cases h' with
    | cons x h' =>
      have hlast := hp.latestBelow_last hpart hl fun m' hm' => by
        rw [hnode, show k - (l + 1) = b by omega]
        exact (lt_shift (hmeq ▸ hm')).ne'
      rw [hnode] at hlast
      rw [hlast]
      rfl
    | nil =>
      have hempty : parts.getD m [] = [] := by
        rw [List.getD_eq_getElem?_getD, hpart]
        rfl
      suffices hnone : latestBelow (joined parts) (nodePath (l + 1) i) = none by
        rw [hnone]
        rfl
      rcases xor_one_cases (p >>> b) with hright | hleft
      · rw [← hbeside]
        exact hp.beside_right_none hi hy hk hlatest hright
      · rw [← hieq] at hleft
        cases b with
        | zero =>
          -- the partition is the node beside
          have hself : nodePath k m = nodePath (l + 1) i := by
            rw [hk, hmeq, Nat.pow_zero, Nat.mul_one, Nat.sub_self, Nat.add_zero (l + 1), Nat.add_zero i]
          rw [← hself, hp.latestBelow_part hpart List.prefix_rfl]
          rfl
        | succ c =>
          have hlt := hp.lt hi
          rw [← hp.length] at hlt
          exact absurd (hmeq ▸ hempty) (last_left_ne_nil hspread hlt hleft)

end Parted

/-! ### Merged entries -/

theorem Bulk.mergeEntry_copath (above : List ParentNode) (entry : LogEntry) :
    (Bulk.mergeEntry k above entry).copath = above ++ entry.copath.drop k := by
  unfold Bulk.mergeEntry
  dsimp only
  split_ifs with hlt
  · rfl
  · rw [List.drop_of_length_le (Nat.le_of_not_lt hlt)]

theorem getElem?_merged (f : ℕ → ParentNode) (copath : List ParentNode) :
    ((List.range k).map f ++ copath.drop k)[i]? = if i < k then some (f i) else copath[i]? := by
  split_ifs with hlt
  · rw [List.getElem?_append_left (by simpa using hlt), List.getElem?_map, List.getElem?_range hlt, Option.map_some]
  · rw [List.getElem?_append_right (by simpa using hlt), List.length_map, List.length_range, List.getElem?_drop,
      Nat.add_sub_cancel' (Nat.le_of_not_lt hlt)]

/-- The node beside the path of an insertion into a history. -/
def nodeBeside (P : Primitives) (before : List Insertion) (key : Octets) (level : ℕ) : ParentNode :=
  let path := beside (keyBits key) level
  ⟨subtreeHash P (commitmentsOf before) path, (latestBelow before path).map Insertion.position,
    (latestBelow before path).map Insertion.position⟩

/-- **The entry of a partition's tree, with the nodes above the partition**, is the entry of
the insertion into the whole history. -/
theorem Parted.entryFor (hp : Parted k parts) (hi : parts[p]? = some h) {own : List Insertion} (hown : y :: own <:+ h)
    (hbefore : before = own ++ joined (parts.take p)) (hk : KeysValid (y :: before)) {entry : LogEntry}
    (he : EntryFor P own y entry) :
    EntryFor P before y { entry with
      copath := (List.range k).map (nodeBeside P before y.key) ++ entry.copath.drop k } := by
  have hy : y ∈ h := hown.mem List.mem_cons_self
  have hdepth := hp.depth
  have hpath : nodePath k p = (keyBits y.key).take k := by rw [hp.take_eq hi hy le_rfl, Nat.sub_self, Nat.shiftRight_zero]
  have hsame : ∀ {l r}, k ≤ l → beside (keyBits y.key) l <+: r → latestBelow before r = latestBelow own r := by
    intro l r hl hr
    rw [hbefore, latestBelow_append_none (hp.latestBelow_earlier (hp.lt hi) ?_)]
    rw [hpath]
    exact (take_prefix_beside hl).trans hr
  have hk' : KeysValid before := fun z hz => hk z (List.mem_cons_of_mem _ hz)
  have hkown : KeysValid own := fun z hz => hk' z (hbefore ▸ List.mem_append_left _ hz)
  refine ⟨he.index, he.leaf, ⟨?_, fun l node hnode => ?_⟩, fun l hl hl' => ?_⟩
  · have := he.copath.length_le
    simp only [List.length_append, List.length_map, List.length_range, List.length_drop]
    omega
  · rw [getElem?_merged] at hnode
    split_ifs at hnode with hlt
    · obtain rfl := Option.some.inj hnode
      exact ⟨rfl, rfl⟩
    · obtain ⟨hhash, hptr⟩ := he.copath.node l node hnode
      have hl : l < 256 := (List.getElem?_eq_some_iff.1 hnode).1.trans_le he.copath.length_le
      refine ⟨hhash.trans ?_, hptr.trans ?_⟩
      · exact (subtreeHash_congr hk' hkown (by rw [length_beside hl]; omega)
          fun r hr => hsame (Nat.le_of_not_lt hlt) hr).symm
      · rw [hsame (Nat.le_of_not_lt hlt) List.prefix_rfl]
  · simp only [List.length_append, List.length_map, List.length_range, List.length_drop] at hl
    rw [hsame (by omega) List.prefix_rfl]
    exact he.copath.rest l (by omega) hl'

/-- **Merged entries are right where they are asked.**  The nodes written into an entry are
those of the whole history; beside the path of the last insertion below a node nothing has
been inserted since. -/
theorem Parted.mended (hp : Parted k parts) (hspread : Spread parts) {hashTree : List (List Octets)}
    (hhash : ∀ l ≤ k, ∀ j < 2 ^ l,
      (hashTree.getD l []).getD j [] = subtreeHash P (commitmentsOf (joined parts)) (nodePath l j))
    {entries entries' : ℕ → Option LogEntry} (hrec : ∀ h ∈ parts, Recorded P h entries)
    (hmerged : ∀ i h x entry, parts[i]? = some h → x ∈ h → entries x.position = some entry →
      entries' x.position =
        some (Bulk.mergeEntry k (Bulk.mergeCopathForPartition i k hashTree (parts.map rootPtr)) entry)) :
    Mended P (joined parts) entries' := by
  intro t level y before ht hlevel st
  obtain ⟨p, h, own, hi, hown, hbefore⟩ := suffix_joined st.suffix
  obtain ⟨entry, hentry, he⟩ := hrec h (List.mem_of_getElem? hi) y own hown
  have hy : y ∈ h := hown.mem List.mem_cons_self
  have hdepth := hp.depth
  have hkeys := st.keysValid hp.keysValid
  have htake := (st.take_eq hlevel).symm
  refine ⟨_, _, hmerged p h y entry hi hy hentry, hp.entryFor hi hown hbefore hkeys he, rfl, rfl, rfl, ?_⟩
  refine List.ext_getElem? fun d => ?_
  rw [Bulk.mergeEntry_copath, List.getElem?_drop, List.getElem?_drop, Bulk.mergeCopathForPartition, getElem?_merged,
    getElem?_merged]
  split_ifs with hlt
  · obtain ⟨l, hl⟩ : ∃ l, l = level + d := ⟨_, rfl⟩
    obtain ⟨b, hb⟩ : ∃ b, k = l + 1 + b := ⟨k - l - 1, by omega⟩
    rw [← hl]
    have hpath : (keyBits t).take level <+: (keyBits y.key).take l := by
      rw [htake]
      exact (keyBits y.key).take_prefix_take_left (by omega)
    have hlatest : latestBelow (joined parts) ((keyBits y.key).take l) = some y := by
      rw [st.frozen _ hpath, latestBelow_cons_of (List.take_prefix _ _)]
    have hsame : ∀ r, beside (keyBits y.key) l <+: r → latestBelow (joined parts) r = latestBelow before r := by
      intro r hr
      have hbelow : (keyBits t).take level <+: r := by
        rw [htake]
        exact (take_prefix_beside (by omega)).trans hr
      rw [st.frozen r hbelow, latestBelow_cons_of_not fun hyr => not_beside_below (by omega) (hr.trans hyr)]
    have hbeside := hp.beside_eq hi hy hb
    have hshift := hp.shift_lt hi (show l + 1 ≤ k by omega)
    rw [show k - (l + 1) = b by omega] at hshift
    have hhash' := hhash (l + 1) (by omega) ((p >>> b) ^^^ 1)
      (Nat.xor_lt_two_pow hshift (Nat.one_lt_two_pow (Nat.succ_ne_zero l)))
    have hposition := hp.latestBelow_beside hspread hi hy hb hlatest
    rw [hsame _ List.prefix_rfl] at hposition
    have hsubtree : subtreeHash P (commitmentsOf (joined parts)) (beside (keyBits y.key) l) =
        subtreeHash P (commitmentsOf before) (beside (keyBits y.key) l) :=
      subtreeHash_congr hp.keysValid (fun z hz => hkeys z (List.mem_cons_of_mem _ hz))
        (by rw [length_beside (by omega)]; omega) hsame
    dsimp only
    rw [nodeBeside, hposition, show k - 1 - l = b by omega, hhash', ← hbeside, hsubtree]
  · rfl

end KeyTransparency
