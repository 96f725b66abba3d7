/-
# The nodes of a partial prefix tree

`PartialPrefixTree` names a node by its level and its masked path; `pathOf` is that name
for a path of bits.  `resolve` is the library's, on the values at paths (`resolve_eq`).
-/

import KeyTransparency.Client.Transition
import KeyTransparency.Library.PartialMerkle

namespace KeyTransparency

open SparseMerkle

/-- A path filled up with zeros, as octets. -/
def pathOf (p : List Bool) : Octets := keyOf (p ++ List.replicate (256 - p.length) false)

section

variable {p q : List Bool} {k : Octets}

theorem length_filled (hp : p.length ≤ 256) :
    (p ++ List.replicate (256 - p.length) false).length = 256 := by
  rw [List.length_append, List.length_replicate]
  omega

theorem isKey_pathOf (hp : p.length ≤ 256) : IsKey (pathOf p) := isKey_keyOf (length_filled hp)

theorem keyBits_pathOf (hp : p.length ≤ 256) :
    keyBits (pathOf p) = p ++ List.replicate (256 - p.length) false :=
  keyBits_keyOf (length_filled hp)

theorem take_keyBits_pathOf (hp : p.length ≤ 256) {l : ℕ} (hl : l ≤ p.length) :
    (keyBits (pathOf p)).take l = p.take l := by
  rw [keyBits_pathOf hp, List.take_append_of_le_length hl]

/-- A path of full length is the path of its key. -/
theorem pathOf_keyBits (hk : IsKey k) : pathOf (keyBits k) = k := by
  rw [pathOf, length_keyBits, Nat.sub_self, List.replicate_zero, List.append_nil, keyOf_keyBits hk]

theorem pathOf_inj (hp : p.length ≤ 256) (hlen : p.length = q.length) (h : pathOf p = pathOf q) :
    p = q := by
  have hbits := congrArg keyBits h
  rw [keyBits_pathOf hp, keyBits_pathOf (hlen ▸ hp)] at hbits
  exact (List.append_inj hbits hlen).1

/-- Two keys are equal when all their bits are. -/
theorem eq_of_getBit {k k' : Octets} (hk : IsKey k) (hk' : IsKey k')
    (h : ∀ n < 256, getBit k n = getBit k' n) : k = k' := by
  refine keyBits_inj hk hk' (List.map_congr_left fun n hn => ?_)
  rw [h n (by simpa [indexLength] using hn)]

theorem getBit_pathOf (hp : p.length ≤ 256) {n : ℕ} (hn : n < 256) :
    getBit (pathOf p) n = (p.getD n false).toNat := by
  have h := getD_keyBits (k := pathOf p) hn
  have hget : (p ++ List.replicate (256 - p.length) false).getD n false = p.getD n false := by
    rcases Nat.lt_or_ge n p.length with hlt | hge
    · rw [List.getD_append _ _ _ _ hlt]
    · rw [List.getD_append_right _ _ _ _ hge, List.getD_eq_default _ _ hge, List.getD_eq_getElem?_getD]
      cases h' : (List.replicate (256 - p.length) false)[n - p.length]? with
      | none => rfl
      | some b => exact List.eq_of_mem_replicate (List.mem_of_getElem? h')
  rw [keyBits_pathOf hp, hget] at h
  rw [getBit_eq_ite, ← h]
  cases p.getD n false <;> rfl

/-! ### Masked octets -/

private theorem masked_byte : ∀ b < 256, ∀ r < 8, ∀ i < 8,
    (b &&& (0xff <<< (8 - r)) % 256) >>> (7 - i) &&& 1 =
      if i < r then b >>> (7 - i) &&& 1 else 0 := by
  decide +kernel

private theorem masked_byte_lt : ∀ b < 256, ∀ r < 8, b &&& (0xff <<< (8 - r)) % 256 < 256 := by
  decide +kernel

private theorem set_byte : ∀ b < 256, ∀ r < 8, ∀ i < 8,
    (b ||| 1 <<< (7 - r)) >>> (7 - i) &&& 1 = if i = r then 1 else b >>> (7 - i) &&& 1 := by
  decide +kernel

private theorem set_byte_lt : ∀ b < 256, ∀ r < 8, b ||| 1 <<< (7 - r) < 256 := by
  decide +kernel

namespace PartialPrefixTree

@[simp] theorem length_masked (key : Octets) (level : ℕ) : (masked key level).length = 32 := by
  simp [masked]

theorem getD_masked (key : Octets) (level : ℕ) {j : ℕ} (hj : j < 32) :
    (masked key level).getD j 0 =
      if j < level / 8 then key.getD j 0
      else if j = level / 8 ∧ level % 8 ≠ 0 then key.getD j 0 &&& (0xff <<< (8 - level % 8)) % 256
      else 0 := by
  rw [List.getD_eq_getElem _ _ (by simpa using hj)]
  simp only [masked, List.getElem_map, List.getElem_range]

theorem getD_lt (hk : IsKey k) (j : ℕ) : k.getD j 0 < 256 := by
  rcases Nat.lt_or_ge j k.length with hj | hj
  · rw [List.getD_eq_getElem _ _ hj]
    exact hk.byte _ (List.getElem_mem hj)
  · rw [List.getD_eq_default _ _ hj]
    decide

theorem isKey_masked (hk : IsKey k) (level : ℕ) : IsKey (masked k level) := by
  refine ⟨length_masked k level, fun b hb => ?_⟩
  obtain ⟨j, hj, rfl⟩ := List.mem_iff_getElem.1 hb
  rw [length_masked] at hj
  rw [← List.getD_eq_getElem _ 0, getD_masked k level hj]
  split_ifs
  · exact getD_lt hk j
  · exact masked_byte_lt _ (getD_lt hk j) _ (Nat.mod_lt _ (by decide))
  · decide

theorem getBit_masked (hk : IsKey k) (level : ℕ) {n : ℕ} (hn : n < 256) :
    getBit (masked k level) n = if n < level then getBit k n else 0 := by
  have hbyte := getD_lt hk (n / 8)
  have hzero : ∀ i, 0 >>> i &&& 1 = 0 := fun i => by simp
  rw [getBit, getD_masked k level (by omega), getBit]
  by_cases h₁ : n / 8 < level / 8
  · rw [if_pos h₁, if_pos (by omega)]
  · rw [if_neg h₁]
    by_cases h₂ : n / 8 = level / 8 ∧ level % 8 ≠ 0
    · rw [if_pos h₂, masked_byte _ hbyte _ (Nat.mod_lt _ (by decide)) _ (Nat.mod_lt _ (by decide))]
      simp only [show n % 8 < level % 8 ↔ n < level by omega]
    · rw [if_neg h₂, hzero, if_neg (by omega)]

/-- **Masking a key** cuts its path. -/
theorem masked_eq (hk : IsKey k) {level : ℕ} (hl : level ≤ 256) :
    masked k level = pathOf ((keyBits k).take level) := by
  have hlen : ((keyBits k).take level).length ≤ 256 := by
    rw [List.length_take]
    omega
  refine eq_of_getBit (isKey_masked hk level) (isKey_pathOf hlen) fun n hn => ?_
  rw [getBit_masked hk level hn, getBit_pathOf hlen hn]
  split_ifs with h
  · rw [List.getD_eq_getElem _ _ (by simp; omega), List.getElem_take, getElem_keyBits, getBit_eq_ite]
    cases getBit k n == 1 <;> rfl
  · rw [List.getD_eq_default _ _ (by simp; omega)]
    rfl

theorem masked_pathOf (hp : p.length ≤ 256) {level : ℕ} (hl : level ≤ p.length) :
    masked (pathOf p) level = pathOf (p.take level) := by
  rw [masked_eq (isKey_pathOf hp) (by omega), take_keyBits_pathOf hp hl]

/-- **Setting a bit** goes to a child. -/
theorem withBit_pathOf (hp : p.length < 256) (b : Bool) :
    withBit (pathOf p) p.length b.toNat = pathOf (p ++ [b]) := by
  have hlen : (p ++ [b]).length ≤ 256 := by
    rw [List.length_append, List.length_singleton]
    omega
  have hkey := isKey_pathOf hp.le
  have hset : IsKey (withBit (pathOf p) p.length b.toNat) ∧
      ∀ n < 256, getBit (withBit (pathOf p) p.length b.toNat) n =
        if n = p.length then b.toNat else getBit (pathOf p) n := by
    cases b with
    | false =>
      refine ⟨hkey, fun n hn => ?_⟩
      split_ifs with h
      · subst h
        rw [withBit, if_neg (by decide), getBit_pathOf hp.le hn, List.getD_eq_default _ _ le_rfl]
      · rfl
    | true =>
      have hw : withBit (pathOf p) p.length true.toNat =
          (pathOf p).modify (p.length / 8) fun b => b ||| 1 <<< (7 - p.length % 8) := if_pos rfl
      have hget : ∀ j < 32, (withBit (pathOf p) p.length true.toNat).getD j 0 =
          if p.length / 8 = j then (pathOf p).getD j 0 ||| 1 <<< (7 - p.length % 8)
          else (pathOf p).getD j 0 := by
        intro j hj
        have hj' : j < (pathOf p).length := by rw [hkey.length]; exact hj
        rw [hw, List.getD_eq_getElem _ _ (by rw [List.length_modify]; exact hj'), List.getElem_modify,
          List.getD_eq_getElem _ _ hj']
      refine ⟨⟨by rw [hw, List.length_modify, hkey.length], fun x hx => ?_⟩, fun n hn => ?_⟩
      · obtain ⟨j, hj, rfl⟩ := List.mem_iff_getElem.1 hx
        have hj' : j < 32 := by rwa [hw, List.length_modify, hkey.length] at hj
        rw [← List.getD_eq_getElem _ 0, hget j hj']
        split_ifs
        · exact set_byte_lt _ (getD_lt hkey j) _ (Nat.mod_lt _ (by decide))
        · exact getD_lt hkey j
      · rw [getBit, hget _ (by omega)]
        by_cases h : p.length / 8 = n / 8
        · rw [if_pos h, set_byte _ (getD_lt hkey _) _ (Nat.mod_lt _ (by decide)) _
            (Nat.mod_lt _ (by decide))]
          simp only [show n % 8 = p.length % 8 ↔ n = p.length by omega]
          rfl
        · rw [if_neg h, if_neg (by omega)]
          rfl
  refine eq_of_getBit hset.1 (isKey_pathOf hlen) fun n hn => ?_
  rw [hset.2 n hn, getBit_pathOf hlen hn, getBit_pathOf hp.le hn]
  rcases Nat.lt_trichotomy n p.length with hlt | rfl | hgt
  · rw [if_neg (by omega), List.getD_append _ _ _ _ hlt]
  · rw [if_pos rfl, List.getD_append_right _ _ _ _ le_rfl, Nat.sub_self]
    rfl
  · rw [if_neg (by omega), List.getD_eq_default _ _ hgt.le, List.getD_eq_default _ _ (by
      rw [List.length_append, List.length_singleton]
      omega)]

/-! ### Known nodes -/

variable {P : Primitives} {t : PartialPrefixTree} {v : Octets}

/-- The value known at a path. -/
def nodeAt (t : PartialPrefixTree) (p : List Bool) : Option Octets :=
  if p.length ≤ 256 then t.get p.length (pathOf p) else none

/-- Whether a node below a path is known. -/
def belowAt (t : PartialPrefixTree) (p : List Bool) : Bool := t.hasDescendant p.length (pathOf p)

/-- All nodes are named by paths. -/
def Named (t : PartialPrefixTree) : Prop :=
  ∀ n ∈ t.nodes, ∃ q : List Bool, q.length ≤ 256 ∧ n.1 = (q.length, pathOf q)

theorem named_new : new.Named := fun _ h => by cases h

@[simp] theorem nodeAt_new : new.nodeAt = fun _ => none := by
  funext p
  rw [nodeAt]
  split_ifs <;> rfl

theorem lookup_filter_ne {α β : Type} [BEq α] [LawfulBEq α] (k k' : α) (l : List (α × β)) :
    (l.filter fun n => n.1 != k').lookup k = if k == k' then none else l.lookup k := by
  induction l with
  | nil => simp
  | cons n l ih =>
    rw [List.filter_cons]
    by_cases hn : n.1 = k'
    · rw [if_neg (by simpa using hn), ih, List.lookup_cons, hn]
      split_ifs with h
      · rfl
      · rw [Bool.eq_false_iff.2 h]
    · rw [if_pos (by simpa using hn), List.lookup_cons, List.lookup_cons, ih]
      by_cases hk : k = n.1
      · subst hk
        have hk' : ¬ (n.1 == k') = true := by simpa using hn
        rw [if_neg hk', if_neg hk']
      · rw [beq_eq_false_iff_ne.2 hk]

theorem nodeAt_put (hq : q.length ≤ 256) (value : Octets) :
    (t.put q.length (pathOf q) value).nodeAt = Function.update t.nodeAt q (some value) := by
  funext p
  rcases eq_or_ne p q with rfl | hne
  · rw [Function.update_self, nodeAt, if_pos hq, get, put, List.lookup_cons, beq_self_eq_true]
  · rw [Function.update_of_ne hne, nodeAt, nodeAt]
    split_ifs with hp
    · have hname : (p.length, pathOf p) ≠ (q.length, pathOf q) := fun h =>
        hne (pathOf_inj hp (Prod.mk.inj h).1 (Prod.mk.inj h).2)
      rw [get, put, List.lookup_cons, beq_eq_false_iff_ne.2 hname]
      dsimp only
      rw [lookup_filter_ne, if_neg (by simpa using hname)]
      rfl
    · rfl

theorem Named.put (hn : t.Named) (hq : q.length ≤ 256) (value : Octets) :
    (t.put q.length (pathOf q) value).Named := by
  intro n h
  rcases List.mem_cons.1 h with rfl | h
  · exact ⟨q, hq, rfl⟩
  · exact hn n (List.mem_of_mem_filter h)

theorem belowAt_iff (hn : t.Named) (p : List Bool) :
    t.belowAt p = true ↔ ∃ q, p <+: q ∧ p.length < q.length ∧ t.nodeAt q ≠ none := by
  rw [belowAt, hasDescendant, List.any_eq_true]
  constructor
  · rintro ⟨⟨⟨level, path⟩, value⟩, hmem, h⟩
    rw [Bool.and_eq_true, decide_eq_true_iff, beq_iff_eq] at h
    obtain ⟨q, hq, hname⟩ := hn _ hmem
    obtain ⟨rfl, rfl⟩ := Prod.mk.inj hname
    obtain ⟨hlt, hmask⟩ := h
    dsimp only at hlt hmask
    rw [masked_pathOf hq hlt.le] at hmask
    have hlen : (q.take p.length).length = p.length := by
      rw [List.length_take]
      omega
    have heq := pathOf_inj (by omega) hlen hmask
    refine ⟨q, heq ▸ List.take_prefix _ _, hlt, ?_⟩
    rw [nodeAt, if_pos hq, get, Ne, List.lookup_eq_none_iff]
    intro hall
    simpa using hall _ hmem
  · rintro ⟨q, hpq, hlt, hnode⟩
    rw [nodeAt] at hnode
    split_ifs at hnode with hq
    · obtain ⟨value, hvalue⟩ := Option.ne_none_iff_exists'.1 hnode
      obtain ⟨before, after, hsplit, -⟩ := List.lookup_eq_some_iff.1 hvalue
      refine ⟨_, hsplit ▸ List.mem_append_right _ List.mem_cons_self, ?_⟩
      rw [Bool.and_eq_true, decide_eq_true_iff, beq_iff_eq]
      refine ⟨hlt, ?_⟩
      rw [masked_pathOf hq hlt.le, ← List.prefix_iff_eq_take.1 hpq]
    · exact absurd rfl hnode

/-- **`resolve`** on paths of bits. -/
theorem resolve_eq (hp : p.length ≤ 256) :
    t.resolve P p.length (pathOf p) =
      SparseMerkle.resolve (parentHash P) zeroValue t.nodeAt t.belowAt (256 - p.length) p := by
  have key : ∀ {fuel : ℕ} {p : List Bool}, p.length + fuel = 256 →
      t.resolveLoop P fuel p.length (pathOf p) =
        SparseMerkle.resolve (parentHash P) zeroValue t.nodeAt t.belowAt fuel p := by
    intro fuel
    induction fuel with
    | zero =>
      intro p hlen
      rw [resolveLoop, SparseMerkle.resolve, nodeAt, if_pos (by omega)]
    | succ fuel ih =>
      intro p hlen
      have hchild : ∀ b : Bool, t.resolveLoop P fuel (p.length + 1) (withBit (pathOf p) p.length b.toNat) =
          SparseMerkle.resolve (parentHash P) zeroValue t.nodeAt t.belowAt fuel (p ++ [b]) := by
        intro b
        have h := ih (p := p ++ [b]) (by rw [List.length_append, List.length_singleton]; omega)
        rw [List.length_append, List.length_singleton] at h
        rw [withBit_pathOf (by omega), h]
      have hbelow : t.hasDescendant p.length (pathOf p) = t.belowAt p := rfl
      have hnode : t.nodeAt p = t.get p.length (pathOf p) := if_pos (by omega)
      rw [resolveLoop, SparseMerkle.resolve, hnode, hbelow]
      cases t.get p.length (pathOf p) with
      | some v => rfl
      | none =>
        have h₀ := hchild false
        have h₁ := hchild true
        rw [Bool.toNat_false] at h₀
        rw [Bool.toNat_true] at h₁
        dsimp only
        rw [h₀, h₁]
        cases t.belowAt p <;> rfl
  exact key (by omega)

theorem root_eq :
    t.root P = SparseMerkle.resolve (parentHash P) zeroValue t.nodeAt t.belowAt 256 [] := by
  have hnil : pathOf [] = Octets.zeros 32 := by decide +kernel
  have h := resolve_eq (P := P) (t := t) (p := []) (by simp)
  rw [hnil] at h
  exact h

end PartialPrefixTree

end

end KeyTransparency
