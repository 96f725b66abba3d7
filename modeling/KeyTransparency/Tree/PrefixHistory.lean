/-
# What the prefix tree holds

The prefix tree's purpose: a map from keys to commitments that remembers every
insertion.  A history is the list of insertions, the newest first; `commitmentsOf`
is the map it stands for and `latestBelow` the last insertion below a path.

`frozen`: below the path of the last insertion there, nothing has changed since.
That is why an entry that is never rewritten still knows the hashes beside it.
-/

import KeyTransparency.Crypto.PrefixPath

namespace KeyTransparency

open SparseMerkle

structure Insertion where
  position : ℕ
  key : Octets
  commitment : Octets
deriving DecidableEq, Repr

/-- The commitments of the keys, the latest of each. -/
def commitmentsOf (history : List Insertion) (key : Octets) : Option Octets :=
  (history.find? fun x => x.key = key).map Insertion.commitment

/-- The last insertion below a path. -/
def latestBelow (history : List Insertion) (path : List Bool) : Option Insertion :=
  history.find? fun x => path <+: keyBits x.key

/-- The hash of the subtree below a path. -/
def subtreeHash (P : Primitives) (commitments : Octets → Option Octets) (path : List Bool) : Octets :=
  hash (parentHash P) zeroValue (prefixLeaves P commitments) (256 - path.length) path

/-- The path beside a path at a level. -/
def beside (bits : List Bool) (level : ℕ) : List Bool :=
  bits.take level ++ [!bits.getD level false]

/-- Keys are strings of 32 bytes. -/
def KeysValid (history : List Insertion) : Prop := ∀ x ∈ history, IsKey x.key

/-! ### The last insertion below a path -/

section

variable {P : Primitives} {h h' : List Insertion} {x y : Insertion} {q r : List Bool} {t : Octets}

theorem latestBelow_eq_none : latestBelow h q = none ↔ ∀ x ∈ h, ¬ q <+: keyBits x.key := by
  simp [latestBelow, List.find?_eq_none]

theorem mem_of_latestBelow (hq : latestBelow h q = some x) : x ∈ h := List.mem_of_find?_eq_some hq

theorem prefix_of_latestBelow (hq : latestBelow h q = some x) : q <+: keyBits x.key := by
  simpa using List.find?_some hq

theorem latestBelow_cons_of (hq : q <+: keyBits x.key) : latestBelow (x :: h) q = some x := by
  simp [latestBelow, hq]

theorem latestBelow_cons_of_not (hq : ¬ q <+: keyBits x.key) :
    latestBelow (x :: h) q = latestBelow h q := by
  simp [latestBelow, hq]

theorem latestBelow_longer (hqr : q <+: r) (hq : latestBelow h q = none) :
    latestBelow h r = none :=
  latestBelow_eq_none.2 fun x hx hr => latestBelow_eq_none.1 hq x hx (hqr.trans hr)

/-- **Frozen below.**  Below the path of its last insertion a history is the one up
to that insertion. -/
theorem frozen (hq : latestBelow h q = some y) :
    ∃ h', y :: h' <:+ h ∧ q <+: keyBits y.key ∧
      ∀ r, q <+: r → latestBelow h r = latestBelow (y :: h') r := by
  obtain ⟨hy, newer, h', rfl, hnew⟩ := List.find?_eq_some_iff_append.1 hq
  refine ⟨h', List.suffix_append _ _, by simpa using hy, fun r hr => ?_⟩
  rw [latestBelow, List.find?_append, List.find?_eq_none.2 fun z hz => ?_]
  · rfl
  · have hz' : ¬ q <+: keyBits z.key := by simpa using hnew z hz
    simpa using fun hzr => hz' (hr.trans hzr)

/-! ### Leaves and subtrees -/

theorem key_eq_of_keyBits {k : Octets} (hk : IsKey k) (ht : IsKey t) (hp : keyBits t <+: keyBits k) :
    k = t :=
  keyBits_inj hk ht (hp.eq_of_length (by simp)).symm

/-- A key is held with the commitment of its last insertion. -/
theorem commitmentsOf_eq (hk : KeysValid h) (ht : IsKey t) :
    commitmentsOf h t = (latestBelow h (keyBits t)).map Insertion.commitment := by
  have hleaf : ∀ x ∈ h, (x.key = t ↔ keyBits t <+: keyBits x.key) := by
    intro x hx
    constructor
    · rintro rfl
      exact List.prefix_rfl
    · exact key_eq_of_keyBits (hk x hx) ht
  rw [commitmentsOf, latestBelow]
  congr 1
  clear hk
  induction h with
  | nil => rfl
  | cons x h ih =>
    have hx := hleaf x List.mem_cons_self
    have ih := ih fun z hz => hleaf z (List.mem_cons_of_mem _ hz)
    simp only [List.find?_cons, ih, hx]

theorem prefixLeaves_commitmentsOf (hk : KeysValid h) (hq : q.length = 256) :
    prefixLeaves P (commitmentsOf h) q =
      (latestBelow h q).map fun x => leafHash P x.key x.commitment := by
  rw [prefixLeaves, commitmentsOf_eq hk (isKey_keyOf hq), keyBits_keyOf hq, Option.map_map]
  cases hx : latestBelow h q with
  | none => rfl
  | some x =>
    have hkey : x.key = keyOf q :=
      key_eq_of_keyBits (hk x (mem_of_latestBelow hx)) (isKey_keyOf hq)
        (by rw [keyBits_keyOf hq]; exact prefix_of_latestBelow hx)
    rw [Option.map_some, Option.map_some, Function.comp_apply, hkey]

/-- Histories that agree below a path have the same subtree there. -/
theorem subtreeHash_congr (hk : KeysValid h) (hk' : KeysValid h') (hq : q.length ≤ 256)
    (heq : ∀ r, q <+: r → latestBelow h r = latestBelow h' r) :
    subtreeHash P (commitmentsOf h) q = subtreeHash P (commitmentsOf h') q := by
  refine hash_congr fun r hr => ?_
  have hlen : (q ++ r).length = 256 := by simp only [List.length_append]; omega
  rw [prefixLeaves_commitmentsOf hk hlen, prefixLeaves_commitmentsOf hk' hlen,
    heq _ (List.prefix_append q r)]

/-- A path without insertions below it has an empty subtree. -/
theorem subtreeHash_of_none (hk : KeysValid h) (hq : q.length ≤ 256) (hn : latestBelow h q = none) :
    subtreeHash P (commitmentsOf h) q = zeroValue := by
  refine hash_of_empty fun r hr => ?_
  have hlen : (q ++ r).length = 256 := by simp only [List.length_append]; omega
  rw [prefixLeaves_commitmentsOf hk hlen, latestBelow_longer (List.prefix_append q r) hn,
    Option.map_none]

theorem subtreeHash_nil (commitments : Octets → Option Octets) :
    subtreeHash P commitments [] = prefixRoot P commitments := rfl

/-- The leaf of a key. -/
theorem subtreeHash_keyBits (hk : KeysValid h) (hx : latestBelow h (keyBits t) = some x) :
    subtreeHash P (commitmentsOf h) (keyBits t) = leafHash P x.key x.commitment := by
  rw [subtreeHash, length_keyBits, SparseMerkle.hash, value, prefixLeaves_commitmentsOf hk (by simp), hx]
  rfl

/-! ### Paths beside a path -/

theorem length_beside {level : ℕ} (hl : level < 256) : (beside (keyBits t) level).length = level + 1 := by
  simp only [beside, List.length_append, List.length_take, length_keyBits, List.length_singleton]
  omega

theorem take_succ_keyBits {level : ℕ} (hl : level < 256) :
    (keyBits t).take (level + 1) = (keyBits t).take level ++ [(keyBits t).getD level false] := by
  rw [List.take_succ_eq_append_getElem (by simpa using hl),
    List.getD_eq_getElem _ _ (by simpa using hl)]

/-- Two paths that part at a level: each is beside the other. -/
theorem beside_eq_take {k : Octets} {level : ℕ} (hl : level < 256)
    (heq : (keyBits k).take level = (keyBits t).take level)
    (hne : (keyBits k).getD level false ≠ (keyBits t).getD level false) :
    beside (keyBits k) level = (keyBits t).take (level + 1) := by
  rw [take_succ_keyBits hl, beside, heq]
  congr 2
  revert hne
  cases (keyBits k).getD level false <;> cases (keyBits t).getD level false <;> simp

theorem beside_congr {k : Octets} {level : ℕ} (hl : level < 256)
    (heq : (keyBits k).take (level + 1) = (keyBits t).take (level + 1)) :
    beside (keyBits k) level = beside (keyBits t) level := by
  rw [take_succ_keyBits hl, take_succ_keyBits hl] at heq
  obtain ⟨h₁, h₂⟩ := List.append_inj' heq rfl
  rw [beside, beside, h₁, List.singleton_inj.1 h₂]

theorem not_beside_below {level : ℕ} (hl : level < 256) : ¬ beside (keyBits t) level <+: keyBits t := by
  intro hp
  have := List.prefix_iff_eq_take.1 hp
  rw [length_beside hl, take_succ_keyBits hl, beside] at this
  simpa using List.append_cancel_left this

theorem take_prefix_beside {level level' : ℕ} (hl : level ≤ level') :
    (keyBits t).take level <+: beside (keyBits t) level' := by
  rw [beside, ← Nat.min_eq_left hl, ← List.take_take]
  exact (List.take_prefix _ _).trans (List.prefix_append _ _)

end

end KeyTransparency
