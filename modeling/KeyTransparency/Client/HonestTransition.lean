/-
# Transitions of an honest server

What a batch proof shows of its keys, all absent from the prefix tree, is true when it
comes from searches in it (`ShowsAbsence`).  The nodes that the auditor places are then
nodes of the tree and cover it, so that it derives the root before the batch, each
covering element, and the root after it (`verifyAndTransition_honest`).
-/

import KeyTransparency.Client.PartialTree
import KeyTransparency.Tree.PrefixWalk

namespace KeyTransparency

open SparseMerkle PartialPrefixTree PrefixTransitioner

/-- A leaf of the tree of a map, below a path. -/
abbrev KeyBelow (P : Primitives) (commitments : Octets → Option Octets) (p leaf : List Bool) : Prop :=
  LeafBelow (prefixLeaves P commitments) 256 p leaf

/-- A result and its elements show that a key is absent from a map: they lead to where its
path becomes empty, and name another key of the map if any. -/
structure ShowsAbsence (P : Primitives) (commitments : Octets → Option Octets) (key : Octets)
    (result : PrefixSearchResult) (elements : List Octets) : Prop where
  length : elements.length = result.depth
  depth_le : result.depth ≤ 256
  element : ∀ k (h : k < elements.length),
    elements[k] = subtreeHash P commitments (beside (keyBits key) k)
  empty : ∀ leaf, ¬ KeyBelow P commitments ((keyBits key).take result.depth) leaf
  inner : ∀ k < result.depth, ∃ leaf, KeyBelow P commitments ((keyBits key).take k) leaf
  terminal : result.resultType = 3 ∨ result.resultType = 2 ∧ ∃ leaf, result.leaf = some leaf ∧
    IsKey leaf.vrfOutput ∧ commitments leaf.vrfOutput = some leaf.commitment

section

variable {P : Primitives} {commitments commitments' : Octets → Option Octets} {keys : List Octets}
  {key : Octets} {result : PrefixSearchResult} {elements : List Octets} {tree : PartialPrefixTree}
  {p : List Bool}

theorem keyBelow_keyBits {c : Octets} (hk : IsKey key) (hc : commitments key = some c)
    (hp : p <+: keyBits key) : KeyBelow P commitments p (keyBits key) :=
  ⟨length_keyBits key, by rw [prefixLeaves_keyBits hk, hc]; simp, hp⟩

/-- An absent key is not in the map. -/
theorem ShowsAbsence.absent (h : ShowsAbsence P commitments key result elements) (hk : IsKey key) :
    commitments key = none := by
  cases hc : commitments key with
  | none => rfl
  | some c => exact absurd (keyBelow_keyBits hk hc (List.take_prefix _ _)) (h.empty _)

/-! ### The nodes placed -/

/-- A known node is one of the tree, not above a key of the batch, and its parent is not
empty. -/
structure TrueNode (P : Primitives) (commitments : Octets → Option Octets) (keys : List Octets)
    (p : List Bool) (v : Octets) : Prop where
  value : v = subtreeHash P commitments p
  not_above : ∀ key ∈ keys, ¬ p <+: keyBits key
  parent : ∃ leaf, KeyBelow P commitments p.dropLast leaf

/-- A covering element is a node of the tree, above a key of the batch. -/
def TrueCovering (P : Primitives) (commitments : Octets → Option Octets) (keys : List Octets)
    (c : Covering) : Prop :=
  ∃ p : List Bool, p.length ≤ 256 ∧ c.level = p.length ∧ c.path = pathOf p ∧
    c.element = subtreeHash P commitments p ∧ ∃ key ∈ keys, p <+: keyBits key

/-- What the loop over a batch has placed. -/
structure Placing (P : Primitives) (commitments : Octets → Option Octets) (keys : List Octets)
    (st : PartialPrefixTree × List Covering) : Prop where
  named : st.1.Named
  node : ∀ p v, st.1.nodeAt p = some v → TrueNode P commitments keys p v
  covering : ∀ c ∈ st.2, TrueCovering P commitments keys c

/-- What is placed of a key's path from a level to another. -/
def PlacedPath (keys : List Octets) (key : Octets) (a b : ℕ) (tree : PartialPrefixTree) : Prop :=
  ∀ k, a ≤ k → k < b → (∀ other ∈ keys, ¬ beside (keyBits key) k <+: keyBits other) →
    tree.nodeAt (beside (keyBits key) k) ≠ none

/-- A tree that knows at least as many nodes. -/
def Extends (tree tree' : PartialPrefixTree) : Prop :=
  ∀ p, tree.nodeAt p ≠ none → tree'.nodeAt p ≠ none

theorem PlacedPath.mono {tree' : PartialPrefixTree} {a b : ℕ} (h : PlacedPath keys key a b tree)
    (hext : Extends tree tree') : PlacedPath keys key a b tree' :=
  fun k h₁ h₂ h₃ => hext _ (h k h₁ h₂ h₃)

theorem Placing.new : Placing P commitments keys (.new, []) where
  named := named_new
  node p v h := by simp at h
  covering c h := by cases h

theorem extends_put {q : List Bool} (hq : q.length ≤ 256) (v : Octets) :
    Extends tree (tree.put q.length (pathOf q) v) := by
  intro p hp
  rw [nodeAt_put hq]
  rcases eq_or_ne p q with rfl | hne
  · rw [Function.update_self]
    simp
  · rwa [Function.update_of_ne hne]

/-- A true node is put into the tree. -/
theorem Placing.put {covering : List Covering} {q : List Bool} {v : Octets}
    (h : Placing P commitments keys (tree, covering)) (hq : q.length ≤ 256)
    (hv : TrueNode P commitments keys q v) :
    Placing P commitments keys (tree.put q.length (pathOf q) v, covering) where
  named := h.named.put hq v
  node p w hw := by
    dsimp only at hw
    rw [nodeAt_put hq] at hw
    rcases eq_or_ne p q with rfl | hne
    · rw [Function.update_self] at hw
      rwa [← Option.some.inj hw]
    · rw [Function.update_of_ne hne] at hw
      exact h.node p w hw
  covering := h.covering

/-- A true node does not disagree with one that is already there. -/
theorem Placing.insert {covering : List Covering} {q : List Bool} {v : Octets}
    (h : Placing P commitments keys (tree, covering)) (hq : q.length ≤ 256)
    (hv : TrueNode P commitments keys q v) :
    tree.insert q.length (pathOf q) v = .ok (tree.put q.length (pathOf q) v) := by
  unfold PartialPrefixTree.insert
  cases hget : tree.get q.length (pathOf q) with
  | none => rfl
  | some prev =>
    have hprev := h.node q prev (by rw [nodeAt, if_pos hq]; exact hget)
    dsimp only
    rw [if_neg (not_not.2 (hprev.value.trans hv.value.symm))]

/-! ### The elements of a path -/

theorem siblingPath_eq (hk : IsKey key) {k : ℕ} (hlt : k < 256) :
    siblingPath key k = pathOf (beside (keyBits key) k) := by
  have hlen : ((keyBits key).take k).length = k := by
    rw [List.length_take, length_keyBits]
    omega
  have hbit : getBit key k ^^^ 1 = (!(keyBits key).getD k false).toNat := by
    rw [getD_keyBits hlt, getBit_eq_ite]
    cases getBit key k == 1 <;> rfl
  have h := withBit_pathOf (p := (keyBits key).take k) (by omega) (!(keyBits key).getD k false)
  rw [hlen] at h
  rw [siblingPath, masked_eq hk hlt.le, hbit, h]
  rfl

theorem masked_eq_siblingPath {other : Octets} (hk : IsKey key) (ho : IsKey other) {k : ℕ}
    (hlt : k < 256) :
    masked other (k + 1) = siblingPath key k ↔ beside (keyBits key) k <+: keyBits other := by
  have hlen : ((keyBits other).take (k + 1)).length = k + 1 := by
    rw [List.length_take, length_keyBits]
    omega
  rw [siblingPath_eq hk hlt, masked_eq ho (by omega)]
  constructor
  · intro h
    have h := pathOf_inj (by omega) (by rw [hlen, length_beside hlt]) h
    rw [← h]
    exact List.take_prefix _ _
  · intro h
    have h := List.prefix_iff_eq_take.1 h
    rw [length_beside hlt] at h
    rw [h]

theorem coversBatchKey_eq (hk : IsKey key) {k : ℕ} (hlt : k < 256) :
    ∀ {others : List Octets}, (∀ other ∈ others, IsKey other) →
      (coversBatchKey key k others = .ok true ∧
          ∃ other ∈ others, beside (keyBits key) k <+: keyBits other) ∨
        (coversBatchKey key k others = .ok false ∧
          ∀ other ∈ others, ¬ beside (keyBits key) k <+: keyBits other)
  | [], _ => .inr ⟨rfl, fun _ h => by cases h⟩
  | other :: others, ho => by
    have ih := coversBatchKey_eq hk hlt fun o h => ho o (List.mem_cons_of_mem _ h)
    have hother := ho other List.mem_cons_self
    have hlen := hother.length
    unfold coversBatchKey
    by_cases heq : other = key
    · have hnot : ¬ beside (keyBits key) k <+: keyBits other := by
        rw [heq]
        exact not_beside_below hlt
      rw [if_pos heq]
      rcases ih with ⟨h, o, hmem, hpre⟩ | ⟨h, hall⟩
      · exact .inl ⟨h, o, List.mem_cons_of_mem _ hmem, hpre⟩
      · exact .inr ⟨h, List.forall_mem_cons.2 ⟨hnot, hall⟩⟩
    · rw [if_neg heq, if_neg (by rw [hlen, indexLength]; omega)]
      simp only [masked_eq_siblingPath hk hother hlt]
      by_cases hpre : beside (keyBits key) k <+: keyBits other
      · exact .inl ⟨if_pos hpre, other, List.mem_cons_self, hpre⟩
      · rw [if_neg hpre]
        rcases ih with ⟨h, o, hmem, hpre'⟩ | ⟨h, hall⟩
        · exact .inl ⟨h, o, List.mem_cons_of_mem _ hmem, hpre'⟩
        · exact .inr ⟨h, List.forall_mem_cons.2 ⟨hpre, hall⟩⟩

/-- **The elements beside a path** are placed. -/
theorem placeElements_honest (hkeys : ∀ key ∈ keys, IsKey key) (hk : IsKey key) :
    ∀ {elements : List Octets} {k : ℕ} {st : PartialPrefixTree × List Covering},
      k + elements.length ≤ 256 →
      (∀ i (h : i < elements.length),
        elements[i] = subtreeHash P commitments (beside (keyBits key) (k + i)) ∧
          ∃ leaf, KeyBelow P commitments ((keyBits key).take (k + i)) leaf) →
      Placing P commitments keys st →
      ∃ st', placeElements keys key k elements st = .ok st' ∧ Placing P commitments keys st' ∧
        Extends st.1 st'.1 ∧ PlacedPath keys key k (k + elements.length) st'.1
  | [], k, st, _, _, hst => ⟨st, rfl, hst, fun _ h => h, fun j h₁ h₂ => by simp at h₂; omega⟩
  | element :: elements, k, (tree, covering), hle, hel, hst => by
    rw [List.length_cons] at hle
    have hlt : k < 256 := by omega
    have hlen : (beside (keyBits key) k).length = k + 1 := length_beside hlt
    obtain ⟨hvalue, hparent⟩ := hel 0 (by simp)
    rw [List.getElem_cons_zero] at hvalue
    have hrest : ∀ i (h : i < elements.length),
        elements[i] = subtreeHash P commitments (beside (keyBits key) (k + 1 + i)) ∧
          ∃ leaf, KeyBelow P commitments ((keyBits key).take (k + 1 + i)) leaf := by
      intro i h
      have := hel (i + 1) (by rw [List.length_cons]; omega)
      rwa [List.getElem_cons_succ, show k + (i + 1) = k + 1 + i by omega] at this
    -- the nodes from this level on are the one at it and those further down
    have hjoin : ∀ {st' : PartialPrefixTree × List Covering},
        PlacedPath keys key (k + 1) (k + 1 + elements.length) st'.1 →
        ((∀ other ∈ keys, ¬ beside (keyBits key) k <+: keyBits other) →
          st'.1.nodeAt (beside (keyBits key) k) ≠ none) →
        PlacedPath keys key k (k + (element :: elements).length) st'.1 := by
      intro st' hpath hhere j h₁ h₂ hnot
      rw [List.length_cons] at h₂
      rcases Nat.eq_or_lt_of_le h₁ with rfl | hgt
      · exact hhere hnot
      · exact hpath j hgt (by omega) hnot
    unfold placeElements
    rcases coversBatchKey_eq hk hlt hkeys with ⟨hcov, other, hother, hpre⟩ | ⟨hcov, hnot⟩
    · have hst' : Placing P commitments keys
          (tree, covering ++ [⟨k + 1, siblingPath key k, element⟩]) := by
        refine ⟨hst.named, hst.node, fun c hc => ?_⟩
        rcases List.mem_append.1 hc with hc | hc
        · exact hst.covering c hc
        · rw [List.mem_singleton.1 hc]
          exact ⟨beside (keyBits key) k, by omega, hlen.symm, siblingPath_eq hk hlt, hvalue, other,
            hother, hpre⟩
      obtain ⟨st', hrun, hpl, hext, hpath⟩ := placeElements_honest hkeys hk (by omega) hrest hst'
      rw [hcov, Result.ok_bind, if_pos rfl]
      exact ⟨st', hrun, hpl, hext, hjoin hpath fun hnot => absurd hpre (hnot other hother)⟩
    · have htrue : TrueNode P commitments keys (beside (keyBits key) k) element := by
        refine ⟨hvalue, hnot, ?_⟩
        rw [beside, List.dropLast_concat]
        exact hparent
      have hins := hst.insert (by omega) htrue
      obtain ⟨st', hrun, hpl, hext, hpath⟩ :=
        placeElements_honest hkeys hk (by omega) hrest (hst.put (by omega) htrue)
      rw [hlen] at hins hrun hext
      rw [hcov, Result.ok_bind, if_neg (by decide), siblingPath_eq hk hlt, hins, Result.ok_bind]
      have hput : Extends tree (tree.put (beside (keyBits key) k).length
          (pathOf (beside (keyBits key) k)) element) := extends_put (by omega) element
      rw [hlen] at hput
      refine ⟨st', hrun, hpl, fun p hp => hext p (hput p hp), hjoin hpath fun _ => hext _ ?_⟩
      have hnode := nodeAt_put (t := tree) (q := beside (keyBits key) k) (by omega) element
      rw [hlen] at hnode
      dsimp only
      rw [hnode, Function.update_self]
      simp

/-! ### The keys of a batch -/

/-- The other key that a result names is placed. -/
theorem placeTerminal_honest (removedKeys : List Octets) {item : BatchItem} {covering : List Covering}
    (hkeys : ∀ key ∈ keys, IsKey key) (habsent : ∀ key ∈ keys, commitments key = none)
    (hmem : item.leaf.vrfOutput ∈ keys)
    (hr : ShowsAbsence P commitments item.leaf.vrfOutput result elements)
    (hst : Placing P commitments keys (tree, covering)) :
    ∃ tree', placeTerminal P removedKeys item result tree = .ok tree' ∧
      Placing P commitments keys (tree', covering) ∧ Extends tree tree' := by
  unfold placeTerminal
  dsimp only
  rcases hr.terminal with h | ⟨h, leaf, hleaf, hk, hc⟩
  · rw [h]
    exact ⟨tree, rfl, hst, fun _ h => h⟩
  · have hforeign : ∀ key ∈ keys, leaf.vrfOutput ≠ key := by
      rintro key hkey rfl
      rw [habsent _ hkey] at hc
      cases hc
    have htrue : TrueNode P commitments keys (keyBits leaf.vrfOutput)
        (leafHash P leaf.vrfOutput leaf.commitment) := by
      refine ⟨?_, fun key hkey hpre => hforeign key hkey ?_, keyBits leaf.vrfOutput,
        keyBelow_keyBits hk hc (List.dropLast_prefix _)⟩
      · rw [subtreeHash, length_keyBits, SparseMerkle.hash, SparseMerkle.value, prefixLeaves_keyBits hk,
          hc]
        rfl
      · exact (key_eq_of_keyBits (hkeys key hkey) hk hpre).symm
    have hput := hst.put (length_keyBits _).le htrue
    have hext : Extends tree (tree.put (keyBits leaf.vrfOutput).length
        (pathOf (keyBits leaf.vrfOutput)) (leafHash P leaf.vrfOutput leaf.commitment)) :=
      extends_put (length_keyBits leaf.vrfOutput).le _
    have hname : tree.setLeaf leaf.vrfOutput (leafHash P leaf.vrfOutput leaf.commitment) =
        tree.put (keyBits leaf.vrfOutput).length (pathOf (keyBits leaf.vrfOutput))
          (leafHash P leaf.vrfOutput leaf.commitment) := by
      rw [setLeaf, masked_eq hk le_rfl, length_keyBits,
        List.take_of_length_le (length_keyBits _).le]
    rw [h]
    refine ⟨_, ?_, hput, hext⟩
    change (okOr result.leaf _ >>= _) = _
    rw [hleaf, okOr_some, Result.ok_bind, ensure_of (hforeign _ hmem), Result.ok_bind,
      if_neg (by rw [hk.length, indexLength]; omega), hname]
    rfl

/-- **The loop over a batch** places the paths of its keys. -/
theorem placeAll_honest (removedKeys : List Octets) (hkeys : ∀ key ∈ keys, IsKey key)
    (habsent : ∀ key ∈ keys, commitments key = none) :
    ∀ {items : List (BatchItem × PrefixSearchResult × List Octets)}
      {st : PartialPrefixTree × List Covering},
      (∀ i ∈ items, i.1.leaf.vrfOutput ∈ keys ∧
        ShowsAbsence P commitments i.1.leaf.vrfOutput i.2.1 i.2.2) →
      Placing P commitments keys st →
      ∃ st', placeAll P keys removedKeys (items.map fun i => (i.1, i.2.1))
          (items.flatMap fun i => i.2.2) st = .ok (st', []) ∧
        Placing P commitments keys st' ∧ Extends st.1 st'.1 ∧
        ∀ i ∈ items, PlacedPath keys i.1.leaf.vrfOutput 0 i.2.1.depth st'.1
  | [], st, _, hst => ⟨st, rfl, hst, fun _ h => h, fun _ h => by cases h⟩
  | (item, result, elements) :: items, (tree, covering), hitems, hst => by
    obtain ⟨hmem, hr⟩ := hitems _ List.mem_cons_self
    dsimp only at hmem hr
    have hk := hkeys _ hmem
    have hdepth : (elements ++ items.flatMap fun i => i.2.2).take result.depth = elements := by
      rw [← hr.length, List.take_left]
    have hdrop : (elements ++ items.flatMap fun i => i.2.2).drop result.depth =
        items.flatMap fun i => i.2.2 := by
      rw [← hr.length, List.drop_left]
    obtain ⟨tree₁, hterm, hst₁, hext₁⟩ := placeTerminal_honest removedKeys hkeys habsent hmem hr hst
    have hlen := hr.length
    have hle := hr.depth_le
    have hfrom : ∀ i (h : i < elements.length),
        elements[i] = subtreeHash P commitments (beside (keyBits item.leaf.vrfOutput) (0 + i)) ∧
          ∃ leaf, KeyBelow P commitments ((keyBits item.leaf.vrfOutput).take (0 + i)) leaf := by
      intro i h
      rw [Nat.zero_add]
      exact ⟨hr.element i h, hr.inner i (by omega)⟩
    obtain ⟨st₂, hel, hst₂, hext₂, hpath₂⟩ := placeElements_honest hkeys hk (by omega) hfrom hst₁
    obtain ⟨st₃, hall, hst₃, hext₃, hpath₃⟩ := placeAll_honest removedKeys hkeys habsent
      (fun i h => hitems i (List.mem_cons_of_mem _ h)) hst₂
    have hitem : placeItem P keys removedKeys item result (elements ++ items.flatMap fun i => i.2.2)
        (tree, covering) = .ok st₂ := by
      unfold placeItem
      dsimp only
      rw [ensure_of (show item.leaf.vrfOutput.length = 32 from hk.length), Result.ok_bind, ensure_of hr.depth_le, Result.ok_bind,
        ensure_of (by rw [List.length_append]; omega), Result.ok_bind, hterm, Result.ok_bind, hdepth, hel]
    refine ⟨st₃, ?_, hst₃, fun p hp => hext₃ p (hext₂ p (hext₁ p hp)), fun i hi => ?_⟩
    · rw [List.map_cons, List.flatMap_cons]
      unfold placeAll
      dsimp only
      rw [hitem, Result.ok_bind, hdrop, hall]
    · rcases List.mem_cons.1 hi with rfl | hi
      · refine PlacedPath.mono ?_ hext₃
        rwa [Nat.zero_add, hlen] at hpath₂
      · exact hpath₃ i hi

/-! ### Whole transitions -/

/-- The known nodes are nodes of the tree of a map, below inner nodes of it. -/
structure TrueTree (P : Primitives) (commitments : Octets → Option Octets) (tree : PartialPrefixTree) :
    Prop where
  named : tree.Named
  value : ∀ {p v}, tree.nodeAt p = some v → v = subtreeHash P commitments p
  parent : ∀ {p v}, tree.nodeAt p = some v → ∃ leaf, KeyBelow P commitments p.dropLast leaf

theorem TrueTree.agrees (h : TrueTree P commitments tree) :
    Agrees (parentHash P) zeroValue (prefixLeaves P commitments) 256 tree.nodeAt tree.belowAt where
  below_iff := belowAt_iff h.named
  value := h.value
  parent := h.parent

theorem TrueTree.resolve (h : TrueTree P commitments tree) (hp : p.length ≤ 256)
    (hc : Covers (prefixLeaves P commitments) 256 tree.nodeAt p) :
    tree.resolve P p.length (pathOf p) = subtreeHash P commitments p := by
  rw [resolve_eq hp]
  exact resolve_eq_hash h.agrees (by omega) hc

theorem TrueTree.root (h : TrueTree P commitments tree)
    (hc : Covers (prefixLeaves P commitments) 256 tree.nodeAt []) :
    tree.root P = prefixRoot P commitments := by
  rw [root_eq]
  exact resolve_eq_hash h.agrees rfl hc

theorem Placing.trueTree {covering : List Covering} (h : Placing P commitments keys (tree, covering)) :
    TrueTree P commitments tree where
  named := h.named
  value hv := (h.node _ _ hv).value
  parent hv := (h.node _ _ hv).parent

/-- A leaf of the map is set. -/
theorem TrueTree.setLeaf {c : Octets} (h : TrueTree P commitments tree) (hk : IsKey key)
    (hc : commitments key = some c) :
    TrueTree P commitments (tree.setLeaf key (leafHash P key c)) ∧
      Extends tree (tree.setLeaf key (leafHash P key c)) ∧
      (tree.setLeaf key (leafHash P key c)).nodeAt (keyBits key) ≠ none := by
  have hlen := (length_keyBits key).le
  have hname : tree.setLeaf key (leafHash P key c) =
      tree.put (keyBits key).length (pathOf (keyBits key)) (leafHash P key c) := by
    rw [PartialPrefixTree.setLeaf, masked_eq hk le_rfl, length_keyBits, List.take_of_length_le hlen]
  have hnode := nodeAt_put (t := tree) hlen (leafHash P key c)
  have hcases : ∀ {p v}, Function.update tree.nodeAt (keyBits key) (some (leafHash P key c)) p = some v →
      (p = keyBits key ∧ v = leafHash P key c) ∨ tree.nodeAt p = some v := by
    intro p v hv
    rcases eq_or_ne p (keyBits key) with rfl | hne
    · rw [Function.update_self] at hv
      exact .inl ⟨rfl, (Option.some.inj hv).symm⟩
    · rw [Function.update_of_ne hne] at hv
      exact .inr hv
  rw [hname]
  refine ⟨⟨h.named.put hlen _, fun {p v} hv => ?_, fun {p v} hv => ?_⟩, extends_put hlen _, ?_⟩
  · rw [hnode] at hv
    rcases hcases hv with ⟨rfl, rfl⟩ | hv
    · rw [subtreeHash, length_keyBits, SparseMerkle.hash, SparseMerkle.value, prefixLeaves_keyBits hk, hc]
      rfl
    · exact h.value hv
  · rw [hnode] at hv
    rcases hcases hv with ⟨rfl, rfl⟩ | hv
    · exact ⟨keyBits key, keyBelow_keyBits hk hc (List.dropLast_prefix _)⟩
    · exact h.parent hv
  · rw [hnode, Function.update_self]
    simp

/-- The leaves of a batch are set. -/
theorem TrueTree.setLeaves :
    ∀ {added : List PrefixLeaf} {tree : PartialPrefixTree}, TrueTree P commitments tree →
      (∀ item ∈ added, IsKey item.vrfOutput ∧ commitments item.vrfOutput = some item.commitment) →
      TrueTree P commitments (transition P tree added []) ∧ Extends tree (transition P tree added []) ∧
        ∀ item ∈ added, (transition P tree added []).nodeAt (keyBits item.vrfOutput) ≠ none
  | [], tree, h, _ => ⟨h, fun _ h => h, fun _ h => by cases h⟩
  | item :: added, tree, h, hadd => by
    obtain ⟨hk, hc⟩ := hadd item List.mem_cons_self
    obtain ⟨h₁, hext₁, hset₁⟩ := h.setLeaf hk hc
    obtain ⟨h₂, hext₂, hset₂⟩ := h₁.setLeaves fun i hi => hadd i (List.mem_cons_of_mem _ hi)
    exact ⟨h₂, fun p hp => hext₂ p (hext₁ p hp), List.forall_mem_cons.2 ⟨hext₂ _ hset₁, hset₂⟩⟩

/-- A map with the leaves of a batch added. -/
structure AddsTo (commitments commitments' : Octets → Option Octets) (added : List PrefixLeaf) : Prop where
  leaf : ∀ item ∈ added, commitments' item.vrfOutput = some item.commitment
  rest : ∀ key, IsKey key → (∀ item ∈ added, item.vrfOutput ≠ key) → commitments' key = commitments key

theorem AddsTo.keyBelow {added : List PrefixLeaf} {leaf : List Bool}
    (h : AddsTo commitments commitments' added)
    (habsent : ∀ item ∈ added, commitments item.vrfOutput = none)
    (hleaf : KeyBelow P commitments p leaf) : KeyBelow P commitments' p leaf := by
  refine ⟨hleaf.length, ?_, hleaf.below⟩
  have hne := hleaf.ne_none
  rw [prefixLeaves] at hne ⊢
  rwa [h.rest _ (isKey_keyOf hleaf.length) fun item hitem heq => ?_]
  rw [← heq, habsent item hitem] at hne
  exact hne rfl

/-- Where no leaf is added below a path, its subtree stays. -/
theorem AddsTo.subtreeHash_eq {added : List PrefixLeaf} (h : AddsTo commitments commitments' added)
    (hp : p.length ≤ 256) (hnot : ∀ item ∈ added, ¬ p <+: keyBits item.vrfOutput) :
    subtreeHash P commitments p = subtreeHash P commitments' p := by
  refine hash_congr fun q hq => ?_
  have hlen : (p ++ q).length = 256 := by
    rw [List.length_append]
    omega
  rw [prefixLeaves, prefixLeaves, h.rest _ (isKey_keyOf hlen) fun item hitem heq => ?_]
  refine hnot item hitem ?_
  rw [heq, keyBits_keyOf hlen]
  exact List.prefix_append _ _

theorem nodeAt_length {v : Octets} (h : tree.nodeAt p = some v) : p.length ≤ 256 := by
  rw [nodeAt] at h
  split_ifs at h with hp
  exact hp

theorem Placing.addsTo {covering : List Covering} {added : List PrefixLeaf}
    (h : Placing P commitments (added.map PrefixLeaf.vrfOutput) (tree, covering))
    (hadds : AddsTo commitments commitments' added)
    (habsent : ∀ item ∈ added, commitments item.vrfOutput = none) : TrueTree P commitments' tree where
  named := h.named
  value hv := by
    have htrue := h.node _ _ hv
    rw [htrue.value]
    exact hadds.subtreeHash_eq (nodeAt_length hv) fun item hitem =>
      htrue.not_above _ (List.mem_map_of_mem hitem)
  parent hv := by
    obtain ⟨leaf, hleaf⟩ := (h.node _ _ hv).parent
    exact ⟨leaf, hadds.keyBelow habsent hleaf⟩

theorem checkCovering_of {covering : List Covering}
    (h : ∀ c ∈ covering, tree.resolve P c.level c.path = c.element) :
    checkCovering P tree covering = .ok () := by
  induction covering with
  | nil => rfl
  | cons c covering ih =>
    rw [checkCovering, ensure_of (h c List.mem_cons_self), Result.ok_bind]
    exact ih fun c hc => h c (List.mem_cons_of_mem _ hc)

/-- The batch proof of searches: each with the leaf searched for, its result and its
elements. -/
abbrev Searched := PrefixLeaf × PrefixSearchResult × List Octets

/-- The nodes placed of a batch cover the tree below the beginnings of its keys. -/
theorem covers_of_placed {items : List Searched}
    (hshow : ∀ i ∈ items, ShowsAbsence P commitments i.1.vrfOutput i.2.1 i.2.2)
    (hkeys : ∀ key ∈ keys, ∃ i ∈ items, i.1.vrfOutput = key)
    (hpath : ∀ i ∈ items, PlacedPath keys i.1.vrfOutput 0 i.2.1.depth tree)
    (hp : ∃ key ∈ keys, p <+: keyBits key) : Covers (prefixLeaves P commitments) 256 tree.nodeAt p := by
  have hlen : ∀ key ∈ items.map (fun i => (keyBits i.1.vrfOutput, i.2.1.depth)),
      key.1.length = 256 := by
    intro key hkey
    obtain ⟨i, -, rfl⟩ := List.mem_map.1 hkey
    exact length_keyBits _
  have hempty : ∀ key ∈ items.map (fun i => (keyBits i.1.vrfOutput, i.2.1.depth)), ∀ leaf,
      ¬ KeyBelow P commitments (key.1.take key.2) leaf := by
    intro key hkey
    obtain ⟨i, hi, rfl⟩ := List.mem_map.1 hkey
    exact (hshow i hi).empty
  refine covers_of_copaths hlen hempty (fun key hkey k hk hnot => ?_) ?_
  · obtain ⟨i, hi, rfl⟩ := List.mem_map.1 hkey
    refine hpath i hi k (Nat.zero_le _) hk fun other hother => ?_
    obtain ⟨j, hj, rfl⟩ := hkeys other hother
    exact hnot _ (List.mem_map_of_mem hj)
  · obtain ⟨key, hkey, hpre⟩ := hp
    obtain ⟨i, hi, rfl⟩ := hkeys key hkey
    exact ⟨_, List.mem_map_of_mem hi, hpre⟩

/-- The tree with a batch added covers the leaves of the map with it. -/
theorem AddsTo.covers {added : List PrefixLeaf} {tree' : PartialPrefixTree}
    (h : AddsTo commitments commitments' added) (hext : Extends tree tree')
    (hset : ∀ item ∈ added, tree'.nodeAt (keyBits item.vrfOutput) ≠ none)
    (hc : Covers (prefixLeaves P commitments) 256 tree.nodeAt []) :
    Covers (prefixLeaves P commitments') 256 tree'.nodeAt [] := by
  intro leaf hleaf
  by_cases hbatch : ∃ item ∈ added, item.vrfOutput = keyOf leaf
  · obtain ⟨item, hitem, heq⟩ := hbatch
    have hnode := hset item hitem
    rw [heq, keyBits_keyOf hleaf.length] at hnode
    exact ⟨256, by simp, by rwa [List.take_of_length_le hleaf.length.le]⟩
  · push Not at hbatch
    have hne := hleaf.ne_none
    rw [prefixLeaves, h.rest _ (isKey_keyOf hleaf.length) hbatch, ← prefixLeaves] at hne
    obtain ⟨k, hk, hnode⟩ := hc leaf ⟨hleaf.length, hne, hleaf.below⟩
    exact ⟨k, hk, hext _ hnode⟩

/-- **The transition of an honest server.**  From results that show the absence of the
keys of a batch, the auditor derives the root with the batch added. -/
theorem verifyAndTransition_honest {items : List Searched} (hne : items ≠ [])
    (hkeys : ∀ i ∈ items, IsKey i.1.vrfOutput)
    (hshow : ∀ i ∈ items, ShowsAbsence P commitments i.1.vrfOutput i.2.1 i.2.2)
    (hadds : AddsTo commitments commitments' (items.map Prod.fst)) :
    verifyAndTransition P (prefixRoot P commitments) (items.map Prod.fst) []
        ⟨items.map fun i => i.2.1, items.flatMap fun i => i.2.2⟩ = .ok (prefixRoot P commitments') := by
  have hadded : ∀ item ∈ items.map Prod.fst, IsKey item.vrfOutput ∧
      commitments item.vrfOutput = none := by
    intro item hitem
    obtain ⟨i, hi, rfl⟩ := List.mem_map.1 hitem
    exact ⟨hkeys i hi, (hshow i hi).absent (hkeys i hi)⟩
  obtain ⟨keys, hkeyseq⟩ : ∃ keys, keys = (items.map Prod.fst).map PrefixLeaf.vrfOutput := ⟨_, rfl⟩
  have hback : ∀ key ∈ keys, ∃ i ∈ items, i.1.vrfOutput = key := by
    intro key hkey
    rw [hkeyseq] at hkey
    obtain ⟨item, hitem, rfl⟩ := List.mem_map.1 hkey
    obtain ⟨i, hi, rfl⟩ := List.mem_map.1 hitem
    exact ⟨i, hi, rfl⟩
  have hmem : ∀ i ∈ items, i.1.vrfOutput ∈ keys := fun i hi => by
    rw [hkeyseq]
    exact List.mem_map_of_mem (List.mem_map_of_mem hi)
  have hkeyset : ∀ key ∈ keys, IsKey key ∧ commitments key = none := by
    intro key hkey
    obtain ⟨i, hi, rfl⟩ := hback key hkey
    exact hadded _ (List.mem_map_of_mem hi)
  -- the loop over the batch
  have hplace : ∀ i ∈ items.map (fun i => ((⟨i.1, false⟩ : BatchItem), i.2)),
      i.1.leaf.vrfOutput ∈ keys ∧ ShowsAbsence P commitments i.1.leaf.vrfOutput i.2.1 i.2.2 := by
    intro j hj
    obtain ⟨i, hi, rfl⟩ := List.mem_map.1 hj
    exact ⟨hmem i hi, hshow i hi⟩
  obtain ⟨⟨tree, covering⟩, hall, hst, -, hpath⟩ := placeAll_honest []
    (fun key hkey => (hkeyset key hkey).1) (fun key hkey => (hkeyset key hkey).2) hplace Placing.new
  rw [List.map_map, List.flatMap_map] at hall
  have hcovers : ∀ p, (∃ key ∈ keys, p <+: keyBits key) →
      Covers (prefixLeaves P commitments) 256 tree.nodeAt p := fun p hp =>
    covers_of_placed hshow hback (fun i hi => hpath _ (List.mem_map_of_mem hi)) hp
  have hold := hst.trueTree
  obtain ⟨i₀, hi₀⟩ := List.exists_mem_of_ne_nil items hne
  have hcov₀ := hcovers [] ⟨_, hmem i₀ hi₀, List.nil_prefix⟩
  have hcheck : checkCovering P tree covering = .ok () := by
    refine checkCovering_of fun c hc => ?_
    obtain ⟨p, hp, hlevel, hcpath, helement, hkey⟩ := hst.covering c hc
    rw [hlevel, hcpath, helement]
    exact hold.resolve hp (hcovers p hkey)
  -- the tree with the batch added
  obtain ⟨hnew, hext, hset⟩ := ((hkeyseq ▸ hst).addsTo hadds fun item hitem =>
    (hadded item hitem).2).setLeaves fun item hitem => ⟨(hadded item hitem).1, hadds.leaf item hitem⟩
  have hcov₁ := hadds.covers hext hset hcov₀
  have hitems : batchItems (items.map Prod.fst) [] = items.map fun i => ⟨i.1, false⟩ := by
    rw [batchItems, List.map_map, List.map_nil, List.append_nil]
    rfl
  have hzip : (items.map fun i => (⟨i.1, false⟩ : BatchItem)).zip (items.map fun i => i.2.1) =
      items.map fun i => (⟨i.1, false⟩, i.2.1) := List.zip_map'
  have hbatchKeys : (items.map fun i => (⟨i.1, false⟩ : BatchItem)).map
      (fun item => item.leaf.vrfOutput) = keys := by
    rw [hkeyseq, List.map_map, List.map_map]
    rfl
  unfold verifyAndTransition
  dsimp only
  rw [ensure_of (by simp), Result.ok_bind, hitems, hzip, hbatchKeys, List.map_nil]
  rw [show placeAll P keys [] (items.map fun i => (⟨i.1, false⟩, i.2.1)) (items.flatMap fun i => i.2.2)
    (.new, []) = .ok ((tree, covering), []) from hall, Result.ok_bind]
  dsimp only
  rw [ensure_of rfl, Result.ok_bind, hcheck, Result.ok_bind, hold.root hcov₀, ensure_of (.inl rfl),
    Result.ok_bind, hnew.root hcov₁]
  rfl

end

end KeyTransparency
