/-
# Searching the prefix tree

The invariant behind a search: an entry holds, beside its path, the hashes and the
last insertions of the history it was inserted into (`EntryFor`).  A walk that has
come to a level holds those of the history it searches (`CopathFor`), and the entry
it stands at is the last insertion below its path (`step_walk`).
-/

import KeyTransparency.Tree.PrefixCache
import KeyTransparency.Tree.PrefixHistory

namespace KeyTransparency

open SparseMerkle

/-! ### Entries and copaths -/

/-- A copath's node at a level of a key's path. -/
def IsBeside (P : Primitives) (history : List Insertion) (key : Octets) (level : ℕ)
    (node : ParentNode) : Prop :=
  node.hash = subtreeHash P (commitmentsOf history) (beside (keyBits key) level) ∧
    node.ptr = (latestBelow history (beside (keyBits key) level)).map Insertion.position

/-- A copath of a key's path from the root on. -/
structure CopathFor (P : Primitives) (history : List Insertion) (key : Octets)
    (copath : List ParentNode) : Prop where
  length_le : copath.length ≤ 256
  node : ∀ level node, copath[level]? = some node → IsBeside P history key level node

/-- A copath below which nothing lies beside the key's path. -/
structure CompleteCopath (P : Primitives) (history : List Insertion) (key : Octets)
    (copath : List ParentNode) : Prop extends CopathFor P history key copath where
  rest : ∀ level, copath.length ≤ level → level < 256 →
    latestBelow history (beside (keyBits key) level) = none

/-- The entry of an insertion into a history. -/
structure EntryFor (P : Primitives) (history : List Insertion) (x : Insertion) (entry : LogEntry) :
    Prop where
  index : entry.index = x.key
  leaf : ∃ ctr, entry.leaf = some ⟨ctr, x.commitment⟩
  copath : CompleteCopath P history x.key entry.copath

/-- Every insertion of a history has its entry. -/
def Recorded (P : Primitives) (history : List Insertion) (entries : ℕ → Option LogEntry) : Prop :=
  ∀ x before, x :: before <:+ history →
    ∃ entry, entries x.position = some entry ∧ EntryFor P before x entry

section

variable {P : Primitives} {h before : List Insertion} {x y : Insertion} {t : Octets}
  {copath : List ParentNode} {entry : LogEntry}

/-! ### Hashes along a path -/

theorem exists_leaf_below {q : List Bool} (hk : KeysValid h) (hq : latestBelow h q ≠ none) :
    ∃ r : List Bool, r.length = 256 - q.length ∧
      prefixLeaves P (commitmentsOf h) (q ++ r) ≠ none := by
  obtain ⟨x, hx⟩ := Option.ne_none_iff_exists'.1 hq
  obtain ⟨r, hr⟩ := prefix_of_latestBelow hx
  have hlen : (q ++ r).length = 256 := by rw [hr, length_keyBits]
  refine ⟨r, by rw [List.length_append] at hlen; omega, ?_⟩
  rw [prefixLeaves_commitmentsOf hk hlen, Ne, Option.map_eq_none_iff, hr]
  exact fun hn => latestBelow_eq_none.1 hn x (mem_of_latestBelow hx) List.prefix_rfl

/-- **The hashes beside a path fold to the hash at its beginning.** -/
theorem fold_beside {hashes : List Octets} {level d : ℕ} (hk : KeysValid h) (hl : level ≤ d)
    (hd : d ≤ 256)
    (hbeside : ∀ l, level ≤ l → l < d →
      hashes.getD l zeroValue = subtreeHash P (commitmentsOf h) (beside (keyBits t) l))
    (hne : ∀ l, level ≤ l → l < d → latestBelow h ((keyBits t).take l) ≠ none) :
    fold (parentHash P) zeroValue (((keyBits t).take d).drop level) (hashes.drop level)
        (subtreeHash P (commitmentsOf h) ((keyBits t).take d)) =
      subtreeHash P (commitmentsOf h) ((keyBits t).take level) := by
  have htake : ∀ l ≤ 256, ((keyBits t).take l).length = l := fun l hl => by
    rw [List.length_take, length_keyBits, Nat.min_eq_left hl]
  rw [subtreeHash, subtreeHash, htake d hd, htake level (hl.trans hd)]
  refine fold_hash (length_keyBits t) hl hd (fun l h₁ h₂ => ?_) fun l h₁ h₂ => ?_
  · rw [hbeside l h₁ h₂, subtreeHash, length_beside (by omega)]
    rfl
  · obtain ⟨r, hr, hleaf⟩ := exists_leaf_below (P := P) hk (hne l h₁ h₂)
    exact ⟨r, by rw [hr, htake l (by omega)], hleaf⟩

theorem CopathFor.getD_hash (hc : CopathFor P h t copath) {l : ℕ} (hl : l < copath.length) :
    (copath.map ParentNode.hash).getD l zeroValue =
      subtreeHash P (commitmentsOf h) (beside (keyBits t) l) := by
  rw [List.getD_eq_getElem _ _ (by simpa using hl), List.getElem_map]
  exact (hc.node l _ (List.getElem?_eq_getElem hl)).1

theorem CompleteCopath.getD_hash (hk : KeysValid h) (hc : CompleteCopath P h t copath) {l : ℕ}
    (hl : l < 256) :
    (copath.map ParentNode.hash).getD l zeroValue =
      subtreeHash P (commitmentsOf h) (beside (keyBits t) l) := by
  rcases Nat.lt_or_ge l copath.length with hlt | hge
  · exact hc.toCopathFor.getD_hash hlt
  · rw [List.getD_eq_default _ _ (by simpa using hge),
      subtreeHash_of_none hk (by rw [length_beside hl]; omega) (hc.rest l hge hl)]

/-- A complete copath folds the leaf of its key to the hash at any level. -/
theorem CompleteCopath.fold_eq (hk : KeysValid h) (hc : CompleteCopath P h t copath)
    (hx : latestBelow h (keyBits t) = some x) {level : ℕ} (hl : level ≤ 256) :
    fold (parentHash P) zeroValue ((keyBits t).drop level)
        ((copath.map ParentNode.hash).drop level) (leafHash P x.key x.commitment) =
      subtreeHash P (commitmentsOf h) ((keyBits t).take level) := by
  have hfull : (keyBits t).take 256 = keyBits t := List.take_of_length_le (by simp)
  have hfold := fold_beside (t := t) hk hl le_rfl
    (fun l _ h₂ => hc.getD_hash hk h₂) fun l _ _ => ?_
  · rwa [hfull, subtreeHash_keyBits hk hx] at hfold
  · intro hn
    have := latestBelow_longer (List.take_prefix l (keyBits t)) hn
    rw [hx] at this
    cases this

/-- An insertion leaves what lies beside its own path. -/
theorem latestBelow_beside_cons {l : ℕ} (hl : l < 256) :
    latestBelow (x :: h) (beside (keyBits x.key) l) = latestBelow h (beside (keyBits x.key) l) :=
  latestBelow_cons_of_not (not_beside_below hl)

theorem subtreeHash_beside_cons {l : ℕ} (hk : KeysValid (x :: h)) (hl : l < 256) :
    subtreeHash P (commitmentsOf (x :: h)) (beside (keyBits x.key) l) =
      subtreeHash P (commitmentsOf h) (beside (keyBits x.key) l) :=
  subtreeHash_congr hk (fun z hz => hk z (List.mem_cons_of_mem _ hz))
    (by rw [length_beside hl]; omega) fun r hr =>
    latestBelow_cons_of_not fun hp => not_beside_below hl (hr.trans hp)

/-- A copath is one of the history that its key's insertion makes, too. -/
theorem CompleteCopath.cons (hk : KeysValid (x :: h)) (hc : CompleteCopath P h x.key copath) :
    CompleteCopath P (x :: h) x.key copath where
  length_le := hc.length_le
  node level node hnode := by
    obtain ⟨hlt, -⟩ := List.getElem?_eq_some_iff.1 hnode
    have hlevel : level < 256 := hlt.trans_le hc.length_le
    have hb := hc.node level node hnode
    rwa [IsBeside, subtreeHash_beside_cons hk hlevel, latestBelow_beside_cons hlevel]
  rest level h₁ h₂ := by rw [latestBelow_beside_cons h₂, hc.rest level h₁ h₂]

/-- **An entry rolls up to the tree it was inserted into.** -/
theorem EntryFor.rolledUp_eq {leaf : LeafNode} (hk : KeysValid (x :: before))
    (he : EntryFor P before x entry) (hleaf : entry.leaf = some leaf) {level : ℕ}
    (hl : level ≤ 256) :
    rolledUp P entry leaf level =
      subtreeHash P (commitmentsOf (x :: before)) ((keyBits x.key).take level) := by
  obtain ⟨ctr, hctr⟩ := he.leaf
  obtain rfl := Option.some.inj (hctr.symm.trans hleaf)
  rw [rolledUp, he.index]
  exact (he.copath.cons hk).fold_eq hk (latestBelow_cons_of List.prefix_rfl) hl

/-! ### One entry of a walk -/

/-- A walk for `t` stands, at a level, at the entry of `y`: below its path nothing was
inserted since. -/
structure Standing (h : List Insertion) (t : Octets) (level : ℕ) (y : Insertion)
    (before : List Insertion) : Prop where
  suffix : y :: before <:+ h
  on_path : (keyBits t).take level <+: keyBits y.key
  frozen : ∀ r, (keyBits t).take level <+: r → latestBelow h r = latestBelow (y :: before) r

theorem exists_standing {level : ℕ} (hy : latestBelow h ((keyBits t).take level) = some y) :
    ∃ before, Standing h t level y before := by
  obtain ⟨before, h₁, h₂, h₃⟩ := frozen hy
  exact ⟨before, h₁, h₂, h₃⟩

theorem KeysValid.of_suffix {h' : List Insertion} (hk : KeysValid h) (hs : h' <:+ h) : KeysValid h' :=
  fun x hx => hk x (hs.mem hx)

namespace Standing

variable {level : ℕ}

theorem keysValid (st : Standing h t level y before) (hk : KeysValid h) : KeysValid (y :: before) :=
  hk.of_suffix st.suffix

theorem latest (st : Standing h t level y before) :
    latestBelow h ((keyBits t).take level) = some y := by
  rw [st.frozen _ List.prefix_rfl, latestBelow_cons_of st.on_path]

theorem subtreeHash_eq (st : Standing h t level y before) (hk : KeysValid h) {q : List Bool}
    (hq : (keyBits t).take level <+: q) (hlen : q.length ≤ 256) :
    subtreeHash P (commitmentsOf h) q = subtreeHash P (commitmentsOf (y :: before)) q :=
  subtreeHash_congr hk (st.keysValid hk) hlen fun r hr => st.frozen r (hq.trans hr)

theorem take_eq (st : Standing h t level y before) (hl : level ≤ 256) :
    (keyBits y.key).take level = (keyBits t).take level := by
  have := List.prefix_iff_eq_take.1 st.on_path
  rw [List.length_take, length_keyBits, Nat.min_eq_left hl] at this
  exact this.symm

/-- Where the two paths agree, both have the same beside them. -/
theorem passed (st : Standing h t level y before) (hk : KeysValid h) (hl : level < 256)
    (hbit : (keyBits y.key).getD level false = (keyBits t).getD level false) :
    Standing h t (level + 1) y before ∧
      latestBelow h (beside (keyBits t) level) = latestBelow before (beside (keyBits y.key) level) ∧
      subtreeHash P (commitmentsOf h) (beside (keyBits t) level) =
        subtreeHash P (commitmentsOf before) (beside (keyBits y.key) level) := by
  have htake : (keyBits y.key).take (level + 1) = (keyBits t).take (level + 1) := by
    rw [take_succ_keyBits hl, take_succ_keyBits hl, st.take_eq hl.le, hbit]
  have hbeside : beside (keyBits y.key) level = beside (keyBits t) level := beside_congr hl htake
  have hlen : (beside (keyBits t) level).length ≤ 256 := by rw [length_beside hl]; omega
  refine ⟨⟨st.suffix, ?_, fun r hr => st.frozen r ?_⟩, ?_, ?_⟩
  · rw [← htake]
    exact List.take_prefix _ _
  · exact ((keyBits t).take_prefix_take_left (Nat.le_succ level)).trans hr
  · rw [st.frozen _ (take_prefix_beside le_rfl), ← hbeside, latestBelow_beside_cons hl]
  · rw [st.subtreeHash_eq hk (take_prefix_beside le_rfl) hlen, ← hbeside,
      subtreeHash_beside_cons (st.keysValid hk) hl]

/-- Where the two paths part, the entry is what lies beside the walk's, and the walk
goes on to what lies beside the entry's. -/
theorem parted (st : Standing h t level y before) (hk : KeysValid h) (hl : level < 256)
    (hbit : (keyBits y.key).getD level false ≠ (keyBits t).getD level false) :
    latestBelow h (beside (keyBits t) level) = some y ∧
      subtreeHash P (commitmentsOf h) (beside (keyBits t) level) =
        subtreeHash P (commitmentsOf (y :: before)) ((keyBits y.key).take (level + 1)) ∧
      latestBelow h ((keyBits t).take (level + 1)) =
        latestBelow before (beside (keyBits y.key) level) := by
  have hy := beside_eq_take hl (st.take_eq hl.le) hbit
  have ht := beside_eq_take hl (st.take_eq hl.le).symm hbit.symm
  have hpre := take_prefix_beside (t := t) (le_refl level)
  refine ⟨?_, ?_, ?_⟩
  · rw [st.frozen _ hpre, ht, latestBelow_cons_of (List.take_prefix _ _)]
  · rw [st.subtreeHash_eq hk hpre (by rw [length_beside hl]; omega), ht]
  · rw [st.frozen _ ((keyBits t).take_prefix_take_left (Nat.le_succ level)), ← hy,
      latestBelow_beside_cons hl]

end Standing

theorem getBit_eq_iff {k : Octets} {n : ℕ} (hn : n < 256) :
    getBit k n = getBit t n ↔ (keyBits k).getD n false = (keyBits t).getD n false := by
  rw [getD_keyBits hn, getD_keyBits hn]
  constructor
  · exact fun e => by rw [e]
  · intro e
    rw [getBit_eq_ite k, getBit_eq_ite t, e]

theorem CopathFor.push (hc : CopathFor P h t copath) (hl : copath.length < 256) {n : ParentNode}
    (hn : IsBeside P h t copath.length n) : CopathFor P h t (copath ++ [n]) where
  length_le := by rw [List.length_append, List.length_singleton]; omega
  node level node hnode := by
    rcases Nat.lt_trichotomy level copath.length with hlt | rfl | hgt
    · exact hc.node level node (by rwa [List.getElem?_append_left hlt] at hnode)
    · rw [List.getElem?_concat_length] at hnode
      rwa [← Option.some.inj hnode]
    · rw [List.getElem?_eq_none (by rw [List.length_append, List.length_singleton]; omega)] at hnode
      cases hnode

/-- What a step leads to: the last insertion further down, the end of the path, or the
key. -/
inductive Walked (P : Primitives) (h : List Insertion) (t : Octets) (level : ℕ) :
    StepResult × List ParentNode → Prop
  | next (z : Insertion) (copath : List ParentNode) (hc : CopathFor P h t copath)
      (hlevel : level < copath.length) (hz : latestBelow h ((keyBits t).take copath.length) = some z) :
      Walked P h t level (.next z.position, copath)
  | failed (copath : List ParentNode) (hc : CopathFor P h t copath) (hlevel : level < copath.length)
      (hlast : latestBelow h ((keyBits t).take (copath.length - 1)) ≠ none)
      (hnone : latestBelow h ((keyBits t).take copath.length) = none) :
      Walked P h t level (.failed copath, copath)
  | found (entry : LogEntry) (copath : List ParentNode) (y : Insertion) (ctr : ℕ)
      (hleaf : entry.leaf = some ⟨ctr, y.commitment⟩) (hc : CompleteCopath P h t entry.copath)
      (hy : latestBelow h (keyBits t) = some y) : Walked P h t level (.found entry, copath)

theorem Walked.weaken {level level' : ℕ} (hl : level ≤ level') {r : StepResult × List ParentNode}
    (hw : Walked P h t level' r) : Walked P h t level r := by
  cases hw with
  | next z copath hc hlevel hz => exact .next z copath hc (hl.trans_lt hlevel) hz
  | failed copath hc hlevel hlast hnone => exact .failed copath hc (hl.trans_lt hlevel) hlast hnone
  | found entry copath y ctr hleaf hc hy => exact .found entry copath y ctr hleaf hc hy

theorem stepLoop_walk {ptr : ℕ} (hk : KeysValid h) (ht : IsKey t) (he : EntryFor P before y entry)
    (hptr : ptr = y.position) (hne : y.key ≠ t) :
    ∀ {fuel : ℕ} {copath : List ParentNode}, copath.length + fuel = 256 → CopathFor P h t copath →
      Standing h t copath.length y before →
      ∃ r, outcome (PrefixTree.stepLoop P t ptr (.new entry) fuel copath) = .ok r ∧
        Walked P h t copath.length r
  | 0, copath, hf, hc, st => by
    have heq := st.take_eq (by omega)
    rw [List.take_of_length_le (by simp; omega), List.take_of_length_le (by simp; omega)] at heq
    exact absurd (keyBits_inj (st.keysValid hk y List.mem_cons_self) ht heq) hne
  | fuel + 1, copath, hf, hc, st => by
    have hl : copath.length < 256 := by omega
    have hky := st.keysValid hk
    obtain ⟨ctr, hleaf⟩ := he.leaf
    have hroll := (CachedLogEntry.rollup_eq (l := copath.length + 1) (P := P)
      (c := .new entry) hleaf (CachedLogEntry.filled_new entry) (by omega)).1
    have hlen : ∀ node : ParentNode, (copath ++ [node]).length = copath.length + 1 := fun node => by
      rw [List.length_append, List.length_singleton]
    have hrest : ∀ node : ParentNode, (copath ++ [node]).length + fuel = 256 := fun node => by
      rw [hlen]
      omega
    have hinner : (CachedLogEntry.new entry).inner = entry := rfl
    unfold PrefixTree.stepLoop
    dsimp only
    rw [hinner, he.index]
    simp only [getBit_eq_iff hl]
    -- what is pushed where the two paths part
    have hparted : ∀ fup, (keyBits y.key).getD copath.length false ≠
        (keyBits t).getD copath.length false →
        CopathFor P h t (copath ++
          [⟨((CachedLogEntry.new entry).rollup P (copath.length + 1)).1, some ptr, fup⟩]) := by
      intro fup hbit
      obtain ⟨h₁, h₂, -⟩ := st.parted (P := P) hk hl hbit
      refine hc.push hl ⟨?_, by rw [h₁, hptr]; rfl⟩
      rw [hroll, h₂]
      exact he.rolledUp_eq hky hleaf (by omega)
    cases hp : entry.copath[copath.length]? with
    | some parent =>
      obtain ⟨hhash, hnext⟩ := he.copath.node _ _ hp
      dsimp only
      split_ifs with hbit
      · obtain ⟨st', h₁, h₂⟩ := st.passed (P := P) hk hl hbit
        have hc' := hc.push hl (n := parent) ⟨by rw [h₂, hhash], by rw [h₁, hnext]⟩
        obtain ⟨r, hr, hw⟩ := stepLoop_walk hk ht he hptr hne (hrest _) hc'
          (by rwa [hlen])
        exact ⟨r, hr, hw.weaken (by rw [hlen]; omega)⟩
      · obtain ⟨-, -, h₃⟩ := st.parted (P := P) hk hl hbit
        have hc' := hparted parent.firstUpdatePosition hbit
        rw [hnext, ← h₃]
        cases hz : latestBelow h ((keyBits t).take (copath.length + 1)) with
        | some z =>
          exact ⟨_, rfl, .next z _ hc' (by rw [hlen]; omega) (by rw [hlen, hz])⟩
        | none =>
          refine ⟨_, rfl, .failed _ hc' (by rw [hlen]; omega) ?_ (by rw [hlen, hz])⟩
          rw [hlen, Nat.add_sub_cancel, st.latest]
          simp
    | none =>
      have hend : latestBelow before (beside (keyBits y.key) copath.length) = none :=
        he.copath.rest _ (List.getElem?_eq_none_iff.1 hp) hl
      dsimp only
      rw [if_neg (by simp [hleaf])]
      split_ifs with hbit
      · obtain ⟨st', h₁, h₂⟩ := st.passed (P := P) hk hl hbit
        have hc' := hc.push hl (n := ⟨CachedLogEntry.standIn (copath.length + 1), none,
            some entry.firstUpdatePosition⟩) ⟨?_, by rw [h₁, hend]; rfl⟩
        · obtain ⟨r, hr, hw⟩ := stepLoop_walk hk ht he hptr hne (hrest _) hc'
            (by rwa [hlen])
          exact ⟨r, hr, hw.weaken (by rw [hlen]; omega)⟩
        · rw [subtreeHash_of_none hk (by rw [length_beside hl]; omega) (by rw [h₁, hend])]
          rfl
      · obtain ⟨-, -, h₃⟩ := st.parted (P := P) hk hl hbit
        have hc' := hparted (some entry.firstUpdatePosition) hbit
        refine ⟨_, rfl, .failed _ hc' (by rw [hlen]; omega) ?_ (by rw [hlen, h₃, hend])⟩
        rw [hlen, Nat.add_sub_cancel, st.latest]
        simp

/-- At the key's own entry, what lies beside the path further down. -/
theorem Standing.below (st : Standing h y.key copath.length y before) (hk : KeysValid h) {l : ℕ}
    (h₁ : copath.length ≤ l) (h₂ : l < 256) :
    latestBelow h (beside (keyBits y.key) l) = latestBelow before (beside (keyBits y.key) l) ∧
      subtreeHash P (commitmentsOf h) (beside (keyBits y.key) l) =
        subtreeHash P (commitmentsOf before) (beside (keyBits y.key) l) := by
  have hpre := take_prefix_beside (t := y.key) h₁
  refine ⟨?_, ?_⟩
  · rw [st.frozen _ hpre, latestBelow_beside_cons h₂]
  · rw [st.subtreeHash_eq hk hpre (by rw [length_beside h₂]; omega),
      subtreeHash_beside_cons (st.keysValid hk) h₂]

/-- The copath of the walk and, further down, the entry's own. -/
theorem combineCopaths_complete (hk : KeysValid h) (hc : CopathFor P h y.key copath)
    (st : Standing h y.key copath.length y before) (he : EntryFor P before y entry) :
    CompleteCopath P h y.key (combineCopaths copath entry.copath) := by
  unfold combineCopaths
  split_ifs with hle
  · refine ⟨hc, fun l h₁ h₂ => ?_⟩
    rw [(st.below (P := P) hk h₁ h₂).1, he.copath.rest l (hle.trans h₁) h₂]
  · have hlen : (copath ++ entry.copath.drop copath.length).length = entry.copath.length := by
      rw [List.length_append, List.length_drop]
      omega
    refine ⟨⟨hlen ▸ he.copath.length_le, fun l node hnode => ?_⟩, fun l h₁ h₂ => ?_⟩
    · rcases Nat.lt_or_ge l copath.length with hlt | hge
      · exact hc.node l node (by rwa [List.getElem?_append_left hlt] at hnode)
      · rw [List.getElem?_append_right hge, List.getElem?_drop, Nat.add_sub_cancel' hge] at hnode
        obtain ⟨hl, -⟩ := List.getElem?_eq_some_iff.1 hnode
        have hb := he.copath.node l node hnode
        obtain ⟨e₁, e₂⟩ := st.below (P := P) hk hge (hl.trans_le he.copath.length_le)
        rwa [IsBeside, e₁, e₂]
    · rw [hlen] at h₁
      rw [(st.below (P := P) hk (by omega) h₂).1, he.copath.rest l h₁ h₂]

/-- **One step of a walk.** -/
theorem step_walk {ptr : ℕ} (hk : KeysValid h) (ht : IsKey t) (hc : CopathFor P h t copath)
    (st : Standing h t copath.length y before) (he : EntryFor P before y entry)
    (hptr : ptr = y.position) :
    ∃ r, outcome (PrefixTree.step P t ptr copath (.new entry)) = .ok r ∧
      Walked P h t copath.length r := by
  obtain ⟨ctr, hleaf⟩ := he.leaf
  have hinner : (CachedLogEntry.new entry).inner = entry := rfl
  unfold PrefixTree.step
  rw [hinner]
  rcases eq_or_ne y.key t with rfl | hne
  · rw [if_pos ⟨by simp [hleaf], he.index⟩]
    have hy : latestBelow h (keyBits y.key) = some y := by
      rw [st.frozen _ (List.take_prefix _ _), latestBelow_cons_of List.prefix_rfl]
    exact ⟨_, rfl, .found _ _ y ctr hleaf (combineCopaths_complete hk hc st he) hy⟩
  · rw [if_neg fun hcond => hne (he.index ▸ hcond.2)]
    exact stepLoop_walk hk ht he hptr hne (Nat.add_sub_cancel' hc.length_le) hc st

/-! ### Whole searches -/

/-- What a search ends with. -/
def EndsAs (P : Primitives) (h : List Insertion) (t : Octets) : PrefixTree.SearchEnd → Prop
  | .found entry => ∃ (y : Insertion) (ctr : ℕ), entry.leaf = some ⟨ctr, y.commitment⟩ ∧
      CompleteCopath P h t entry.copath ∧ latestBelow h (keyBits t) = some y
  | .failed copath entry => CopathFor P h t copath ∧ 0 < copath.length ∧
      latestBelow h ((keyBits t).take (copath.length - 1)) ≠ none ∧
      latestBelow h ((keyBits t).take copath.length) = none ∧
      ∃ (y : Insertion) (ctr : ℕ), latestBelow h (keyBits y.key) = some y ∧ entry.index = y.key ∧
        entry.leaf = some ⟨ctr, y.commitment⟩

theorem coldSearch_walk {entries : ℕ → Option LogEntry} (hk : KeysValid h) (ht : IsKey t)
    (hrec : Recorded P h entries) :
    ∀ {fuel : ℕ} {copath : List ParentNode} {y : Insertion}, 256 < copath.length + fuel →
      CopathFor P h t copath → latestBelow h ((keyBits t).take copath.length) = some y →
      ∃ found, coldSearch P entries t fuel y.position copath = .ok found ∧ EndsAs P h t found
  | 0, copath, y, hf, hc, _ => absurd hc.length_le (by omega)
  | fuel + 1, copath, y, hf, hc, hy => by
    obtain ⟨before, st⟩ := exists_standing hy
    obtain ⟨entry, hentry, he⟩ := hrec y before st.suffix
    obtain ⟨r, hr, hw⟩ := step_walk hk ht hc st he rfl
    unfold coldSearch
    rw [hentry, okOr_some, Result.ok_bind, hr, Result.ok_bind]
    cases hw with
    | next z copath' hc' hlevel hz => exact coldSearch_walk hk ht hrec (by omega) hc' hz
    | found entry' copath' y' ctr hleaf hcomplete hy' => exact ⟨_, rfl, y', ctr, hleaf, hcomplete, hy'⟩
    | failed copath' hc' hlevel hlast hnone =>
      obtain ⟨ctr, hleaf⟩ := he.leaf
      have hlatest : latestBelow h (keyBits y.key) = some y := by
        rw [st.frozen _ st.on_path, latestBelow_cons_of List.prefix_rfl]
      exact ⟨_, rfl, hc', by omega, hlast, hnone, y, ctr, hlatest, he.index, hleaf⟩

/-- **A search from the last insertion.** -/
theorem coldSearch_ends {entries : ℕ → Option LogEntry} (hk : KeysValid (x :: before)) (ht : IsKey t)
    (hrec : Recorded P (x :: before) entries) :
    ∃ found, coldSearch P entries t (8 * indexLength + 1) x.position [] = .ok found ∧
      EndsAs P (x :: before) t found :=
  coldSearch_walk hk ht hrec (by simp [indexLength])
    ⟨by simp, fun l node hnode => by simp at hnode⟩ (latestBelow_cons_of List.nil_prefix)

end

end KeyTransparency
