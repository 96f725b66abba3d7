/-
# Roots of earlier sizes

`get_root` of an earlier size reads nodes back from the chunks of the current log.
A node of level one to three that is complete now is returned as it is, also when
it was not complete at the earlier size.  The roots that come out right are the
ones of the sizes that are `HistoricallyReadable` (`getRoot_historical_iff`), and
`set_auditor_head` can accept an honest head of exactly these sizes.
-/

import KeyTransparency.Tree.Audit
import KeyTransparency.Tree.LogAppend

namespace KeyTransparency

open LogMath InOrder MerkleLog

/-- The leaf hashes of log entries whose prefix root is a digest. -/
def IsLogLeaf (P : Primitives) (l : Octets) : Prop :=
  ∃ ts root, root.length = 32 ∧ l = logLeafValue P ts root

/-- The sizes at which a log that has grown to `N` leaves can still be read: powers
of two, multiples of eight, and sizes from which the log has not grown past the
subtree that the last peak is half of. -/
def HistoricallyReadable (m N : ℕ) : Prop :=
  ∀ k < 3, 2 ^ k ∣ m → ¬ 2 ^ (k + 1) ∣ m → m = 2 ^ k ∨ N < m + 2 ^ k

instance (m N : ℕ) : Decidable (HistoricallyReadable m N) := by
  unfold HistoricallyReadable
  infer_instance

/-! ### Levels -/

/-- The node of a level above the end of a log of `m` leaves is cut there, and
complete in a log of `N`. -/
def Overtaken (m N k : ℕ) : Prop :=
  0 < k ∧ k ≤ 3 ∧ ¬ 2 ^ k ∣ m ∧ (m / 2 ^ k + 1) * 2 ^ k ≤ N

theorem not_dvd_of_inside {m k i : ℕ} (h₁ : i * 2 ^ k < m) (h₂ : m < (i + 1) * 2 ^ k) :
    m / 2 ^ k = i ∧ ¬ 2 ^ k ∣ m := by
  have hdiv := div_two_pow_eq_iff.2 ⟨h₁.le, h₂⟩
  refine ⟨hdiv, fun hd => ?_⟩
  have := Nat.div_mul_cancel hd
  rw [hdiv] at this
  omega

/-- **The readable sizes** are those at which no node is overtaken. -/
theorem historicallyReadable_iff {m N : ℕ} (hm : 0 < m) :
    HistoricallyReadable m N ↔ ∀ k ≤ height m, m < 2 ^ height m → ¬ Overtaken m N k := by
  have hle := le_two_pow_height m
  constructor
  · rintro h k hk hpart ⟨hk₀, hk₃, hd, hN⟩
    -- the lowest level at which the log is cut
    obtain ⟨v, hv, hv'⟩ : ∃ v, 2 ^ v ∣ m ∧ ¬ 2 ^ (v + 1) ∣ m := by
      by_contra hno
      push Not at hno
      exact hd (Nat.rec (by simp) (fun v ih => hno v ih) k)
    have hvk : v < k := by
      by_contra hge
      exact hd ((Nat.pow_dvd_pow 2 (Nat.not_lt.1 hge)).trans hv)
    have hne : m ≠ 2 ^ v := by
      rintro rfl
      have := height_le_of_le_two_pow (le_refl (2 ^ v))
      have := Nat.pow_le_pow_right (show 0 < 2 by omega) this
      omega
    have hlt := (h v (by omega) hv hv').resolve_left hne
    -- its end is not past the end of the block of level `k`
    have hend : (m / 2 ^ v + 1) * 2 ^ v ≤ (m / 2 ^ k + 1) * 2 ^ k :=
      block_le_of_start (by omega) (by
        rw [Nat.div_mul_cancel hv]
        exact (div_two_pow_bounds m k).2)
    rw [Nat.add_one_mul, Nat.div_mul_cancel hv] at hend
    omega
  · intro h k hk hd hd'
    by_contra hno
    push Not at hno
    obtain ⟨hne, hN⟩ := hno
    have hpow : (2 : ℕ) ^ (k + 1) = 2 * 2 ^ k := by ring
    have hlt : 2 ^ k < m := Nat.lt_of_le_of_ne (Nat.le_of_dvd hm hd) (Ne.symm hne)
    have hkh : k < height m := (Nat.pow_lt_pow_iff_right (by omega : 1 < 2)).1 (hlt.trans_le hle)
    obtain ⟨q, rfl⟩ := hd
    have hodd : q % 2 = 1 := by
      by_contra he
      exact hd' ⟨q / 2, by rw [hpow, Nat.mul_comm 2, Nat.mul_assoc]; congr 1; omega⟩
    refine h (k + 1) hkh (Nat.lt_of_le_of_ne hle fun e => ?_) ⟨by omega, by omega, hd', ?_⟩
    · exact hd' (e ▸ Nat.pow_dvd_pow 2 hkh)
    · have hq : 2 ^ k * q / 2 ^ (k + 1) = q / 2 := by
        rw [hpow, Nat.mul_comm 2, Nat.mul_div_mul_left _ _ (Nat.two_pow_pos k)]
      have : (q / 2 + 1) * (2 * 2 ^ k) = 2 ^ k * (2 * (q / 2) + 1) + 2 ^ k := by ring
      rw [hq, hpow, this, show 2 * (q / 2) + 1 = q by omega]
      exact hN

/-! ### Nodes -/

section ReadBack

variable {par : Bool → Octets → Octets → Octets} {leaves : List Octets} {m : ℕ}

theorem leafAt_take {p : ℕ} (hp : p < m) : leafAt (leaves.take m) p = leafAt leaves p := by
  rw [leafAt, leafAt, List.getD_eq_getElem?_getD, List.getD_eq_getElem?_getD,
    List.getElem?_take_of_lt hp]

/-- A node that is complete at the earlier size reads as it was. -/
theorem readBack_of_complete (hm : m ≤ leaves.length) :
    ∀ {k i : ℕ}, (i + 1) * 2 ^ k ≤ m →
      readBack par leaves m k i = value par (leafAt leaves) m k i
  | 0, _, _ => rfl
  | k + 1, i, h => by
    obtain ⟨e₀, e₁, e₂, e₃⟩ := block_halves k i
    have := Nat.two_pow_pos k
    rw [readBack]
    split_ifs with h₁ h₂
    · exact value_of_complete h₁.2 h
    · rw [value_succ_of_lt h₂, readBack_of_complete hm (by omega),
        readBack_of_complete hm (by omega)]
    · omega

/-- **A node that is cut at the earlier size** reads as it was when no node of the
right edge below it has been overtaken. -/
theorem readBack_of_not_overtaken (hm : m ≤ leaves.length) :
    ∀ {k i : ℕ}, i * 2 ^ k < m → m < (i + 1) * 2 ^ k →
      (∀ j ≤ k, ¬ Overtaken m leaves.length j) →
      readBack par leaves m k i = value par (leafAt leaves) m k i
  | 0, _, _, _, _ => rfl
  | k + 1, i, h₁, h₂, hno => by
    obtain ⟨e₀, e₁, e₂, e₃⟩ := block_halves k i
    obtain ⟨hdiv, hdvd⟩ := not_dvd_of_inside h₁ h₂
    have hself := hno (k + 1) le_rfl
    have hbelow : ∀ j ≤ k, ¬ Overtaken m leaves.length j := fun j hj => hno j (by omega)
    rw [readBack, if_neg fun h => hself ⟨by omega, h.1, hdvd, by rw [hdiv]; exact h.2⟩]
    split_ifs with hr
    · rw [value_succ_of_lt hr, readBack_of_complete hm (k := k) (i := 2 * i) (by omega),
        readBack_of_not_overtaken hm hr (by omega) hbelow]
    · rw [value_succ_of_le (by omega)]
      rcases Nat.lt_or_ge m ((2 * i + 1) * 2 ^ k) with hlt | hge
      · exact readBack_of_not_overtaken hm (by omega) hlt hbelow
      · exact readBack_of_complete hm hge

end ReadBack

section Overtaken

variable {P : Primitives} {leaves : List Octets} {m : ℕ}

/-- **Conversely**, a cut node that reads as it was has not been overtaken, nor has
one of the right edge below it. -/
theorem not_overtaken_of_readBack (hP : Function.Injective P.sha256)
    (hleaf : ∀ l ∈ leaves, IsLogLeaf P l) (hm : m ≤ leaves.length) :
    ∀ {k i : ℕ}, i * 2 ^ k < m → m < (i + 1) * 2 ^ k →
      readBack (logPar P) leaves m k i = value (logPar P) (leafAt leaves) m k i →
      ∀ j ≤ k, ¬ Overtaken m leaves.length j
  | 0, i, h₁, h₂, _ => by omega
  | k + 1, i, h₁, h₂, h => by
    obtain ⟨e₀, e₁, e₂, e₃⟩ := block_halves k i
    obtain ⟨hdiv, hdvd⟩ := not_dvd_of_inside h₁ h₂
    have hat : ∀ p < leaves.length, (logSeparated P hP).Leaf (leafAt leaves p) := fun p hp =>
      hleaf _ (leafAt_mem hp)
    have hdig : (logScheme P hP).Digest (value (logPar P) (leafAt leaves) m k (2 * i)) :=
      HashScheme.value_digest (S := logScheme P hP)
        (fun p hp => (logSeparated P hP).leaf_digest (hat p (by omega))) (by omega)
    rw [readBack] at h
    by_cases hc : k + 1 ≤ 3 ∧ (i + 1) * 2 ^ (k + 1) ≤ leaves.length
    · -- more leaves are below the node that is read than were below it then
      rw [if_pos hc] at h
      have := (logSeparated P hP).value_size_inj
        hat (fun p hp => hat p (by omega)) (by omega) h₁ h
      omega
    rw [if_neg hc] at h
    have hself : ¬ Overtaken m leaves.length (k + 1) := fun ho => by
      have := ho.2.2.2
      rw [hdiv] at this
      exact hc ⟨ho.2.1, this⟩
    have hbelow : ∀ j ≤ k, ¬ Overtaken m leaves.length j := by
      split_ifs at h with hr
      · rw [value_succ_of_lt hr, readBack_of_complete hm (k := k) (i := 2 * i) (by omega)] at h
        have := ((logScheme P hP).par_inj_left hdig hdig h).2.2
        exact not_overtaken_of_readBack hP hleaf hm hr (by omega) this
      · rw [value_succ_of_le (by omega)] at h
        rcases Nat.lt_or_ge m ((2 * i + 1) * 2 ^ k) with hlt | hge
        · exact not_overtaken_of_readBack hP hleaf hm (by omega) hlt h
        · intro j hj ho
          have hm' : m = (2 * i + 1) * 2 ^ k := by omega
          exact ho.2.2.1 (hm' ▸ (Nat.pow_dvd_pow 2 hj).trans (Nat.dvd_mul_left _ _))
    intro j hj
    rcases hj.lt_or_eq with hj | rfl
    · exact hbelow j (by omega)
    · exact hself

end Overtaken

/-! ### Roots -/

namespace LogTree

variable {P : Primitives} {s : Store} {leaves : List Octets} {m : ℕ}

theorem logRoot_take (h₀ : 0 < m) (hm : m ≤ leaves.length) :
    logRoot P (leaves.take m) = value (logPar P) (leafAt leaves) m (height m) 0 := by
  have hlen : (leaves.take m).length = m := List.length_take_of_le hm
  rw [logRoot_of_ne_nil (List.length_pos_iff.1 (by omega)), MerkleLog.root, hlen]
  exact value_congr (by omega) fun p _ _ hp => leafAt_take hp

/-- The root of a readable size. -/
theorem getRoot_of_readable (hs : Holds s leaves) (h₀ : 0 < m) (hm : m ≤ leaves.length)
    (hn : leaves.length ≤ 2 ^ 62) (h : HistoricallyReadable m leaves.length) :
    getRoot P s m = .ok (logRoot P (leaves.take m)) := by
  rw [getRoot_eq hs hm h₀ (by omega), logRoot_take h₀ hm]
  rcases (le_two_pow_height m).lt_or_eq with hlt | heq
  · rw [readBack_of_not_overtaken hm (by omega) (by omega)
      fun j hj => (historicallyReadable_iff h₀).1 h j hj hlt]
  · rw [readBack_of_complete hm (by omega)]

/-- **The sizes whose root `get_root` returns.** -/
theorem getRoot_historical_iff (hs : Holds s leaves) (hP : Function.Injective P.sha256)
    (hleaf : ∀ l ∈ leaves, IsLogLeaf P l) (h₀ : 0 < m) (hm : m ≤ leaves.length)
    (hn : leaves.length ≤ 2 ^ 62) :
    getRoot P s m = .ok (logRoot P (leaves.take m)) ↔ HistoricallyReadable m leaves.length := by
  refine ⟨fun h => ?_, getRoot_of_readable hs h₀ hm hn⟩
  rw [getRoot_eq hs hm h₀ (by omega), logRoot_take h₀ hm] at h
  exact (historicallyReadable_iff h₀).2 fun k hk hlt =>
    not_overtaken_of_readBack hP hleaf hm (by omega) (by omega) (Except.ok.inj h) k hk

/-- **Consistency proofs** between two sizes of the log can be made. -/
theorem getConsistencyProof_isOk (hs : Holds s leaves) (h₀ : 0 < m) (hm : m < leaves.length)
    (hn : leaves.length ≤ 2 ^ 62) :
    ∃ elements, getConsistencyProof P s m leaves.length = .ok elements := by
  have hh := height_le_of_le_two_pow hn
  obtain ⟨ids, hids, hin⟩ := @subProof_eq_ok 128 m leaves.length true h₀ hm.le hn (by omega)
  have hok : ∀ id ∈ ids, ∃ v, resolveNode P s 64 id leaves.length = .ok v := fun id hid => by
    obtain ⟨k, i, rfl, hk, hi⟩ := hin id hid
    have : k ≤ 62 := (Nat.pow_le_pow_iff_right (by omega : 1 < 2)).1 (hk.trans hn)
    exact ⟨_, resolveNode_node hs le_rfl (by omega) this hi⟩
  choose! g hg using hok
  refine ⟨ids.map g, ?_⟩
  rw [getConsistencyProof, if_neg (by omega), consistencyProof, if_neg (by omega), hids,
    Result.ok_bind]
  exact Result.mapM_eq_ok hg

end LogTree

/-! ### Auditor heads -/

namespace Tree

variable {P : Primitives} {t : Tree} {head : AuditorTreeHead} {keys : List (Octets × Octets)}
  {root : Octets}

/-- What an auditor head must meet to be accepted, besides the server's agreeing on
the root: a configured auditor signed it over the root, the strings to be signed
exist, and it does not rewind the auditor. -/
structure HonestHead (P : Primitives) (t : Tree) (head : AuditorTreeHead)
    (keys : List (Octets × Octets)) (root : Octets) : Prop where
  constructible : ∀ k ∈ keys, ∃ tbs, constructAuditorTreeHeadTbs P t.config k.1 head.treeSize
    (asU64 head.timestamp) root = .ok tbs
  signed : ∃ k ∈ keys, ∃ tbs, constructAuditorTreeHeadTbs P t.config k.1 head.treeSize
    (asU64 head.timestamp) root = .ok tbs ∧ P.verifyData k.2 tbs head.signature = .ok ()
  fresh : ∀ k ∈ keys, ∀ existing, t.auditors.lookup k.1 = some existing →
    existing.treeSize ≤ head.treeSize ∧ existing.timestamp ≤ head.timestamp

/-- The loop over the keys finds an auditor that signed the head. -/
theorem matchAuditor_eq_ok (hc : ∀ k ∈ keys, ∃ tbs, constructAuditorTreeHeadTbs P t.config k.1
      head.treeSize (asU64 head.timestamp) root = .ok tbs)
    (hs : ∃ k ∈ keys, ∃ tbs, constructAuditorTreeHeadTbs P t.config k.1 head.treeSize
      (asU64 head.timestamp) root = .ok tbs ∧ P.verifyData k.2 tbs head.signature = .ok ()) :
    ∃ k ∈ keys, matchAuditor P t.config head root keys = .ok (some k.1) := by
  induction keys with
  | nil => simp at hs
  | cons k keys ih =>
    obtain ⟨tbs, htbs⟩ := hc k List.mem_cons_self
    rw [matchAuditor, htbs, Result.ok_bind]
    cases hv : P.verifyData k.2 tbs head.signature with
    | ok u => exact ⟨k, List.mem_cons_self, rfl⟩
    | error e =>
      obtain ⟨k', hk', tbs', htbs', hv'⟩ := hs
      have hmem : k' ∈ keys := (List.mem_cons.1 hk').resolve_left (by
        rintro rfl
        rw [htbs] at htbs'
        cases htbs'
        rw [hv] at hv'
        exact absurd hv' (by simp))
      obtain ⟨k'', hk'', h⟩ := ih (fun k hk => hc k (List.mem_cons_of_mem _ hk))
        ⟨k', hmem, tbs', htbs', hv'⟩
      exact ⟨k'', List.mem_cons_of_mem _ hk'', h⟩

/-- **An honest head is accepted** when the server reads the root it was signed
over. -/
theorem setAuditorHead_isOk {leaves : List Octets} (hs : Holds t.store leaves)
    (ht : t.treeSize = leaves.length) (hn : leaves.length ≤ 2 ^ 62) (h₀ : 0 < head.treeSize)
    (hm : head.treeSize ≤ leaves.length) (hroot : LogTree.getRoot P t.store head.treeSize = .ok root)
    (hh : HonestHead P t head keys root) :
    ∃ k ∈ keys, ∃ consistency, setAuditorHead P t head keys = .ok { t with
      auditors := (k.1, ⟨head.treeSize, head.timestamp, head.signature, root, consistency⟩) ::
        t.auditors.filter fun a => a.1 != k.1 } := by
  obtain ⟨k, hk, hmatch⟩ := matchAuditor_eq_ok hh.constructible hh.signed
  have hreg : checkRegression head (t.auditors.lookup k.1) = .ok () := by
    cases hl : t.auditors.lookup k.1 with
    | none => rfl
    | some existing =>
      obtain ⟨h₁, h₂⟩ := hh.fresh k hk existing hl
      rw [checkRegression, ensure_of h₁, Result.ok_bind, ensure_of h₂]
  rw [setAuditorHead, ht, ensure_of hm, Result.ok_bind, hroot, Result.ok_bind, hmatch,
    Result.ok_bind, okOr_some, Result.ok_bind, hreg, Result.ok_bind]
  rcases hm.lt_or_eq with hlt | heq
  · obtain ⟨elements, he⟩ := LogTree.getConsistencyProof_isOk (P := P) hs h₀ hlt hn
    rw [if_pos hlt, he]
    exact ⟨k, hk, elements, rfl⟩
  · rw [if_neg (by omega)]
    exact ⟨k, hk, [], rfl⟩

end Tree

/-- **Roots of earlier sizes.**  A server reads the root of its first `m` leaves, and
accepts every honest auditor head of size `m`, exactly when `m` is readable. -/
theorem historical_root_iff {P : Primitives} (hP : Function.Injective P.sha256) {t : Tree}
    {leaves : List Octets} (hs : LogTree.Filled P t.store leaves)
    (hleaf : ∀ l ∈ leaves, IsLogLeaf P l) (ht : t.treeSize = leaves.length)
    (hn : leaves.length ≤ 2 ^ 62) {m : ℕ} (h₀ : 1 ≤ m) (hm : m ≤ leaves.length) :
    (LogTree.getRoot P t.store m = .ok (logRoot P (leaves.take m)) ∧
      ∀ head keys, head.treeSize = m →
        Tree.HonestHead P t head keys (logRoot P (leaves.take m)) →
        ∃ t', Tree.setAuditorHead P t head keys = .ok t') ↔
    HistoricallyReadable m leaves.length := by
  have hholds := hs.holds hn
  refine ⟨fun h => (LogTree.getRoot_historical_iff hholds hP hleaf h₀ hm hn).1 h.1,
    fun h => ?_⟩
  have hroot := LogTree.getRoot_of_readable (P := P) hholds h₀ hm hn h
  refine ⟨hroot, ?_⟩
  rintro head keys rfl hhead
  obtain ⟨k, -, consistency, hok⟩ := Tree.setAuditorHead_isOk hholds ht hn h₀ hm hroot hhead
  exact ⟨_, hok⟩

/-! ### A log of four leaves -/

theorem fourEntries_leaf : ∀ l ∈ fourEntries.map (LogTree.entryLeaf Primitives.ideal),
    IsLogLeaf Primitives.ideal l := by
  intro l hl
  obtain ⟨e, he, rfl⟩ := List.mem_map.1 hl
  have hroot : ∀ e ∈ fourEntries, e.2 = Octets.zeros 32 := by decide
  exact ⟨e.1, e.2, by rw [hroot e he, Octets.length_zeros], rfl⟩

/-- A configuration with one auditor, whose key is `[7]`. -/
def auditedConfig : PrivateConfig := ⟨1, 3, [], [], [], [[7]], some [7], 0, 0, 0, 0, 0, none, none⟩

/-- The server of a store with four log entries. -/
def serverOfFour (s : Store) : Tree := ⟨s, auditedConfig, some ⟨4, 0, []⟩, []⟩

theorem auditorTreeHeadTbs_inj {config root root' tbs : Octets} {n : ℕ} {ts : U64}
    (h : auditorTreeHeadTbs config n ts root = .ok tbs)
    (h' : auditorTreeHeadTbs config n ts root' = .ok tbs) : root = root' := by
  simp only [auditorTreeHeadTbs, Result.bind_eq_ok, ensure_eq_ok, Result.pure_eq,
    Except.ok.injEq] at h h'
  obtain ⟨-, -, rfl⟩ := h
  obtain ⟨-, -, h'⟩ := h'
  exact (List.append_cancel_left h').symm

/-- A head of the ideal auditor, which signs the root it is given. -/
theorem exists_idealHead (s : Store) (m : ℕ) {root : Octets} (hlen : root.length = 32) :
    ∃ config tbs, serializeConfiguration Primitives.ideal auditedConfig (some [7]) = .ok config ∧
      auditorTreeHeadTbs config m (asU64 0) root = .ok tbs ∧
      Tree.HonestHead Primitives.ideal (serverOfFour s) ⟨m, 0, [7] ++ tbs⟩ [([7], [7])] root := by
  obtain ⟨config, hconfig⟩ : ∃ c, serializeConfiguration Primitives.ideal auditedConfig
    (some [7]) = .ok c := ⟨_, rfl⟩
  obtain ⟨tbs, htbs⟩ : ∃ tbs, auditorTreeHeadTbs config m (asU64 0) root = .ok tbs := by
    rw [auditorTreeHeadTbs, ensure_of hlen]
    exact ⟨_, rfl⟩
  have hcons : constructAuditorTreeHeadTbs Primitives.ideal auditedConfig [7] m (asU64 0) root =
      .ok tbs := by
    rw [constructAuditorTreeHeadTbs, hconfig, Result.ok_bind, htbs]
  refine ⟨config, tbs, hconfig, htbs, ?_, ?_, ?_⟩
  · rintro k hk
    rw [List.mem_singleton.1 hk]
    exact ⟨tbs, hcons⟩
  · exact ⟨_, List.mem_singleton_self _, tbs, hcons, ensure_of rfl _⟩
  · simp [serverOfFour]

/-- **Of four entries, the root of the first three is misread**, and an auditor that
signed the true one is turned away. -/
theorem third_of_four_misread : ∃ r s root head,
    Db.Runs (LogTree.batchAppend Primitives.ideal 0 fourEntries) Store.empty r s ∧
      root = logRoot Primitives.ideal
        ((fourEntries.map (LogTree.entryLeaf Primitives.ideal)).take 3) ∧
      LogTree.getRoot Primitives.ideal s 3 ≠ .ok root ∧
      head.treeSize = 3 ∧
      Tree.HonestHead Primitives.ideal (serverOfFour s) head [([7], [7])] root ∧
      ∀ t', Tree.setAuditorHead Primitives.ideal (serverOfFour s) head [([7], [7])] ≠ .ok t' := by
  obtain ⟨r, s, hrun, hfilled⟩ := exists_fourEntries_store
  have hmisread : LogTree.getRoot Primitives.ideal s 3 ≠ .ok (logRoot Primitives.ideal
      ((fourEntries.map (LogTree.entryLeaf Primitives.ideal)).take 3)) := fun h => by
    have := (LogTree.getRoot_historical_iff (hfilled.holds (by simp [fourEntries]))
      Primitives.ideal_sha256_injective fourEntries_leaf (m := 3) (by decide) (by decide)
      (by simp [fourEntries])).1 h
    revert this
    decide
  generalize hroot : logRoot Primitives.ideal
    ((fourEntries.map (LogTree.entryLeaf Primitives.ideal)).take 3) = root at hmisread ⊢
  have hlen : root.length = 32 := by
    rw [← hroot]
    refine length_logRoot fun l hl => ?_
    obtain ⟨ts, r, -, rfl⟩ := fourEntries_leaf l (List.mem_of_mem_take hl)
    exact length_logLeafValue _ ts r
  obtain ⟨config, tbs, hconfig, htbs, hhonest⟩ := exists_idealHead s 3 hlen
  refine ⟨r, s, root, ⟨3, 0, [7] ++ tbs⟩, hrun, rfl, hmisread, rfl, hhonest, ?_⟩
  intro t' h
  simp only [Tree.setAuditorHead, Result.bind_eq_ok] at h
  obtain ⟨-, -, root', hroot', verified, hmatch, auditor, haud, -⟩ := h
  rw [Tree.matchAuditor, Result.bind_eq_ok] at hmatch
  obtain ⟨tbs', htbs', hmatch⟩ := hmatch
  have htbs'' : auditorTreeHeadTbs config 3 (asU64 0) root' = .ok tbs' := by
    have : constructAuditorTreeHeadTbs Primitives.ideal auditedConfig [7] 3 (asU64 0) root' =
      .ok tbs' := htbs'
    rwa [constructAuditorTreeHeadTbs, hconfig, Result.ok_bind] at this
  by_cases he : [7] ++ tbs = [7] ++ tbs'
  · obtain rfl := List.append_cancel_left he
    rw [auditorTreeHeadTbs_inj htbs htbs''] at hmisread
    exact hmisread hroot'
  · have : Primitives.ideal.verifyData [7] tbs' ([7] ++ tbs) =
      fail "Verification failed" := if_neg he
    rw [this] at hmatch
    obtain rfl := Except.ok.inj hmatch
    exact absurd haud (by simp [okOr])

/-- The first two can still be read. -/
theorem historical_root_two_of_four : ∃ s, LogTree.getRoot Primitives.ideal s 2 =
    .ok (logRoot Primitives.ideal
      ((fourEntries.map (LogTree.entryLeaf Primitives.ideal)).take 2)) := by
  obtain ⟨r, s, -, hfilled⟩ := exists_fourEntries_store
  exact ⟨s, ((historical_root_iff Primitives.ideal_sha256_injective (t := serverOfFour s) hfilled
    fourEntries_leaf rfl (by simp [fourEntries]) (m := 2) (by decide) (by decide)).2
    (by decide)).1⟩

end KeyTransparency
