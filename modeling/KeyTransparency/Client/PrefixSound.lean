/-
# What a prefix proof proves

A result that leads to the root of a map says what the map holds: an inclusion was
verified with the commitment of the key, and anything else means that the key is not in
the map (`computeRootFromResult_sound`).  Conversely every list of keys has a proof
(`PrefixProof.exists_proves`), as the soundness results need when they are to be shown
sharp.
-/

import KeyTransparency.Client.LadderProof

namespace KeyTransparency

open SparseMerkle

section

variable {P : Primitives} {contents : Octets → Option Octets} {key : Octets}

theorem prefixLeaves_digest (p : List Bool) (v : Octets)
    (h : prefixLeaves P contents p = some v) : v.length = 32 := by
  obtain ⟨c, -, rfl⟩ := Option.map_eq_some_iff.1 h
  exact P.length_sha256 _

theorem prefixLeaves_ne_zero (hZ : ∀ m, P.sha256 m ≠ zeroValue) (p : List Bool) (v : Octets)
    (h : prefixLeaves P contents p = some v) : v ≠ zeroValue := by
  obtain ⟨c, -, rfl⟩ := Option.map_eq_some_iff.1 h
  exact hZ _

/-- **Soundness of a fold.**  A fold along a key's path that leads to the root of a map
started from the value of the subtree at the path's end. -/
theorem fold_prefixRoot_binding (hP : Function.Injective P.sha256)
    (hZ : ∀ m, P.sha256 m ≠ zeroValue) {level : ℕ} {ss : List Octets} {start : Octets}
    (hstart : start.length = 32) (hl : level ≤ 256)
    (h : prefixRoot P contents =
      fold (parentHash P) zeroValue ((keyBits key).take level) ss start) :
    start = hash (parentHash P) zeroValue (prefixLeaves P contents) (256 - level)
      ((keyBits key).take level) := by
  have hlen : ((keyBits key).take level).length = level := by
    rw [List.length_take, length_keyBits, Nat.min_eq_left hl]
  have hbind := Scheme.fold_hash_binding (S := prefixScheme P hP hZ) (p := []) (n := 256) hstart
    prefixLeaves_digest (hlen.le.trans hl) h.symm
  rw [hlen, List.nil_append] at hbind
  exact hbind

/-- **Soundness of an inclusion.** -/
theorem inclusion_sound (hP : Function.Injective P.sha256) (hZ : ∀ m, P.sha256 m ≠ zeroValue)
    (hkey : IsKey key) {comm : Octets} {ss : List Octets}
    (h : prefixRoot P contents =
      fold (parentHash P) zeroValue ((keyBits key).take 256) ss (leafHash P key comm)) :
    contents key = some comm := by
  have hbind := fold_prefixRoot_binding hP hZ (P.length_sha256 _) le_rfl h
  rw [List.take_of_length_le (length_keyBits key).le, Nat.sub_self, SparseMerkle.hash, value,
    prefixLeaves_keyBits hkey] at hbind
  cases hc : contents key with
  | none =>
    rw [hc] at hbind
    exact absurd hbind (hZ _)
  | some comm' =>
    rw [hc] at hbind
    rw [(leafHash_inj hP rfl hbind).2]

/-- **Soundness of a non-inclusion.** -/
theorem absence_sound (hP : Function.Injective P.sha256) (hZ : ∀ m, P.sha256 m ≠ zeroValue)
    (hkey : IsKey key) {level : ℕ} (hl : level ≤ 256) {ss : List Octets}
    (h : prefixRoot P contents =
      fold (parentHash P) zeroValue ((keyBits key).take level) ss zeroValue) :
    contents key = none := by
  have hbind := fold_prefixRoot_binding hP hZ length_zeroValue hl h
  have hnone := Scheme.value_eq_none_of_hash (S := prefixScheme P hP hZ)
    (prefixLeaves_ne_zero hZ) hbind.symm
  have hleaf := value_eq_none_iff.1 hnone ((keyBits key).drop level) (by simp)
  rw [List.take_append_drop, prefixLeaves_keyBits hkey, Option.map_eq_none_iff] at hleaf
  exact hleaf

/-- **Soundness of a result.**  When a result leads to the root of a map, an inclusion
was verified with what the map holds for the key, and any other result means that it
does not hold the key. -/
theorem computeRootFromResult_sound (hP : Function.Injective P.sha256)
    (hZ : ∀ m, P.sha256 m ≠ zeroValue) (hkey : IsKey key) {pp : PrefixProof}
    {idx offset used : ℕ} {commitment : Option Octets} {r : PrefixSearchResult}
    (hr : pp.results[idx]? = some r)
    (h : PrefixVerifier.computeRootFromResult P pp idx key commitment offset =
      .ok (prefixRoot P contents, used)) :
    (r.resultType = 1 → commitment ≠ none ∧ contents key = commitment) ∧
      (r.resultType ≠ 1 → contents key = none) := by
  obtain ⟨r', start, level, hr', hdepth, hstart, -, -, hroot, -⟩ :=
    PrefixVerifier.computeRootFromResult_eq_ok.1 h
  obtain rfl := Option.some.inj (hr.symm.trans hr')
  rw [PrefixVerifier.startOf.eq_def] at hstart
  split at hstart
  · rename_i htype
    obtain ⟨comm, hcomm, hstart⟩ := Result.bind_eq_ok.1 hstart
    obtain ⟨rfl, rfl⟩ := Prod.mk.inj (Except.ok.inj hstart)
    rw [okOr_eq_ok.1 hcomm]
    exact ⟨fun _ => ⟨Option.some_ne_none _, inclusion_sound hP hZ hkey hroot⟩,
      fun hne => absurd htype hne⟩
  · rename_i htype
    obtain ⟨_, -, hstart⟩ := Result.bind_eq_ok.1 hstart
    obtain ⟨_, -, hstart⟩ := Result.bind_eq_ok.1 hstart
    obtain ⟨rfl, rfl⟩ := Prod.mk.inj (Except.ok.inj hstart)
    exact ⟨fun hone => by omega, fun _ => absence_sound hP hZ hkey hdepth hroot⟩
  · rename_i htype
    obtain ⟨rfl, rfl⟩ := Prod.mk.inj (Except.ok.inj hstart)
    exact ⟨fun hone => by omega, fun _ => absence_sound hP hZ hkey hdepth hroot⟩
  · cases hstart

/-! ### Proofs of a map -/

/-- The values beside a key's path, as far down as a depth. -/
def valuesBeside (P : Primitives) (contents : Octets → Option Octets) (key : Octets) (depth : ℕ) :
    List Octets :=
  (List.range depth).map fun l => SparseMerkle.hash (parentHash P) zeroValue
    (prefixLeaves P contents) (256 - (l + 1)) ((keyBits key).take l ++ [!(keyBits key).getD l false])

theorem fold_valuesBeside {depth : ℕ} (hd : depth ≤ 256)
    (hne : ∀ l < depth, value (parentHash P) zeroValue (prefixLeaves P contents) (256 - l)
      ((keyBits key).take l) ≠ none) :
    fold (parentHash P) zeroValue ((keyBits key).take depth) (valuesBeside P contents key depth)
      (SparseMerkle.hash (parentHash P) zeroValue (prefixLeaves P contents) (256 - depth)
        ((keyBits key).take depth)) = prefixRoot P contents := by
  have hbeside : ∀ l, 0 ≤ l → l < depth → (valuesBeside P contents key depth).getD l zeroValue =
      SparseMerkle.hash (parentHash P) zeroValue (prefixLeaves P contents) (256 - (l + 1))
        ((keyBits key).take l ++ [!(keyBits key).getD l false]) := fun l _ hl => by
    rw [List.getD_eq_getElem _ _ (by simpa [valuesBeside] using hl)]
    simp [valuesBeside]
  have h := fold_hash (length_keyBits key) (Nat.zero_le depth) hd hbeside
    fun l _ hl => exists_leaf (hne l hl)
  simpa [prefixRoot] using h

/-- **Everything that a map says of a key can be proved**: by an inclusion, or by the
first empty subtree on the key's path. -/
theorem ProofResult.exists_proves (hkey : IsKey key) :
    ∃ r : ProofResult, r.Proves P contents key := by
  cases hc : contents key with
  | some comm =>
    have hleaf : prefixLeaves P contents (keyBits key) = some (leafHash P key comm) := by
      rw [prefixLeaves_keyBits hkey, hc, Option.map_some]
    refine ⟨⟨valuesBeside P contents key 256, some comm, 1, none, none, 256⟩, ?_,
      by simp [valuesBeside], fun {proof idx offset} hs => ?_⟩
    · rw [ProofResult.Says, hc]
      exact ⟨rfl, rfl⟩
    · have hfold := fold_valuesBeside (P := P) le_rfl
        fun l hl hnone => by
          have := value_eq_none_iff.1 hnone ((keyBits key).drop l) (by simp)
          rw [List.take_append_drop, hleaf] at this
          cases this
      rw [List.take_of_length_le (length_keyBits key).le, Nat.sub_self, SparseMerkle.hash, value,
        hleaf, Option.getD_some] at hfold
      refine PrefixVerifier.computeRootFromResult_eq_ok.2 ⟨_, leafHash P key comm, 256, hs.result,
        le_rfl, rfl, hs.length, by rw [hkey.length]; decide, ?_, rfl⟩
      have hel := hs.elements
      dsimp only at hel
      dsimp only [ProofResult.searchResult]
      rw [hel, List.take_of_length_le (length_keyBits key).le]
      exact hfold.symm
  | none =>
    have hempty : ∃ d, d ≤ 256 ∧ value (parentHash P) zeroValue (prefixLeaves P contents) (256 - d)
        ((keyBits key).take d) = none := by
      refine ⟨256, le_rfl, ?_⟩
      rw [List.take_of_length_le (length_keyBits key).le, Nat.sub_self, value,
        prefixLeaves_keyBits hkey, hc, Option.map_none]
    classical
    obtain ⟨hd, hnone⟩ := Nat.find_spec hempty
    have hbefore := fun l (hl : l < Nat.find hempty) => Nat.find_min hempty hl
    generalize Nat.find hempty = d at hd hnone hbefore
    refine ⟨⟨valuesBeside P contents key d, none, 3, none, none, d⟩, ?_, by simp [valuesBeside],
      fun {proof idx offset} hs => ?_⟩
    · rw [ProofResult.Says, hc]
      exact ⟨.inr rfl, rfl⟩
    · have hfold := fold_valuesBeside (P := P) hd
        fun l hl hl' => hbefore l hl ⟨by omega, hl'⟩
      rw [SparseMerkle.hash, hnone, Option.getD_none] at hfold
      refine PrefixVerifier.computeRootFromResult_eq_ok.2 ⟨_, zeroValue, d, hs.result, hd, rfl,
        hs.length, by rw [hkey.length]; exact hd, ?_, rfl⟩
      have hel := hs.elements
      dsimp only at hel
      dsimp only [ProofResult.searchResult]
      rw [hel]
      exact hfold.symm

/-- **Every list of keys has a proof.** -/
theorem PrefixProof.exists_proves {keys : List Octets} (hkeys : ∀ key ∈ keys, IsKey key) :
    ∃ pp : PrefixProof, pp.Proves P contents keys := by
  have hall : ∀ keys : List Octets, (∀ key ∈ keys, IsKey key) →
      ∃ found, List.Forall₂ (ProofResult.Proves P contents) keys found := by
    intro keys
    induction keys with
    | nil => exact fun _ => ⟨[], .nil⟩
    | cons key keys ih =>
      intro hkeys
      obtain ⟨r, hr⟩ := ProofResult.exists_proves (P := P)
        (hkeys key List.mem_cons_self)
      obtain ⟨found, hfound⟩ := ih fun k hk => hkeys k (List.mem_cons_of_mem _ hk)
      exact ⟨r :: found, .cons hr hfound⟩
  obtain ⟨found, hfound⟩ := hall keys hkeys
  exact ⟨_, PrefixProof.provesFrom_of_found hfound []⟩

/-! ### Results and maps -/

/-- **A result that leads to the root of a map is true of the map**, whatever the proof
holds beside it: an inclusion was verified with the commitment of the key, and a
non-inclusion means that the key has none. -/
theorem result_true_of_map (P : Primitives) (hP : Function.Injective P.sha256)
    (hZ : ∀ m, P.sha256 m ≠ zeroValue) (contents : Octets → Option Octets) (key : Octets)
    (hkey : IsKey key) (pp : PrefixProof) (idx offset used : ℕ) (commitment : Option Octets)
    (h : PrefixVerifier.computeRootFromResult P pp idx key commitment offset =
      .ok (prefixRoot P contents, used)) :
    ∃ r, pp.results[idx]? = some r ∧
      (r.resultType = 1 → ∃ c, commitment = some c ∧ contents key = some c) ∧
      (r.resultType = 2 ∨ r.resultType = 3 → contents key = none) := by
  obtain ⟨r, -, -, hr, -⟩ := PrefixVerifier.computeRootFromResult_eq_ok.1 h
  obtain ⟨hincluded, habsent⟩ := computeRootFromResult_sound hP hZ hkey hr h
  refine ⟨r, hr, fun htype => ?_, fun htype => habsent (by omega)⟩
  obtain ⟨hne, hcontents⟩ := hincluded htype
  obtain ⟨c, rfl⟩ := Option.ne_none_iff_exists'.1 hne
  exact ⟨c, rfl, hcontents⟩

/-- A map of one key, with an inclusion proof for it. -/
theorem result_true_of_map_singleton : ∃ (pp : PrefixProof) (used : ℕ),
    PrefixVerifier.computeRootFromResult Primitives.ideal pp 0 (Octets.zeros 32) (some [7]) 0 =
      .ok (prefixRoot Primitives.ideal
        (fun k => if k = Octets.zeros 32 then some [7] else none), used) ∧
    ∃ r, pp.results[0]? = some r ∧
      (r.resultType = 1 → ∃ c, some [7] = some c ∧
        (fun k => if k = Octets.zeros 32 then some [7] else none) (Octets.zeros 32) = some c) ∧
      (r.resultType = 2 ∨ r.resultType = 3 →
        (fun k => if k = Octets.zeros 32 then some [7] else none) (Octets.zeros 32) =
          (none : Option Octets)) := by
  have hkey : IsKey (Octets.zeros 32) := ⟨by decide, by decide⟩
  obtain ⟨pp, r, -, -, hroot, -⟩ : ∃ pp : PrefixProof, pp.Proves Primitives.ideal
      (fun k => if k = Octets.zeros 32 then some [7] else none) [Octets.zeros 32] :=
    PrefixProof.exists_proves (List.forall_mem_singleton.2 hkey)
  exact ⟨pp, r.depth, hroot, result_true_of_map Primitives.ideal Primitives.ideal_sha256_injective
    Primitives.ideal_sha256_ne_zeros _ _ hkey pp 0 0 r.depth _ hroot⟩

end

end KeyTransparency
