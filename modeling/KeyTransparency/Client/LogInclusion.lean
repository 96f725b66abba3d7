/-
# What an inclusion proof proves

A verifier without retained values that derives the root of a log was given the hashes of
the log's own entries, and captured the values of the log's own subtrees
(`log_inclusion_sound`).  The positions it is given must be distinct ones of the log, and
the hashes digests: of a position given twice or beyond the log only one hash is read or
none, and a shorter hash can be completed from the element beside it.
-/

import KeyTransparency.Client.InclusionAgreement

namespace KeyTransparency

open InOrder LogMath MerkleLog

namespace LogVerifier

/-! ### Sizes beyond the node ids -/

section

variable {P : Primitives} {n : ℕ}

/-- The climb never gets above level 62, where it falls back to node 0. -/
theorem climbsTo_high {target : ℕ} (htarget : target = merkleRoot n) (hroot : 63 ≤ height n)
    (hn : n < 2 ^ 64) : ∀ {fuel k i : ℕ}, k ≤ 62 → climbsTo target n fuel (node k i) = .error .diverge
  | 0, _, _, _ => rfl
  | fuel + 1, k, i, hk => by
    have hne : node k i ≠ merkleRoot n := by
      rw [merkleRoot_eq hn]
      intro h
      have := (node_inj h).1
      omega
    rw [climbsTo, if_neg (htarget ▸ hne), if_neg hne]
    rcases hk.lt_or_eq with hlt | rfl
    · rw [parent_node hlt]
      exact climbsTo_high htarget hroot hn hlt
    · rw [parent, level_node (by omega), if_pos le_rfl]
      have h : climbsTo target n fuel (node 0 0) = .error .diverge :=
        climbsTo_high htarget hroot hn (Nat.zero_le _)
      rwa [node_zero] at h

theorem height_high (h : 2 ^ 62 < n) : 63 ≤ height n := by
  by_contra hlow
  have hle := le_two_pow_height n
  have hpow : (2 : ℕ) ^ height n ≤ 2 ^ 62 := Nat.pow_le_pow_right (by omega) (by omega)
  omega

/-- **In a log of more than `2 ^ 62` leaves** the verifier does not find its way from a leaf to
the root. -/
theorem calculateRootCapturing_diverges (hn : n < 2 ^ 64) (hhigh : 2 ^ 62 < n) {positions : List ℕ}
    {hashes elements : List Octets} {retained : NodeMap} {wanted : List ℕ}
    (hlen : positions.length = hashes.length) (hne : positions ≠ []) :
    calculateRootCapturing P positions hashes n elements retained wanted = .error .diverge := by
  have hroot := height_high hhigh
  obtain ⟨k, hk⟩ : ∃ k, height n = k + 1 := ⟨height n - 1, by omega⟩
  cases positions with
  | nil => exact absurd rfl hne
  | cons p ps =>
    cases hashes with
    | nil => cases hlen
    | cons v vs =>
      have hnone := lookup_leafNodes_internal ((p :: ps).zip (v :: vs)) k 0
      rw [leafNodes, ← hk, ← merkleRoot_eq hn] at hnone
      have hleaf : p * 2 = node 0 p := by
        rw [node_zero, Nat.mul_comm]
      simp only [calculateRootCapturing, ensure_of hlen, Result.ok_bind, if_neg (show n ≠ 0 by omega)]
      rw [recursiveHash]
      simp only [hnone]
      rw [List.zip_cons_cons, List.map_cons, isAncestor]
      simp only [hleaf, climbsTo_high rfl hroot hn (Nat.zero_le 62), Result.error_bind]

/-- **A log of more than `2 ^ 62` leaves** is beyond the node ids: a recomputation that ends was
given no leaf. -/
theorem calculateRootCapturing_high (hn : n < 2 ^ 64) (hhigh : 2 ^ 62 < n) {indices : List ℕ}
    {hashes elements : List Octets} {retained : NodeMap} {wanted : List ℕ} {root : Octets}
    {captured : NodeMap}
    (h : calculateRootCapturing P indices hashes n elements retained wanted =
      .ok (root, captured)) : indices = [] := by
  by_contra hne
  have hlen : indices.length = hashes.length := by
    simp only [calculateRootCapturing, Result.bind_eq_ok, ensure_eq_ok] at h
    obtain ⟨-, hlen, -⟩ := h
    exact hlen
  rw [calculateRootCapturing_diverges hn hhigh hlen hne] at h
  cases h

/-- Without leaves the verifier takes the only element for the root. -/
theorem calculateRootCapturing_nil (h₀ : 0 < n) {hashes elements : List Octets} {wanted : List ℕ}
    {root : Octets} {captured : NodeMap}
    (h : calculateRootCapturing P [] hashes n elements (fun _ => none) wanted =
      .ok (root, captured)) :
    captured = record wanted (fun _ => none) (merkleRoot n) root := by
  rw [calculateRootCapturing, if_neg h₀.ne', List.zip_nil_left, List.map_nil] at h
  simp only [Result.bind_eq_ok, ensure_eq_ok] at h
  obtain ⟨-, -, ⟨hash, rest, captured'⟩, hrec, -, -, h⟩ := h
  rw [recursiveHash] at hrec
  simp only [List.lookup_nil, isAncestor, Result.ok_bind, Bool.false_eq_true, if_false,
    Result.bind_eq_ok] at hrec
  obtain ⟨⟨v, rest'⟩, -, hrec⟩ := hrec
  obtain ⟨rfl, rfl, rfl⟩ := by simpa using Except.ok.inj hrec
  obtain ⟨rfl, rfl⟩ := Prod.mk.inj (Except.ok.inj h)
  rfl

end

/-! ### Inclusion -/

/-- **What the root of a log proves**: every hash that was given is that of the log's entry at
its position, of no other entry, and every captured value that of the log's subtree. -/
def InclusionSound (P : Primitives) (entries : List (U64 × Octets)) (positions : List ℕ)
    (hashes elements : List Octets) (wanted : List ℕ) : Prop :=
  ∀ captured, calculateRootCapturing P positions hashes entries.length elements (fun _ => none)
      wanted = .ok (logRoot P (entries.map (LogTree.entryLeaf P)), captured) →
    (∀ p v, (p, v) ∈ positions.zip hashes → ∃ e, entries[p]? = some e ∧
      ∀ e', v = LogTree.entryLeaf P e' ↔ e' = e) ∧
    ∀ id v, captured id = some v → ∃ k i, id = node k i ∧ i * 2 ^ k < entries.length ∧
      v = value (logPar P) (leafAt (entries.map (LogTree.entryLeaf P))) entries.length k i

/-- What the client captured of a log has its value there. -/
theorem capturedValues_value {P : Primitives} {leaves : List Octets} {indices wanted : List ℕ}
    (h₀ : 0 < leaves.length) {id : ℕ} {v : Octets}
    (h : capturedValues P leaves indices wanted id = some v) :
    ∃ k i, id = node k i ∧ i * 2 ^ k < leaves.length ∧
      v = value (logPar P) (leafAt leaves) leaves.length k i := by
  obtain ⟨k, i, rfl⟩ := exists_eq_node id
  rw [capturedValues, capture_map] at h
  split_ifs at h with hmem
  · refine ⟨k, i, rfl, ?_, (Option.some.inj h).symm⟩
    rcases (mem_walk_above (by simpa using h₀)).1 hmem.2 with heq | hlt
    · obtain ⟨rfl, rfl⟩ := Prod.mk.inj heq
      simpa using h₀
    · exact hlt.2.2.2.1

theorem givenAt_of_mem : ∀ {indices : List ℕ} {hashes : List Octets}, indices.Nodup →
    ∀ {p : ℕ} {v : Octets}, (p, v) ∈ indices.zip hashes → givenAt (indices.zip hashes) p = some v
  | [], _, _, _, _, h => by simp at h
  | _ :: _, [], _, _, _, h => by simp at h
  | q :: indices, w :: hashes, hnodup, p, v, h => by
    obtain ⟨hq, hnodup⟩ := List.nodup_cons.1 hnodup
    rw [List.zip_cons_cons] at h ⊢
    rw [givenAt, List.lookup_cons]
    rcases List.mem_cons.1 h with heq | h
    · obtain ⟨rfl, rfl⟩ := Prod.mk.inj heq
      simp
    · have hne : (p == q) = false :=
        beq_eq_false_iff_ne.2 fun e => hq (e ▸ (List.of_mem_zip h).1)
      rw [hne]
      exact givenAt_of_mem hnodup h

end LogVerifier

theorem LogTree.entryLeaf_inj {P : Primitives} (hP : Function.Injective P.sha256)
    {e e' : U64 × Octets} (h : entryLeaf P e = entryLeaf P e') : e = e' := by
  obtain ⟨hts, hroot⟩ := logLeafValue_inj hP e.1.isLt e'.1.isLt h
  exact Prod.ext (Fin.ext hts) hroot

/-- **Inclusion proofs are sound.**  Whatever elements come with them, distinct positions
of a log and digests that lead to the log's root are entries of the log, and every
captured value is that of a subtree of the log. -/
theorem log_inclusion_sound (P : Primitives) (hP : Function.Injective P.sha256)
    (entries : List (U64 × Octets)) (h₀ : entries ≠ []) (hn : entries.length < 2 ^ 64)
    (positions : List ℕ) (hdistinct : positions.Nodup)
    (hbelow : ∀ p ∈ positions, p < entries.length) (hashes : List Octets)
    (hdigest : ∀ v ∈ hashes, v.length = 32) (elements : List Octets) (wanted : List ℕ) :
    LogVerifier.InclusionSound P entries positions hashes elements wanted := by
  intro captured h
  have hpos := List.length_pos_iff.2 h₀
  obtain ⟨leaves, hleaves⟩ : ∃ leaves, leaves = entries.map (LogTree.entryLeaf P) := ⟨_, rfl⟩
  have hlength : entries.length = leaves.length := by rw [hleaves, List.length_map]
  have hne : leaves ≠ [] := by
    rw [hleaves, Ne, List.map_eq_nil_iff]
    exact h₀
  have hleaf : ∀ l ∈ leaves, l.length = 32 := by
    rw [hleaves]
    rintro l hl
    obtain ⟨e, -, rfl⟩ := List.mem_map.1 hl
    exact length_logLeafValue P _ _
  by_cases hsmall : entries.length ≤ 2 ^ 62
  · rw [← hleaves, hlength] at h ⊢
    rw [hlength] at hsmall hbelow
    have hlen : positions.length = hashes.length :=
      ensure_eq_ok.1 (Result.bind_eq_ok.1 h).choose_spec.1
    constructor
    · intro p v hmem
      have hp := hbelow p (List.of_mem_zip hmem).1
      have hv := LogVerifier.calculateRootCapturing_given hP hsmall hne hleaf hlen hbelow hdigest h
        (LogVerifier.givenAt_of_mem hdistinct hmem)
      rw [leafAt, List.getD_eq_getElem?_getD, hleaves, List.getElem?_map,
        List.getElem?_eq_getElem (hlength ▸ hp)] at hv
      refine ⟨_, List.getElem?_eq_getElem (hlength ▸ hp), fun e' => ⟨fun h' => ?_, ?_⟩⟩
      · exact (LogTree.entryLeaf_inj hP (hv.trans h')).symm
      · rintro rfl
        exact hv.symm
    · intro id v hv
      rw [LogVerifier.calculateRootCapturing_captured hP hsmall hne hleaf hlen hbelow hdigest h]
        at hv
      exact LogVerifier.capturedValues_value (hlength ▸ hpos) hv
  · obtain rfl := LogVerifier.calculateRootCapturing_high hn (by omega) h
    refine ⟨fun p v hmem => by simp at hmem, fun id v hv => ?_⟩
    rw [LogVerifier.calculateRootCapturing_nil hpos h, LogVerifier.record] at hv
    split_ifs at hv
    by_cases hid : id = merkleRoot entries.length
    · rw [hid, Function.update_self] at hv
      refine ⟨height entries.length, 0, by rw [hid, merkleRoot_eq hn], by simpa using hpos, ?_⟩
      rw [← Option.some.inj hv, ← hleaves, logRoot_of_ne_nil hne, hlength]
      rfl
    · rw [Function.update_of_ne hid] at hv
      cases hv

theorem logRoot_pair (P : Primitives) (a b : Octets) :
    logRoot P [a, b] = logParentValue P a true b true := rfl

theorem calculateRootCapturing_pair (P : Primitives) (a b : Octets) (wanted : List ℕ) :
    ∃ captured, LogVerifier.calculateRootCapturing P [0] [a] 2 [b] (fun _ => none) wanted =
      .ok (logParentValue P a true b true, captured) := by
  have hreconstruct : reconstruct (logPar P) 2 (LogVerifier.givenAt ([0].zip [a])) (above [0])
      (LogVerifier.keptAt fun _ => none) (height 2) 0 [b] =
        some (logParentValue P a true b true, [],
          [((0, 0), a), ((0, 1), b), ((1, 0), logParentValue P a true b true)]) := by
    rw [show height 2 = 1 by decide]
    rfl
  exact ⟨_, (LogVerifier.calculateRootCapturing_eq_ok_iff (by omega) (by omega) rfl
    (by simp)).2 ⟨_, hreconstruct, rfl⟩⟩

/-- The first of two entries, proved by the hash of the second. -/
theorem log_inclusion_sound_two : LogVerifier.InclusionSound Primitives.ideal
    [(0, Octets.zeros 32), (1, Octets.zeros 32)] [0]
    [LogTree.entryLeaf Primitives.ideal (0, Octets.zeros 32)]
    [LogTree.entryLeaf Primitives.ideal (1, Octets.zeros 32)] [1] ∧
    ∃ captured, LogVerifier.calculateRootCapturing Primitives.ideal [0]
      [LogTree.entryLeaf Primitives.ideal (0, Octets.zeros 32)] 2
      [LogTree.entryLeaf Primitives.ideal (1, Octets.zeros 32)] (fun _ => none) [1] =
        .ok (logRoot Primitives.ideal ([(0, Octets.zeros 32), (1, Octets.zeros 32)].map
          (LogTree.entryLeaf Primitives.ideal)), captured) := by
  refine ⟨log_inclusion_sound _ Primitives.ideal_sha256_injective _ (by simp) (by decide) _
    (by decide) (by decide) _ (fun v hv => ?_) _ _, ?_⟩
  · rw [List.mem_singleton.1 hv]
    exact length_logLeafValue _ _ _
  · rw [List.map_cons, List.map_cons, List.map_nil, logRoot_pair]
    exact calculateRootCapturing_pair _ _ _ _

/-- **Neither a position beyond the log nor a short hash is noticed.**  With one entry, a
second position is not looked at; and the hash of an entry may end early, where the element
beside it goes on with what is missing. -/
theorem log_inclusion_not_sound :
    ¬ LogVerifier.InclusionSound Primitives.ideal [(0, Octets.zeros 32)] [0, 1]
      [LogTree.entryLeaf Primitives.ideal (0, Octets.zeros 32), Octets.zeros 32] [] [] ∧
    ¬ LogVerifier.InclusionSound Primitives.ideal [(0, Octets.zeros 32), (1, Octets.zeros 32)] [0]
      [(LogTree.entryLeaf Primitives.ideal (0, Octets.zeros 32)).take 31]
      [0 :: LogTree.entryLeaf Primitives.ideal (1, Octets.zeros 32)] [] := by
  constructor
  · intro h
    have hderived : ∀ (P : Primitives) (a b : Octets), ∃ captured,
        LogVerifier.calculateRootCapturing P [0, 1] [a, b] 1 [] (fun _ => none) [] =
          .ok (logRoot P [a], captured) := fun P a b => ⟨_, rfl⟩
    obtain ⟨captured, hroot⟩ := hderived Primitives.ideal
      (LogTree.entryLeaf Primitives.ideal (0, Octets.zeros 32)) (Octets.zeros 32)
    obtain ⟨e, he, -⟩ := (h captured hroot).1 1 _ (.tail _ (.head _))
    cases he
  · intro h
    have hsplit : ∀ m b, logParentValue Primitives.ideal ((Primitives.ideal.sha256 m).take 31) true
        (0 :: b) true = logParentValue Primitives.ideal (Primitives.ideal.sha256 m) true b true := by
      intro m b
      obtain ⟨k, hk⟩ : ∃ k, Primitives.ideal.sha256 m = k :: Octets.zeros 31 := ⟨_, rfl⟩
      rw [hk]
      rfl
    obtain ⟨captured, hroot⟩ := calculateRootCapturing_pair Primitives.ideal
      ((LogTree.entryLeaf Primitives.ideal (0, Octets.zeros 32)).take 31)
      (0 :: LogTree.entryLeaf Primitives.ideal (1, Octets.zeros 32)) []
    rw [LogTree.entryLeaf, logLeafValue, hsplit, ← logRoot_pair] at hroot
    obtain ⟨e, -, he⟩ := (h captured hroot).1 0 _ (.head _)
    have hlength := congrArg List.length ((he e).2 rfl)
    rw [List.length_take, LogTree.entryLeaf, LogTree.entryLeaf, length_logLeafValue,
      length_logLeafValue] at hlength
    omega

end KeyTransparency
