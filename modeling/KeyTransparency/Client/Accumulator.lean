/-
# Accumulators

An accumulator that holds the peaks of a log has its root (`calculateRoot_peaks`), and
appending a leaf to it makes the one of the longer log (`Summarises.appendLeaf`).
-/

import KeyTransparency.Client.LogVerifier
import KeyTransparency.Library.MerkleLog.Append
import KeyTransparency.Tree.LogStore

namespace KeyTransparency

open LogMath InOrder MerkleLog

namespace LogAccumulator

variable {P : Primitives}

theorem foldPeaks_reverse (l : List (ℕ × Octets)) (acc : Octets) :
    foldPeaks P l.reverse acc =
      l.foldr (fun p acc => logParentValue P p.2 (p.1 == 0) acc false) acc := by
  have key : ∀ (l : List (ℕ × Octets)) acc, foldPeaks P l acc =
      l.foldl (fun acc p => logParentValue P p.2 (p.1 == 0) acc false) acc := by
    intro l
    induction l with
    | nil => exact fun _ => rfl
    | cons p l ih => exact fun acc => ih _
  rw [key, List.foldl_reverse]

/-- **The root of an accumulator** is the fold of the values of its peaks, of which only the
last one may be a leaf. -/
theorem calculateRoot_fold {treeSize : ℕ} (h₀ : 0 < treeSize) {peaks : List (ℕ × Octets)}
    (hlevels : (peaks.map Prod.fst).Pairwise fun k l => l < k) (hne : peaks ≠ []) :
    ∃ root, MerkleLog.foldPeaks (logPar P) (peaks.map Prod.snd) = some root ∧
      calculateRoot P ⟨treeSize, peaks⟩ = .ok root := by
  obtain ⟨init, c, rfl⟩ : ∃ init c, peaks = init ++ [c] := by
    rcases List.eq_nil_or_concat peaks with hnil | ⟨init, c, hsplit⟩
    · exact absurd hnil hne
    · exact ⟨init, c, by rw [hsplit, List.concat_eq_append]⟩
  refine ⟨init.foldr (fun p acc => logParentValue P p.2 (p.1 == 0) acc false) c.2, ?_, ?_⟩
  · rw [List.map_append, List.map_cons, List.map_nil, foldPeaks_append_singleton, List.foldr_map]
    congr 1
    refine List.foldr_ext _ _ _ fun d hd acc => ?_
    rw [List.map_append, List.pairwise_append] at hlevels
    have hlt := hlevels.2.2 d.1 (List.mem_map_of_mem hd) c.1 (by simp)
    simp only [beq_eq_false_iff_ne.2 (show d.1 ≠ 0 by omega)]
    rfl
  · rw [calculateRoot, if_neg h₀.ne']
    simp only [List.reverse_append, List.reverse_cons, List.reverse_nil, List.nil_append,
      List.singleton_append]
    rw [foldPeaks_reverse]

/-- **The accumulator of the peaks** has the root of the log. -/
theorem calculateRoot_peaks {leaf : ℕ → Octets} {a : ℕ} (h₀ : 0 < a) :
    calculateRoot P ⟨a, (MerkleLog.peaks a).map fun c => (c.1, value (logPar P) leaf a c.1 c.2)⟩ =
      .ok (MerkleLog.root (logPar P) leaf a) := by
  have hfold := @foldPeaks_peaks _ (logPar P) leaf a h₀
  have hdec : (MerkleLog.peaks a).Pairwise fun c d => d.1 < c.1 := peaksFrom_levels
  have hne : MerkleLog.peaks a ≠ [] := by
    intro hnil
    rw [hnil] at hfold
    cases hfold
  obtain ⟨root, hroot, hcalc⟩ := @calculateRoot_fold P a h₀
    ((MerkleLog.peaks a).map fun c => (c.1, value (logPar P) leaf a c.1 c.2))
    (by rw [List.map_map, List.pairwise_map]; exact hdec) (by simpa using hne)
  rw [List.map_map] at hroot
  rw [hcalc, Option.some.inj (hroot.symm.trans hfold)]

/-- `from_peaks` counts the values, and takes the levels from the size. -/
theorem fromPeaks_eq_ok {n : ℕ} (hn : n ≤ 2 ^ 62) {values : List Octets} {acc : LogAccumulator} :
    fromPeaks n values = .ok acc ↔ values.length = (MerkleLog.peaks n).length ∧
      acc = ⟨n, ((MerkleLog.peaks n).zip values).map fun p => (p.1.1, p.2)⟩ := by
  have hlevel : ∀ c ∈ MerkleLog.peaks n, level (node c.1 c.2) = c.1 := fun c hc => by
    have hc := (mem_peaksFrom hc).1
    have := Nat.two_pow_pos c.1
    have hle : 2 ^ c.1 ≤ 2 ^ 62 := by
      rw [Nat.add_one_mul] at hc
      omega
    have := (Nat.pow_le_pow_iff_right (by omega : 1 < 2)).1 hle
    exact level_node (by omega) _
  have hzip : (((MerkleLog.peaks n).map fun c => node c.1 c.2).zip values).map
      (fun p => (level p.1, p.2)) =
        ((MerkleLog.peaks n).zip values).map fun p => (p.1.1, p.2) := by
    rw [List.zip_map_left, List.map_map]
    refine List.map_congr_left fun p hp => ?_
    rw [Function.comp_apply, Prod.map_fst, Prod.map_snd, hlevel p.1 (List.of_mem_zip hp).1, id]
  rw [fromPeaks, getRoots_eq hn, hzip, List.length_map, Result.bind_eq_ok]
  simp only [ensure_eq_ok, Result.pure_eq, Except.ok.injEq, exists_and_left]
  constructor
  · rintro ⟨hlen, -, rfl⟩
    exact ⟨hlen.symm, rfl⟩
  · rintro ⟨hlen, rfl⟩
    exact ⟨hlen.symm, (), rfl⟩

theorem zip_values (f : ℕ × ℕ → Octets) (l : List (ℕ × ℕ)) :
    (l.zip (l.map f)).map (fun p => (p.1.1, p.2)) = l.map fun c => (c.1, f c) := by
  induction l with
  | nil => rfl
  | cons c l ih => rw [List.map_cons, List.zip_cons_cons, List.map_cons, List.map_cons, ih]

/-- The accumulator that is rebuilt from the values of the peaks. -/
theorem fromPeaks_peaks {leaf : ℕ → Octets} {a : ℕ} (ha : a ≤ 2 ^ 62) :
    fromPeaks a ((MerkleLog.peaks a).map fun c => value (logPar P) leaf a c.1 c.2) =
      .ok ⟨a, (MerkleLog.peaks a).map fun c => (c.1, value (logPar P) leaf a c.1 c.2)⟩ := by
  rw [fromPeaks_eq_ok ha, List.length_map]
  exact ⟨rfl, by rw [zip_values]⟩

theorem accumulatorFromPeaks_peaks {leaf : ℕ → Octets} {a : ℕ} (h₀ : 0 < a) (ha : a ≤ 2 ^ 62) :
    accumulatorFromPeaks P a ((MerkleLog.peaks a).map fun c => value (logPar P) leaf a c.1 c.2) =
      .ok (MerkleLog.root (logPar P) leaf a) := by
  rw [accumulatorFromPeaks, fromPeaks_peaks ha, Result.ok_bind, calculateRoot_peaks h₀]

/-! ### Appending -/

theorem mergePeaks_eq : ∀ peaks : List (ℕ × Octets), mergePeaks P peaks = carry (logPar P) peaks
  | [] => by rw [mergePeaks, carry]
  | [p] => by rw [mergePeaks, carry]
  | (rh, r) :: (lh, l) :: peaks => by
    rw [mergePeaks, carry]
    split_ifs with h
    · rw [mergePeaks_eq, h]
      rfl
    · rfl
termination_by peaks => peaks.length

/-- An accumulator holds the size and the peaks of a log. -/
structure Summarises (P : Primitives) (leaves : List Octets) (acc : LogAccumulator) : Prop where
  treeSize : acc.treeSize = leaves.length
  peaks : acc.peaks = (peakSpine (logPar P) (leafAt leaves) leaves.length leaves.length).reverse

theorem summarises_new : new.Summarises P [] := ⟨rfl, rfl⟩

theorem Summarises.appendLeaf {leaves : List Octets} {acc : LogAccumulator}
    (h : acc.Summarises P leaves) (leaf : Octets) :
    (acc.appendLeaf P leaf).Summarises P (leaves ++ [leaf]) := by
  have hleaf : leafAt (leaves ++ [leaf]) leaves.length = leaf := by
    rw [leafAt, List.getD_append_right _ _ _ _ le_rfl, Nat.sub_self, List.getD_cons_zero]
  have hspine : peakSpine (logPar P) (leafAt leaves) leaves.length leaves.length =
      peakSpine (logPar P) (leafAt (leaves ++ [leaf])) (leaves.length + 1) leaves.length :=
    peakSpine_congr le_rfl (Nat.le_succ _) fun p hp => by
      rw [leafAt, leafAt, List.getD_append _ _ _ _ hp]
  constructor
  · rw [LogAccumulator.appendLeaf, h.treeSize, List.length_append, List.length_singleton]
  · have hcarry := @carry_peaks _ (logPar P) (leafAt (leaves ++ [leaf])) _ _
      (Nat.lt_succ_self leaves.length)
    rw [hleaf] at hcarry
    rw [LogAccumulator.appendLeaf, h.peaks, List.reverse_reverse, mergePeaks_eq, hspine, hcarry,
      List.length_append, List.length_singleton]

theorem Summarises.calculateRoot {leaves : List Octets} {acc : LogAccumulator}
    (h : acc.Summarises P leaves) : calculateRoot P acc = .ok (logRoot P leaves) := by
  obtain ⟨treeSize, peaks⟩ := acc
  obtain ⟨hsize, hpeaks⟩ := h
  dsimp only at hsize hpeaks
  subst hsize hpeaks
  by_cases hnil : leaves = []
  · rw [hnil]
    rfl
  · have hpos := List.length_pos_iff.2 hnil
    rw [peakSpine, if_neg hpos.ne', List.reverse_reverse, calculateRoot_peaks hpos,
      logRoot_of_ne_nil hnil]

/-- **The root determines the accumulator**: from values of the size of a digest, with the
root of a log, only the accumulator of the log is rebuilt. -/
theorem summarises_of_root (hP : Function.Injective P.sha256) {leaves values : List Octets}
    {acc : LogAccumulator} (hleaves : ∀ l ∈ leaves, l.length = 32) (hsize : leaves.length ≤ 2 ^ 62)
    (hvalues : ∀ v ∈ values, v.length = 32) (h : fromPeaks leaves.length values = .ok acc)
    (hroot : LogAccumulator.calculateRoot P acc = .ok (logRoot P leaves)) : acc.Summarises P leaves := by
  obtain ⟨hlen, rfl⟩ := (fromPeaks_eq_ok hsize).1 h
  refine ⟨rfl, ?_⟩
  dsimp only
  by_cases hnil : leaves = []
  · subst hnil
    rw [peakSpine, if_pos List.length_nil]
    rfl
  have hpos := List.length_pos_iff.2 hnil
  have hdec : (MerkleLog.peaks leaves.length).Pairwise fun c d => d.1 < c.1 := peaksFrom_levels
  have hfold := @foldPeaks_peaks _ (logPar P) (leafAt leaves) _ hpos
  have hpeaks : MerkleLog.peaks leaves.length ≠ [] := by
    intro hnil
    rw [hnil] at hfold
    cases hfold
  have hfst : (((MerkleLog.peaks leaves.length).zip values).map fun p => (p.1.1, p.2)).map Prod.fst =
      (MerkleLog.peaks leaves.length).map Prod.fst := by
    conv_rhs => rw [← List.map_fst_zip hlen.ge, List.map_map]
    rw [List.map_map]
    rfl
  have hsnd : (((MerkleLog.peaks leaves.length).zip values).map fun p => (p.1.1, p.2)).map Prod.snd =
      values := by
    rw [List.map_map]
    exact List.map_snd_zip hlen.le
  obtain ⟨root, hvaluesRoot, hcalc⟩ := @calculateRoot_fold P leaves.length hpos
    (((MerkleLog.peaks leaves.length).zip values).map fun p => (p.1.1, p.2))
    (by rw [hfst, List.pairwise_map]; exact hdec) (by
      intro hnil
      have := congrArg List.length hnil
      rw [List.length_map, List.length_zip, hlen, Nat.min_self, List.length_nil] at this
      exact hpeaks (List.length_eq_zero_iff.1 this))
  rw [hsnd] at hvaluesRoot
  have hsame : root = MerkleLog.root (logPar P) (leafAt leaves) leaves.length := by
    have heq := Except.ok.inj (hcalc.symm.trans hroot)
    rwa [logRoot_of_ne_nil hnil] at heq
  rw [hsame] at hvaluesRoot
  have hdigest : ∀ v ∈ (MerkleLog.peaks leaves.length).map fun c =>
      value (logPar P) (leafAt leaves) leaves.length c.1 c.2, v.length = 32 := by
    intro v hv
    obtain ⟨c, hc, rfl⟩ := List.mem_map.1 hv
    have := (mem_peaksFrom hc).1
    have := Nat.two_pow_pos c.1
    have e : (c.2 + 1) * 2 ^ c.1 = c.2 * 2 ^ c.1 + 2 ^ c.1 := by ring
    exact length_value (fun p hp => by
      rw [leafAt, List.getD_eq_getElem _ _ hp]
      exact hleaves _ (List.getElem_mem hp)) (by omega)
  have hvals : values = (MerkleLog.peaks leaves.length).map fun c =>
      value (logPar P) (leafAt leaves) leaves.length c.1 c.2 :=
    MerkleLog.foldPeaks_inj (S := logScheme P hP) (by rw [hlen, List.length_map]) hvalues hdigest
      hvaluesRoot hfold
  rw [peakSpine, if_neg hpos.ne', List.reverse_reverse, hvals, zip_values]

end LogAccumulator

end KeyTransparency
