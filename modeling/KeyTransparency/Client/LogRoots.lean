/-
# The computations of a log root

The server reads the root of a log from its chunks, a client hashes it from all leaves, and
an auditor accumulates it from the leaves one by one, from any size on.  All of them have
the same root (`log_roots_agree`).
-/

import KeyTransparency.Client.Accumulator
import KeyTransparency.Client.InclusionAgreement

namespace KeyTransparency

open InOrder LogMath MerkleLog

/-! ### All leaves -/

section

variable {P : Primitives} {leaves : List Octets}

theorem LogVerifier.leavesAt_range : leavesAt leaves (List.range leaves.length) = leaves := by
  refine List.ext_getElem (by simp [leavesAt]) fun p h h' => ?_
  simp only [leavesAt, List.getElem_map, List.getElem_range]
  rw [leafAt, List.getD_eq_getElem _ _ h']

/-- **The root hashed from all leaves.** -/
theorem LogVerifier.calculateRoot_leaves (hn : leaves.length ≤ 2 ^ 62) (h₀ : leaves ≠ []) :
    calculateRoot P (List.range leaves.length) leaves leaves.length [] =
      .ok (logRoot P leaves) := by
  have hpos := List.length_pos_iff.2 h₀
  have hneeded : neededValues P leaves (List.range leaves.length) 0 = [] := by
    rw [neededValues, needed_all (by omega), List.map_nil]
  have hroot := calculateRootCapturing_neededValues (P := P) hn h₀
    (fun p hp => List.mem_range.1 hp) (Nat.zero_le _) (retainsPeaks_zero P leaves) []
  rw [hneeded, leavesAt_range] at hroot
  rw [calculateRoot, hroot]
  rfl

/-! ### Peaks -/

/-- The values of the maximal complete subtrees of a log. -/
def peakList (P : Primitives) (leaves : List Octets) : List Octets :=
  (peaks leaves.length).map fun c => value (logPar P) (leafAt leaves) leaves.length c.1 c.2

theorem LogAccumulator.fromPeaks_peakList (hn : leaves.length ≤ 2 ^ 62) :
    ∃ acc, fromPeaks leaves.length (peakList P leaves) = .ok acc ∧ acc.Summarises P leaves := by
  by_cases hnil : leaves = []
  · subst hnil
    exact ⟨_, rfl, rfl, rfl⟩
  · have hpos := List.length_pos_iff.2 hnil
    refine ⟨_, fromPeaks_peaks hn, rfl, ?_⟩
    dsimp only
    rw [peakSpine, if_neg hpos.ne', List.reverse_reverse]

/-- Appending leaves one by one. -/
theorem LogAccumulator.Summarises.appendLeaves {acc : LogAccumulator} (h : acc.Summarises P leaves)
    (more : List Octets) : (more.foldl (LogAccumulator.appendLeaf P) acc).Summarises P (leaves ++ more) := by
  induction more generalizing leaves acc with
  | nil => rwa [List.append_nil]
  | cons leaf more ih =>
    have := ih (h.appendLeaf leaf)
    rwa [List.append_assoc, List.singleton_append] at this

/-! ### Batches -/

/-- Batches appended one after the other. -/
def LogTree.appendBatches (P : Primitives) : ℕ → List (List (U64 × Octets)) → Db Unit
  | _, [] => pure ()
  | treeSize, entries :: batches => do
    let _ ← batchAppend P treeSize entries
    appendBatches P (treeSize + entries.length) batches

theorem LogTree.appendBatches_spec : ∀ {batches : List (List (U64 × Octets))} {s : Store}
    {old : List Octets}, Holds s old → old.length + batches.flatten.length ≤ 2 ^ 62 →
      ∃ s', Db.Runs (appendBatches P old.length batches) s () s' ∧
        Holds s' (old ++ batches.flatten.map (entryLeaf P))
  | [], s, old, hs, _ => ⟨s, Db.runs_pure _ _, by simpa using hs⟩
  | entries :: batches, s, old, hs, hn => by
    rw [List.flatten_cons, List.length_append] at hn
    obtain ⟨s₁, ⟨hs₁, -⟩, hrun₁⟩ := @batchAppend_spec P _ _ hs entries (by omega)
    have hlength : (old ++ entries.map (entryLeaf P)).length = old.length + entries.length := by
      rw [List.length_append, List.length_map]
    obtain ⟨s₂, hrun₂, hs₂⟩ := @appendBatches_spec batches _ _ hs₁ (by rw [hlength]; omega)
    rw [hlength] at hrun₂
    refine ⟨s₂, hrun₁.bind hrun₂, ?_⟩
    rwa [List.flatten_cons, List.map_append, ← List.append_assoc]

end

/-- **All computations of a log root agree**: from all leaves, by an accumulator that is fed
the leaves, by one that is rebuilt from the peaks of any beginning and fed the rest, and
from the chunks that batches of the entries were appended to. -/
theorem log_roots_agree (P : Primitives) (leaves : List Octets) (h₀ : 1 ≤ leaves.length)
    (hn : leaves.length < 2 ^ 61) : ∃ root,
    LogVerifier.calculateRoot P (List.range leaves.length) leaves leaves.length [] = .ok root ∧
    (leaves.foldl (LogAccumulator.appendLeaf P) .new).calculateRoot P = .ok root ∧
    (∀ m ≤ leaves.length, ∃ acc,
      LogAccumulator.fromPeaks m (peakList P (leaves.take m)) = .ok acc ∧
      ((leaves.drop m).foldl (LogAccumulator.appendLeaf P) acc).calculateRoot P = .ok root) ∧
    ∀ batches : List (List (U64 × Octets)),
      batches.flatten.map (LogTree.entryLeaf P) = leaves →
        ∃ s, Db.Runs (LogTree.appendBatches P 0 batches) Store.empty () s ∧
          LogTree.getRoot P s leaves.length = .ok root := by
  have hne : leaves ≠ [] := List.length_pos_iff.1 h₀
  refine ⟨logRoot P leaves, LogVerifier.calculateRoot_leaves (by omega) hne,
    (LogAccumulator.summarises_new.appendLeaves leaves).calculateRoot, fun m hm => ?_,
    fun batches hbatches => ?_⟩
  · have hlength : (leaves.take m).length = m := by rw [List.length_take, Nat.min_eq_left hm]
    obtain ⟨acc, hacc, hsummary⟩ := @LogAccumulator.fromPeaks_peakList P (leaves.take m) (by omega)
    rw [hlength] at hacc
    have hroot := (hsummary.appendLeaves (leaves.drop m)).calculateRoot
    rw [List.take_append_drop] at hroot
    exact ⟨acc, hacc, hroot⟩
  · have hlength : batches.flatten.length = leaves.length := by
      rw [← hbatches, List.length_map]
    have hfilled : LogTree.Filled P Store.empty [] := .empty fun _ => rfl
    have hempty := hfilled.holds (by simp)
    obtain ⟨s, hrun, hs⟩ := @LogTree.appendBatches_spec P batches _ _ hempty
      (by rw [List.length_nil]; omega)
    rw [hbatches, List.nil_append] at hs
    exact ⟨s, hrun, LogTree.getRoot_current hs (by omega)⟩

/-- Four entries, in batches of three and one. -/
theorem log_roots_agree_four : ∃ root s,
    (LogVerifier.calculateRoot Primitives.ideal (List.range 4)
      (fourEntries.map (LogTree.entryLeaf Primitives.ideal)) 4 [] = .ok root) ∧
    Db.Runs (LogTree.appendBatches Primitives.ideal 0 [fourEntries.take 3, fourEntries.drop 3])
      Store.empty () s ∧ LogTree.getRoot Primitives.ideal s 4 = .ok root := by
  obtain ⟨root, hall, -, -, hbatches⟩ := log_roots_agree Primitives.ideal
    (fourEntries.map (LogTree.entryLeaf Primitives.ideal)) (by decide) (by decide)
  obtain ⟨s, hrun, hroot⟩ := hbatches [fourEntries.take 3, fourEntries.drop 3] rfl
  exact ⟨root, s, hall, hrun, hroot⟩

end KeyTransparency
