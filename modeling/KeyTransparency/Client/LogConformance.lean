/-
# The log tree of the protocol

The protocol hashes a left-balanced tree, each child with a tag that says whether it is a
leaf (`referenceRoot`).  The code takes the tags from the levels of the node ids, where a
single leaf on the right of a larger tree stands for a node of the level of its sibling.
So it has the protocol's root for one entry and for an even number of them, and another
one for every other odd number (`log_conformance_iff`).
-/

import KeyTransparency.Client.Gossip
import KeyTransparency.Client.LogInclusion
import KeyTransparency.Client.LogRoots
import KeyTransparency.Library.MerkleLog.LeftBalanced

namespace KeyTransparency

open InOrder LogMath MerkleLog

section

variable (P : Primitives)

/-! ### The protocol's tree -/

/-- `hashContent` of the protocol: the tag of a node's kind, and its value. -/
def hashContent (isLeaf : Bool) (nodeValue : Octets) : Octets :=
  (if isLeaf then 0x00 else 0x01) :: nodeValue

def referenceParent (leftIsLeaf rightIsLeaf : Bool) (left right : Octets) : Octets :=
  P.sha256 (hashContent leftIsLeaf left ++ hashContent rightIsLeaf right)

/-- The root of the left-balanced tree over some leaves. -/
def referenceRoot (leaves : List Octets) : Octets :=
  leftBalanced (referenceParent P) (leafAt leaves) 0 leaves.length

/-- **The log's roots are the protocol's**: the one read from the chunks after the entries
were appended, in any batches, and the one hashed from all leaves. -/
structure LogConforms (entries : List (U64 × Octets)) : Prop where
  stored : ∀ batches s, batches.flatten = entries →
    Db.Runs (LogTree.appendBatches P 0 batches) Store.empty () s →
      LogTree.getRoot P s entries.length =
        .ok (referenceRoot P (entries.map (LogTree.entryLeaf P)))
  hashed : LogVerifier.calculateRoot P (List.range entries.length)
    (entries.map (LogTree.entryLeaf P)) entries.length [] =
      .ok (referenceRoot P (entries.map (LogTree.entryLeaf P)))

end

section

variable {P : Primitives} {entries : List (U64 × Octets)} {leaves : List Octets}

theorem referenceParent_same (f : Bool) : referenceParent P f f = logPar P f := rfl

/-- **The roots agree** on one leaf and on an even number of them. -/
theorem logRoot_eq_referenceRoot (h₀ : leaves ≠ [])
    (hparity : leaves.length = 1 ∨ leaves.length % 2 = 0) :
    logRoot P leaves = referenceRoot P leaves := by
  have hpos := List.length_pos_iff.2 h₀
  have hle := le_two_pow_height leaves.length
  have hvalue := @value_eq_leftBalanced _ (referenceParent P) (leafAt leaves) leaves.length
    (height leaves.length) 0 leaves.length (by omega) (by omega) hparity
  rw [Nat.zero_mul] at hvalue
  rw [logRoot_of_ne_nil h₀, referenceRoot, ← hvalue]
  rfl

/-- **They differ** on every other odd number. -/
theorem logRoot_ne_referenceRoot (hP : Function.Injective P.sha256)
    (hleaf : ∀ l ∈ leaves, l.length = 32) (h₁ : 1 < leaves.length)
    (hodd : leaves.length % 2 = 1) : logRoot P leaves ≠ referenceRoot P leaves := by
  have hne : leaves ≠ [] := List.length_pos_iff.1 (by omega)
  have hle := le_two_pow_height leaves.length
  have hinj : ∀ {f g f' g' : Bool} {l r l' r' : Octets}, l.length = 32 → l'.length = 32 →
      referenceParent P f g l r = referenceParent P f' g' l' r' → g = g' ∧ r = r' := by
    intro f g f' g' l r l' r' hl hl' h
    obtain ⟨-, h₂⟩ := List.append_inj (hP h) (by simp only [hashContent, List.length_cons, hl, hl'])
    obtain ⟨htag, hr⟩ := List.cons.inj h₂
    refine ⟨?_, hr⟩
    cases g <;> cases g' <;> first | rfl | cases htag
  have hvalue := @value_ne_leftBalanced _ (referenceParent P) (leafAt leaves)
    (fun v => v.length = 32) (fun _ _ _ _ => P.length_sha256 _) hinj leaves.length
    (fun p hp => hleaf _ (leafAt_mem hp)) (height leaves.length) 0 leaves.length (by omega)
    (by omega) h₁ hodd
  rw [Nat.zero_mul] at hvalue
  rw [logRoot_of_ne_nil hne, referenceRoot]
  exact hvalue

theorem length_entryLeaves : ∀ l ∈ entries.map (LogTree.entryLeaf P), l.length = 32 := by
  intro l hl
  obtain ⟨e, -, rfl⟩ := List.mem_map.1 hl
  exact length_logLeafValue P _ _

/-- **What a verifier hashes from all leaves**, if anything. -/
theorem LogVerifier.calculateRoot_eq_ok (h₀ : entries ≠ []) (hn : entries.length < 2 ^ 64)
    {root : Octets} : calculateRoot P (List.range entries.length)
        (entries.map (LogTree.entryLeaf P)) entries.length [] = .ok root ↔
      entries.length ≤ 2 ^ 62 ∧ root = logRoot P (entries.map (LogTree.entryLeaf P)) := by
  have hpos := List.length_pos_iff.2 h₀
  have hne : entries.map (LogTree.entryLeaf P) ≠ [] := by simpa using h₀
  have hroot := @calculateRoot_leaves P (entries.map (LogTree.entryLeaf P))
  rw [List.length_map] at hroot
  constructor
  · intro h
    by_cases hsmall : entries.length ≤ 2 ^ 62
    · exact ⟨hsmall, Except.ok.inj (h.symm.trans (hroot hsmall hne))⟩
    · obtain ⟨⟨_, captured⟩, hcapturing, -⟩ := Result.bind_eq_ok.1 h
      have hnil := calculateRootCapturing_high hn (by omega) hcapturing
      rw [List.range_eq_nil] at hnil
      omega
  · rintro ⟨hsmall, rfl⟩
    exact hroot hsmall hne

theorem LogConforms.of_parity (h₀ : entries ≠ [])
    (hparity : entries.length = 1 ∨ entries.length % 2 = 0) (hn : entries.length ≤ 2 ^ 62) :
    LogConforms P entries := by
  have hne : entries.map (LogTree.entryLeaf P) ≠ [] := by simpa using h₀
  have heq := @logRoot_eq_referenceRoot P _ hne (by simpa using hparity)
  constructor
  · rintro batches s rfl hrun
    have hfilled : LogTree.Filled P Store.empty [] := .empty fun _ => rfl
    obtain ⟨s', hrun', hs⟩ := @LogTree.appendBatches_spec P batches _ _
      (hfilled.holds (by simp)) (by rw [List.length_nil]; omega)
    obtain ⟨-, rfl⟩ := hrun.unique hrun'
    rw [List.nil_append] at hs
    have hroot := LogTree.getRoot_current (P := P) hs (by rw [List.length_map]; exact hn)
    rwa [List.length_map, heq] at hroot
  · rw [← heq]
    exact (LogVerifier.calculateRoot_eq_ok h₀ (by omega)).2 ⟨hn, rfl⟩

theorem LogConforms.parity (hP : Function.Injective P.sha256) (h₀ : entries ≠ [])
    (hn : entries.length < 2 ^ 64) (h : LogConforms P entries) :
    (entries.length = 1 ∨ entries.length % 2 = 0) ∧ entries.length ≤ 2 ^ 62 := by
  have hpos := List.length_pos_iff.2 h₀
  obtain ⟨hsmall, hroot⟩ := (LogVerifier.calculateRoot_eq_ok h₀ hn).1 h.hashed
  refine ⟨?_, hsmall⟩
  by_contra hparity
  exact logRoot_ne_referenceRoot hP length_entryLeaves (by rw [List.length_map]; omega)
    (by rw [List.length_map]; omega) hroot.symm

/-- **When the log's roots are the protocol's**: for one entry, and for an even number of
them.  In any case the root of a log fixes its length. -/
theorem log_conformance_iff (P : Primitives) (hP : Function.Injective P.sha256)
    (entries : List (U64 × Octets)) (h₀ : entries ≠ []) (hn : entries.length < 2 ^ 64) :
    (LogConforms P entries ↔
      (entries.length = 1 ∨ entries.length % 2 = 0) ∧ entries.length ≤ 2 ^ 62) ∧
    ∀ entries' root, entries' ≠ [] → entries'.length < 2 ^ 64 →
      (∀ e ∈ entries ++ entries', e.2.length = 32) →
      LogVerifier.calculateRoot P (List.range entries.length)
        (entries.map (LogTree.entryLeaf P)) entries.length [] = .ok root →
      LogVerifier.calculateRoot P (List.range entries'.length)
        (entries'.map (LogTree.entryLeaf P)) entries'.length [] = .ok root →
      entries.length = entries'.length := by
  refine ⟨⟨fun h => h.parity hP h₀ hn, fun h => .of_parity h₀ h.1 h.2⟩, ?_⟩
  intro entries' root h₀' hn' hdigest hroot hroot'
  have hlog : ∀ {es : List (U64 × Octets)}, (∀ e ∈ es, e.2.length = 32) →
      ∀ l ∈ es.map (LogTree.entryLeaf P), IsLogLeaf P l := by
    intro es hes l hl
    obtain ⟨e, he, rfl⟩ := List.mem_map.1 hl
    exact ⟨e.1, e.2, hes e he, rfl⟩
  have heq := ((LogVerifier.calculateRoot_eq_ok h₀ hn).1 hroot).2.symm.trans
    ((LogVerifier.calculateRoot_eq_ok h₀' hn').1 hroot').2
  have hleaves := logRoot_inj hP (hlog fun e he => hdigest e (List.mem_append_left _ he))
    (hlog fun e he => hdigest e (List.mem_append_right _ he)) (by simpa using h₀)
    (by simpa using h₀') heq
  simpa using congrArg List.length hleaves

end

/-- Two entries have the protocol's root. -/
theorem log_conformance_iff_two : LogConforms Primitives.ideal (fourEntries.take 2) :=
  (log_conformance_iff Primitives.ideal Primitives.ideal_sha256_injective (fourEntries.take 2)
    (by decide) (by decide)).1.2 ⟨.inr (by decide), by decide⟩

/-- **Three entries do not**: the third stands alone on the right. -/
theorem three_entries_not_conform : ¬ LogConforms Primitives.ideal (fourEntries.take 3) := by
  intro h
  have hparity := (h.parity Primitives.ideal_sha256_injective (by decide) (by decide)).1
  revert hparity
  decide

end KeyTransparency
