/-
# Owner ladders of any length

The version an owner ladder was made for is not on the wire: `verify_owner_ladder` tries
the candidates from 0 up to the number of results.  A ladder has some sixty results at
most, and its target must be nearly reached before it decodes; so the candidates suffice
up to version 8, and for no version above (`owner_ladder_iff`).
-/

import KeyTransparency.Client.HonestLadder
import KeyTransparency.Client.HonestServer
import KeyTransparency.Client.LadderInverse
import KeyTransparency.Client.SampleLog
import KeyTransparency.Tree.Traversal

namespace KeyTransparency

open BinaryLadder

/-! ### How long ladders are -/

namespace BinaryLadder

theorem length_bisectTree_path (answer : ℕ → Bool) : ∀ fuel lower upper : ℕ,
    ((bisectTree fuel lower upper).path answer).length ≤ fuel
  | 0, _, _ => le_rfl
  | fuel + 1, lower, upper => by
    rw [bisectTree]
    split_ifs
    · rw [ProbeTree.path, List.length_cons]
      split_ifs
      · exact Nat.succ_le_succ (length_bisectTree_path answer fuel _ _)
      · exact Nat.succ_le_succ (length_bisectTree_path answer fuel _ _)
    · exact Nat.zero_le _

theorem length_powersTree_path (answer : ℕ → Bool) : ∀ fuel k : ℕ,
    ((powersTree fuel k).path answer).length ≤ fuel + 32
  | 0, _ => Nat.zero_le _
  | fuel + 1, k => by
    have hpowers := length_powersTree_path answer fuel (k + 1)
    have hbisect := length_bisectTree_path answer 32 (ladderValue (k - 1)) (ladderValue k)
    rw [powersTree, ProbeTree.path, List.length_cons]
    split_ifs
    · simp [ProbeTree.path]
    · omega
    · simp [ProbeTree.path]
    · omega

theorem length_baseBinaryLadder_le (t : ℕ) : (baseBinaryLadder t).length ≤ 65 := by
  rw [baseBinaryLadder_eq]
  exact length_powersTree_path _ 33 0

/-- As far as the powers exist a ladder goes through them. -/
theorem powersTree_path_of_le {t : ℕ} : ∀ {j k : ℕ}, k + j ≤ 32 → (∀ i < k + j, ladderValue i ≤ t) →
    ∃ rest, (powersTree (33 - k) k).path (decide <| · ≤ t) =
      (List.range' k j).map ladderValue ++ ladderValue (k + j) :: rest
  | 0, k, hk, _ => by
    obtain ⟨fuel, hfuel⟩ : ∃ fuel, 33 - k = fuel + 1 := ⟨32 - k, by omega⟩
    rw [hfuel, powersTree, ProbeTree.path]
    exact ⟨_, rfl⟩
  | j + 1, k, hk, h => by
    obtain ⟨fuel, hfuel⟩ : ∃ fuel, 33 - k = fuel + 1 := ⟨32 - k, by omega⟩
    have hnext : 33 - (k + 1) = fuel := by omega
    obtain ⟨rest, hrest⟩ := powersTree_path_of_le (t := t) (j := j) (k := k + 1) (by omega)
      fun i hi => h i (by omega)
    have hmax := mt (ladderValue_eq_max (show k ≤ 32 by omega)).1 (by omega)
    rw [hnext] at hrest
    rw [hfuel, powersTree, ProbeTree.path, if_pos (by simpa using h k (by omega)), if_neg hmax, hrest,
      List.range'_succ, List.map_cons, show k + (j + 1) = k + 1 + j by omega]
    exact ⟨rest, rfl⟩

/-- Whether the search for a candidate asks the whole ladder of a version. -/
def reveals (t cand : ℕ) : Bool := decide (searchBinaryLadder cand t [] [] = baseBinaryLadder t)

/-- A candidate that asks the whole ladder is not far below its target. -/
theorem le_of_reveals {t cand : ℕ} (ht : 127 ≤ t) (h : reveals t cand = true) : 127 ≤ cand := by
  by_contra hlt
  rw [reveals, decide_eq_true_eq, searchBinaryLadder_eq, baseBinaryLadder_eq] at h
  obtain ⟨rest, hpath⟩ := powersTree_path_of_le (t := t) (j := 8) (k := 0) (by omega) fun i hi => by
    have hv := ladderValue_of_le (show i ≤ 32 by omega)
    have := Nat.pow_le_pow_right (show 0 < 2 by omega) (show i ≤ 7 by omega)
    omega
  have hmem : 127 ∈ (ladder.path (decide <| · ≤ t)).dropLast := by
    rw [show ladder.path (decide <| · ≤ t) = _ from hpath, List.dropLast_append_cons]
    exact List.mem_append_left _ (by decide)
  have := ProbeTree.stop_of_cut_eq_path h 127 hmem
  rw [decide_eq_true ht, searchEnds, if_pos rfl, decide_eq_false_iff_not] at this
  omega

/-- **No candidate up to the length of its ladder reveals a version above 8.** -/
theorem not_reveals {t cand : ℕ} (ht : 8 < t) (hcand : cand ≤ (baseBinaryLadder t).length) :
    reveals t cand = false := by
  rcases Nat.lt_or_ge t 127 with hlt | hge
  · have hall : ∀ t < 127, 8 < t → ∀ cand < (baseBinaryLadder t).length + 1, reveals t cand = false := by
      decide +kernel
    exact hall t hlt ht cand (by omega)
  · cases h : reveals t cand with
    | false => rfl
    | true =>
      have := le_of_reveals hge h
      have := length_baseBinaryLadder_le t
      omega

theorem searchBinaryLadder_self (t : ℕ) : searchBinaryLadder t t [] [] = baseBinaryLadder t := by
  rw [searchBinaryLadder_eq, baseBinaryLadder_eq]
  refine ProbeTree.cut_eq_path fun v _ => ?_
  by_cases hv : v ≤ t
  · simp [searchEnds, hv]
  · simp [searchEnds, hv]

end BinaryLadder

/-! ### What the candidates find -/

namespace KtClient

variable {results : List PrefixSearchResult} {t : ℕ}

/-- A candidate that decodes a whole ladder asks all of it. -/
theorem reveals_of_decoded {cand : ℕ} {d : List DecodedLookup}
    (h : outcomes results = (baseBinaryLadder t).map (decide <| · ≤ t))
    (hd : decodeSearchLadder results cand = .ok d) : reveals t cand = true := by
  have hself := decodeSearchLadder_self h
  obtain rfl := decoded_unique hself hd
  have hcut := @decoded_eq _ _ _ (decide <| · ≤ t) hd fun lk hlk => by
    obtain ⟨v, -, rfl⟩ := List.mem_map.1 hlk
    rfl
  have hversions := congrArg (List.map DecodedLookup.version) hcut
  rw [List.map_map, List.map_map, ← searchBinaryLadder_eq] at hversions
  have hid : ∀ l : List ℕ, l.map (DecodedLookup.version ∘ fun v => ⟨v, decide (v ≤ t)⟩) = l :=
    fun l => List.map_id'' (fun _ => rfl) l
  rw [hid, hid] at hversions
  rw [reveals, decide_eq_true_eq, hversions]

/-- **Above version 8 nothing is found**, and the ladder does not decode. -/
theorem not_decoded_of_large (ht : 8 < t)
    (h : outcomes results = (baseBinaryLadder t).map (decide <| · ≤ t)) :
    ownerGreatest results = none ∧ ∀ d, decodeSearchLadder results 0 ≠ .ok d := by
  have hlen : results.length = (baseBinaryLadder t).length := by
    simpa [outcomes] using congrArg List.length h
  have hfail : ∀ cand ≤ results.length, ∀ d, decodeSearchLadder results cand ≠ .ok d := by
    intro cand hcand d hd
    have := reveals_of_decoded h hd
    rw [not_reveals ht (hlen ▸ hcand)] at this
    cases this
  refine ⟨?_, hfail 0 (Nat.zero_le _)⟩
  rw [ownerGreatest]
  split_ifs
  · rfl
  · rw [List.findSome?_eq_none_iff.2, Option.join_none]
    intro cand hcand
    have hcand := List.mem_range.1 hcand
    cases hd : decodeSearchLadder results cand with
    | error e => rfl
    | ok d => exact absurd hd (hfail cand (by omega) d)

end KtClient

theorem LabelLog.ownerLadder_eq (L : LabelLog) (e : ℕ) :
    Tree.ownerLadder (L.greatest e) = L.ladderAt e := by
  cases hg : L.greatest e with
  | none => exact (LabelLog.ladderAt_of_none hg).symm
  | some g => exact (searchBinaryLadder_self g).trans (LabelLog.ladderAt_of_some hg).symm

variable {P : Primitives} {c : KtClient} {t : Tree} {label : Octets} {L : LabelLog} {e ptr : ℕ}
  {pp : PrefixProof} {found : List (ℕ × Option Octets)} {ladders : List (ℕ × List ℕ)}
  {order : List ℕ} {binaryLadder : List BinaryLadderStep} {s : Ladders}

theorem Tree.Serves.ownerLadder_proves (hserves : t.Serves P label L) (he : e < L.size)
    (hptr : LogTree.getPrefixPtr t.store e = .ok ptr)
    (hproof : t.generateLadderProof P ptr label (Tree.ownerLadder (L.greatest e)) = .ok (pp, found)) :
    pp.Proves P (L.contents e) ((L.ladderAt e).map L.key) := by
  rw [L.ownerLadder_eq] at hproof
  obtain ⟨ptr', pp', hptr', hproof', hproves⟩ := hserves.generateLadderProof he
    fun v hv => mem_ladder_path hv
  obtain rfl : ptr = ptr' := Except.ok.inj (hptr.symm.trans hptr')
  obtain ⟨rfl, -⟩ := Prod.mk.inj (Except.ok.inj (hproof.symm.trans hproof'))
  exact hproves

/-- The ladder of a label with more than nine versions is refused. -/
theorem KtClient.verifyOwnerLadder_large {g : ℕ} (he : e < L.size) (hg : L.greatest e = some g)
    (hlarge : 8 < g) (hproves : pp.Proves P (L.contents e) ((L.ladderAt e).map L.key))
    (out : Octets × Option ℕ × Ladders) : c.verifyOwnerLadder P label pp binaryLadder s ≠ .ok out := by
  intro h
  have htypes := hproves.types
  rw [List.drop_zero, List.map_map, LabelLog.ladderAt_of_some hg] at htypes
  have houtcomes : outcomes pp.results = (baseBinaryLadder g).map (decide <| · ≤ g) := by
    refine htypes.trans (List.map_congr_left fun v hv => ?_)
    rw [baseBinaryLadder_eq] at hv
    rw [Function.comp_apply, LabelLog.contents_key he (mem_ladder_path hv), LabelLog.present_eq hg]
    cases decide (v ≤ g) <;> rfl
  obtain ⟨hnone, hdecode⟩ := KtClient.not_decoded_of_large hlarge houtcomes
  rw [KtClient.verifyOwnerLadder, hnone] at h
  obtain ⟨d, hd, -⟩ := Result.bind_eq_ok.1 h
  exact hdecode d hd

/-- A log with the given number of versions of the empty label, all in one entry, and the
proof of its owner ladder. -/
theorem exists_owner_ladder (count : ℕ) (h₀ : 0 < count) (hcount : count ≤ maxVersion) :
    ∃ (t : Tree) (L : LabelLog) (ptr : ℕ) (pp : PrefixProof) (found : List (ℕ × Option Octets))
      (binaryLadder : List BinaryLadderStep), t.Serves Primitives.ideal [] L ∧ 0 < L.size ∧
      L.greatest 0 = lastVersion count ∧ (sampleClient 10).CanVerify Primitives.ideal [] L ∧
      LogTree.getPrefixPtr t.store 0 = .ok ptr ∧
      t.generateLadderProof Primitives.ideal ptr [] (Tree.ownerLadder (L.greatest 0)) = .ok (pp, found) ∧
      L.Wire none [(0, Tree.ownerLadder (L.greatest 0))] (firstSeen (Tree.ownerLadder (L.greatest 0)))
        binaryLadder := by
  obtain ⟨t, L, h⟩ : ∃ (t : Tree) (L : LabelLog), t.Commits 10 [(0, List.replicate count [])] L :=
    exists_sampleServer 10 (List.pairwise_singleton _ _) (by simp; omega) (by simp) (by simp)
      (by simpa using hcount)
  have hsize : L.size = 1 := h.size
  have hgreatest : L.greatest 0 = lastVersion count := by
    rw [h.greatest]
    simp
  have hversions : ∀ v ∈ Tree.ownerLadder (L.greatest 0), v ≤ maxVersion := fun v hv => by
    rw [L.ownerLadder_eq] at hv
    exact mem_ladder_path hv
  obtain ⟨ptr, pp, hptr, hproof, -⟩ := h.serves.generateLadderProof (e := 0) (by omega) hversions
  exact ⟨t, L, ptr, pp, _, _, h.serves, by omega, hgreatest, sampleClient_canVerify h.key h.vrfProof,
    hptr, hproof, LabelLog.wire_map (nodup_firstSeen _)⟩

/-- **An honest owner ladder verifies exactly up to version 8**: it then shows the entry's
prefix root and greatest version, and is refused otherwise. -/
theorem owner_ladder_iff (hserves : t.Serves P label L) (he : e < L.size)
    (hverify : c.CanVerify P label L) (hptr : LogTree.getPrefixPtr t.store e = .ok ptr)
    (hproof : t.generateLadderProof P ptr label (Tree.ownerLadder (L.greatest e)) = .ok (pp, found))
    (hwire : L.Wire none ladders order binaryLadder)
    (hladder : (e, Tree.ownerLadder (L.greatest e)) ∈ ladders) (hs : s.Honest L order)
    (horder : firstSeenAfter s.wireIndex (Tree.ownerLadder (L.greatest e)) <+: order) :
    (∃ s', c.verifyOwnerLadder P label pp binaryLadder s = .ok (L.root P e, L.greatest e, s')) ↔
      ∀ g, L.greatest e = some g → g ≤ 8 := by
  have hproves := hserves.ownerLadder_proves he hptr hproof
  rw [L.ownerLadder_eq] at hladder horder
  constructor
  · rintro ⟨s', h⟩ g hg
    by_contra hlarge
    exact KtClient.verifyOwnerLadder_large he hg (by omega) hproves _ h
  · intro hsmall
    obtain ⟨s', h, -, -⟩ := KtClient.verifyOwnerLadder_honest hwire hverify he
      (fun g hg => hsmall g hg) hladder hproves hs horder
    exact ⟨s', h⟩

/-- Nine versions are still within reach of the candidates. -/
theorem owner_ladder_nine : ∃ (t : Tree) (L : LabelLog) (ptr : ℕ) (pp : PrefixProof)
    (found : List (ℕ × Option Octets)) (binaryLadder : List BinaryLadderStep),
    t.Serves Primitives.ideal [] L ∧ L.greatest 0 = some 8 ∧
    t.generateLadderProof Primitives.ideal ptr [] (Tree.ownerLadder (some 8)) = .ok (pp, found) ∧
    ∃ s', (sampleClient 10).verifyOwnerLadder Primitives.ideal [] pp binaryLadder (.new []) =
      .ok (L.root Primitives.ideal 0, some 8, s') := by
  obtain ⟨t, L, ptr, pp, found, binaryLadder, hserves, hsize, hgreatest, hverify, hptr, hproof, hwire⟩ :=
    exists_owner_ladder 9 (by decide) (by decide)
  have hg : L.greatest 0 = some 8 := hgreatest
  have hladder := (owner_ladder_iff (s := .new []) hserves hsize hverify hptr hproof hwire List.mem_cons_self
    ⟨List.nil_prefix, fun v out h => by cases h⟩ List.prefix_rfl).2 fun g h => by
      rw [hg] at h
      have := Option.some.inj h
      omega
  rw [hg] at hproof hladder
  exact ⟨t, L, ptr, pp, found, binaryLadder, hserves, hg, hproof, hladder⟩

/-- **Ten versions are too many**: the owner refuses the honest ladder of a label whose
greatest version is 9. -/
theorem owner_ladder_ten : ∃ (t : Tree) (L : LabelLog) (ptr : ℕ) (pp : PrefixProof)
    (found : List (ℕ × Option Octets)) (binaryLadder : List BinaryLadderStep),
    t.Serves Primitives.ideal [] L ∧ L.greatest 0 = some 9 ∧
    (sampleClient 10).CanVerify Primitives.ideal [] L ∧ LogTree.getPrefixPtr t.store 0 = .ok ptr ∧
    t.generateLadderProof Primitives.ideal ptr [] (Tree.ownerLadder (some 9)) = .ok (pp, found) ∧
    L.Wire none [(0, Tree.ownerLadder (some 9))] (firstSeen (Tree.ownerLadder (some 9))) binaryLadder ∧
    ∀ out, (sampleClient 10).verifyOwnerLadder Primitives.ideal [] pp binaryLadder (.new []) ≠ .ok out := by
  obtain ⟨t, L, ptr, pp, found, binaryLadder, hserves, hsize, hgreatest, hverify, hptr, hproof, hwire⟩ :=
    exists_owner_ladder 10 (by decide) (by decide)
  have hg : L.greatest 0 = some 9 := hgreatest
  have hproves := hserves.ownerLadder_proves hsize hptr hproof
  rw [hg] at hproof hwire
  exact ⟨t, L, ptr, pp, found, binaryLadder, hserves, hg, hverify, hptr, hproof, hwire,
    KtClient.verifyOwnerLadder_large hsize hg (by decide) hproves⟩

end KeyTransparency
