/-
# Ladders come to an end

What a verifier does with a ladder returns, whatever the proof says: the decoder tries at most
33 powers of two and halves at most 31 times, and a result of a proof is folded along a VRF
output of 32 bytes, which has a bit for every level (`KtClient.verifyLadderProof_returns` and
its siblings).
-/

import KeyTransparency.Client.Ladder

namespace KeyTransparency

open BinaryLadder

/-- The primitives return, with an error where they fail. -/
structure Primitives.Return (P : Primitives) : Prop where
  decodeKey : ∀ bytes, (P.decodeKey bytes).Settles
  verifyData : ∀ pk data sig, (P.verifyData pk data sig).Settles
  ecvrfVerify : ∀ suite pk alpha proof, (P.ecvrfVerify suite pk alpha proof).Settles

namespace ProofReader

variable (r : ProofReader)

theorem timestamp_settles (pos : ℕ) : (r.timestamp pos).Settles := by
  rw [timestamp]
  split
  · trivial
  · split
    · exact .fail
    · split_ifs
      · trivial
      · exact .fail
      · exact .fail

theorem prefixProof_settles : r.prefixProof.Settles :=
  Result.Returns.okOr.bind fun _ _ => trivial

theorem recordEntryRoot_settles (map : NodeMap) (entry : ℕ) (root : Octets) :
    (recordEntryRoot map entry root).Settles :=
  Result.Returns.ensure.bind fun _ _ => trivial

end ProofReader

/-! ### Decoding -/

namespace DecodedLookup

variable (results : List PrefixSearchResult) (target : ℕ)

theorem decodeFinish_settles (idx : ℕ) : (decodeFinish results idx).Settles :=
  Result.Returns.ensure.bind fun _ _ => trivial

theorem probe_settles (idx : ℕ) : (probe results idx).Settles :=
  Result.Returns.okOr.bind fun _ _ => trivial

/-- Every probe halves the distance of the bounds. -/
theorem decodeBisect_settles : ∀ {d fuel lower upper idx : ℕ}, upper ≤ lower + 2 ^ d → d < fuel →
    (decodeBisect results target fuel lower upper idx).Settles
  | d, 0, _, _, _, _, h => absurd h (by omega)
  | d, fuel + 1, lower, upper, idx, hd, h => by
    rw [decodeBisect]
    split_ifs with hopen
    · obtain ⟨d, rfl⟩ : ∃ d', d = d' + 1 := Nat.exists_eq_succ_of_ne_zero (by
        rintro rfl
        omega)
      rw [pow_succ] at hd
      refine (probe_settles results idx).bind fun inc => Result.Settles.bind ?_ fun _ => trivial
      split_ifs
      · exact decodeFinish_settles results _
      · exact decodeBisect_settles (d := d) (by omega) (by omega)
      · exact decodeFinish_settles results _
      · exact decodeBisect_settles (d := d) (by omega) (by omega)
    · exact decodeFinish_settles results idx

/-- The version before the one that is tried was included, or there is none. -/
theorem decodePowers_settles : ∀ {fuel k idx : ℕ}, fuel + k = 33 → k ≤ 32 →
    (decodePowers results target fuel k (if k = 0 then none else some (ladderValue (k - 1))) idx).Settles
  | 0, _, _, h, hk => absurd h (by omega)
  | fuel + 1, k, idx, h, hk => by
    have hvalue := ladderValue_of_le hk
    rw [decodePowers.eq_def]
    refine (probe_settles results idx).bind fun inc => Result.Settles.bind ?_ fun _ => trivial
    by_cases hinc : inc = true
    · rw [if_pos hinc]
      split_ifs with hstop
      · exact decodeFinish_settles results _
      · have hlast : k ≠ 32 := fun h => hstop (.inr ((ladderValue_eq_max hk).2 h))
        exact decodePowers_settles (k := k + 1) (by omega) (by omega)
    · rw [if_neg hinc]
      by_cases hle : ladderValue k ≤ target
      · rw [if_pos hle]
        exact decodeFinish_settles results _
      · rw [if_neg hle]
        -- version 0 is at most the target
        have hk₀ : k ≠ 0 := by
          rintro rfl
          rw [hvalue] at hle
          omega
        obtain ⟨j, rfl⟩ := Nat.exists_eq_succ_of_ne_zero hk₀
        have hprev := ladderValue_of_le (show j ≤ 32 by omega)
        have hpow : (2 : ℕ) ^ j ≤ 2 ^ 31 := Nat.pow_le_pow_right (by omega) (by omega)
        rw [if_neg hk₀]
        refine decodeBisect_settles results target (d := 31) ?_ (by omega)
        rw [hvalue, Nat.succ_sub_one, hprev, pow_succ]
        omega

end DecodedLookup

/-- **The decoder returns** on every list of results, for every target. -/
theorem decodeSearchLadder_settles (results : List PrefixSearchResult) (target : ℕ) :
    (decodeSearchLadder results target).Settles :=
  DecodedLookup.decodePowers_settles results target (k := 0) rfl (by omega)

/-! ### Verifying -/

/-- All that is cached are outputs of the VRF. -/
def Ladders.Outputs (s : Ladders) : Prop := ∀ v out, s.vrfCache v = some out → out.length = 32

theorem Ladders.outputs_new (wireIndex : List ℕ) : (Ladders.new wireIndex).Outputs :=
  fun _ _ h => by cases h

theorem PrefixVerifier.startOf_returns (P : Primitives) {result : PrefixSearchResult}
    (vrfOutput : Octets) (commitment : Option Octets) (hdepth : result.depth ≤ indexLength * 8) :
    (startOf P result vrfOutput commitment).Returns fun start => start.2 ≤ 256 := by
  rw [startOf]
  split
  · exact Result.Returns.okOr.bind fun _ _ => le_rfl
  · exact Result.Returns.okOr.bind fun _ _ => Result.Returns.ensure.bind fun _ _ => hdepth
  · exact hdepth
  · exact .fail

/-- **A fold returns** along an output that has enough bits. -/
theorem PrefixVerifier.computeRootFromResult_settles (P : Primitives) (proof : PrefixProof)
    (resultIdx : ℕ) {vrfOutput : Octets} (commitment : Option Octets) (elementsOffset : ℕ)
    (hlen : 32 ≤ vrfOutput.length) :
    (computeRootFromResult P proof resultIdx vrfOutput commitment elementsOffset).Settles := by
  refine Result.Returns.okOr.bind fun result _ => Result.Returns.ensure.bind fun _ hdepth =>
    (startOf_returns P vrfOutput commitment hdepth).bind ?_
  rintro ⟨start, level⟩ hlevel
  refine Result.Returns.ensure.bind fun _ _ => ?_
  dsimp only at hlevel ⊢
  rw [if_neg (by omega)]
  trivial

theorem agreeingRoot_settles (computedRoot : Option Octets) (root : Octets) (msg : String) :
    (agreeingRoot computedRoot root msg).Settles :=
  Result.Returns.ensure.bind fun _ _ => trivial

theorem opaqueBytes_settles (w : ℕ) (bytes : Octets) :
    (opaqueBytes w bytes).Settles := by
  unfold opaqueBytes
  split_ifs
  · trivial
  · exact .fail

theorem constructVrfInput_settles (label : Octets) (v : ℕ) : (constructVrfInput label v).Settles :=
  Result.Returns.ensure.bind fun _ _ => (opaqueBytes_settles 1 label).bind fun _ => trivial

namespace KtClient

theorem lookupRelation_settles (target : ℕ) (greatest isRightmost : Bool) (lk : DecodedLookup)
    (relation : Ordering) : (lookupRelation target greatest isRightmost lk relation).Settles := by
  rw [lookupRelation]
  split_ifs <;> trivial

theorem lookupCommitment_settles (target : ℕ) (comm : Octets) (greatest : Bool) (lk : DecodedLookup)
    (step : BinaryLadderStep) : (lookupCommitment target comm greatest lk step).Settles := by
  rw [lookupCommitment]
  split_ifs
  · exact Result.Returns.ensure.bind fun _ _ => trivial
  · exact Result.Returns.okOr.bind fun _ _ => trivial
  · exact Result.Returns.ensure.bind fun _ _ => trivial

variable {P : Primitives} (hP : P.Return) (c : KtClient) (label : Octets) (pp : PrefixProof)
  (binaryLadder : List BinaryLadderStep)
include hP

/-- The step of a version returns its output. -/
theorem ladderStep_returns {vrfInput : Result Octets} (hinput : vrfInput.Settles) (vrfMsg : String)
    (v : ℕ) {s : Ladders} (hs : s.Outputs) :
    (c.ladderStep P vrfInput vrfMsg binaryLadder v s).Returns fun r =>
      r.2.1.length = 32 ∧ r.2.2.Outputs := by
  rw [ladderStep]
  refine Result.Returns.okOr.bind fun step _ => ?_
  cases hcached : s.vrfCache v with
  | some out => exact ⟨hs v out hcached, hs⟩
  | none =>
    refine hinput.bind fun input => ?_
    have hout : (P.ecvrfVerify c.config.cipherSuite c.vrfPk input step.proof).Returns
        fun out => out.length = 32 :=
      (hP.ecvrfVerify _ _ _ _).of_eq_ok fun out hout _ => (P.ecvrfVerify_bytes hout).1
    refine hout.context.bind fun out hout => ⟨hout, fun w out' hw => ?_⟩
    dsimp only at hw
    by_cases hv : w = v
    · subst hv
      rw [Function.update_self] at hw
      exact Option.some.inj hw ▸ hout
    · rw [Function.update_of_ne hv] at hw
      exact hs w out' hw

theorem verifyLookup_returns (target : ℕ) (comm : Octets) (greatest isRightmost : Bool) (j : ℕ)
    (lk : DecodedLookup) {s : LadderFold} (hs : s.ladders.Outputs) :
    (c.verifyLookup P label pp target binaryLadder comm greatest isRightmost j lk s).Returns
      fun s' => s'.ladders.Outputs := by
  refine (lookupRelation_settles target greatest isRightmost lk s.relation).bind fun relation =>
    (ladderStep_returns hP c binaryLadder (constructVrfInput_settles label _).context _ _ hs).bind ?_
  rintro ⟨step, out, ladders⟩ ⟨hout, hladders⟩
  exact (lookupCommitment_settles target comm greatest lk step).bind fun commitment =>
    (PrefixVerifier.computeRootFromResult_settles P pp j _ s.elementsOffset hout.ge).bind fun root =>
      (agreeingRoot_settles _ _ _).bind fun computedRoot => hladders

theorem verifyLookups_returns (target : ℕ) (comm : Octets) (greatest isRightmost : Bool) :
    ∀ (j : ℕ) (decoded : List DecodedLookup) {s : LadderFold}, s.ladders.Outputs →
      (c.verifyLookups P label pp target binaryLadder comm greatest isRightmost j decoded s).Returns
        fun s' => s'.ladders.Outputs
  | _, [], _, hs => hs
  | j, lk :: decoded, _, hs =>
    (verifyLookup_returns hP c label pp binaryLadder target comm greatest isRightmost j lk hs).bind
      fun _ hs' => verifyLookups_returns target comm greatest isRightmost (j + 1) decoded hs'

/-- **A search ladder** is accepted or refused. -/
theorem verifyLadderProof_returns (target : ℕ) (comm : Octets) (greatest isRightmost : Bool)
    {s : Ladders} (hs : s.Outputs) :
    (c.verifyLadderProof P label pp target binaryLadder comm greatest isRightmost s).Returns
      fun r => r.2.2.Outputs :=
  (decodeSearchLadder_settles pp.results target).context.bind fun decoded _ =>
    (verifyLookups_returns hP c label pp binaryLadder target comm greatest isRightmost 0 decoded
      hs).bind fun _ hs' => Result.Returns.ensure.bind fun _ _ => Result.Returns.ensure.bind fun _ _ =>
        Result.Returns.okOr.bind fun _ _ => hs'

theorem verifySingleLookup_returns (version : ℕ) (comm : Octets) {s : Ladders} (hs : s.Outputs) :
    (c.verifySingleLookup P label pp version binaryLadder comm s).Returns fun r => r.2.2.Outputs := by
  refine Result.Returns.ensure.bind fun _ _ =>
    (ladderStep_returns hP c binaryLadder (constructVrfInput_settles label _) _ _ hs).bind ?_
  rintro ⟨step, out, ladders⟩ ⟨hout, hladders⟩
  exact (PrefixVerifier.computeRootFromResult_settles P pp 0 _ 0 hout.ge).bind fun root =>
    Result.Returns.ensure.bind fun _ _ => hladders

end KtClient

/-! ### Retained material -/

/-- All that is retained are outputs of the VRF. -/
def RetainedOutputs (material : ℕ → Option (Octets × Option Octets)) : Prop :=
  ∀ v out comm, material v = some (out, comm) → 32 ≤ out.length

namespace KtClient

variable (P : Primitives) {material : ℕ → Option (Octets × Option Octets)} (pp : PrefixProof)

end KtClient

end KeyTransparency
