/-
# Verifying honest ladders

The ladders of an honest walk verify: every version stands at the slot of the wire
ladder that the verifier looks at, when this numbers the versions in the order of their
first lookup (`LabelLog.Wire`), and the results lead to the entry's root.  An owner
ladder also has to reveal which version it was made for; it does so up to version 8
(`ownerGreatest_eq`).
-/

import KeyTransparency.Client.LadderDecode
import KeyTransparency.Client.WalkProof

namespace KeyTransparency

open BinaryLadder

/-- A client can check the VRF outputs of a log. -/
def KtClient.CanVerify (P : Primitives) (c : KtClient) (label : Octets) (L : LabelLog) : Prop :=
  ∀ v ≤ maxVersion, ∃ input, constructVrfInput label v = .ok input ∧
    P.ecvrfVerify c.config.cipherSuite c.vrfPk input (L.vrfProof v) = .ok (L.key v)

/-- **The steps of a binary ladder stand in the given order**, each as the ladders of a
walk leave it. -/
structure LabelLog.Wire (L : LabelLog) (target : Option ℕ) (ladders : List (ℕ × List ℕ))
    (order : List ℕ) (binaryLadder : List BinaryLadderStep) : Prop where
  nodup : order.Nodup
  step : ∀ v ∈ order, ∃ step, binaryLadder[order.idxOf v]? = some step ∧
    L.StepFor target ladders v step

/-- What the ladders of an honest response share, on the way through them. -/
structure Ladders.Honest (L : LabelLog) (order : List ℕ) (s : Ladders) : Prop where
  slots : s.wireIndex <+: order
  cached : ∀ v out, s.vrfCache v = some out → out = L.key v

section

variable {P : Primitives} {c : KtClient} {label : Octets} {L : LabelLog} {target : Option ℕ}
  {ladders : List (ℕ × List ℕ)} {order : List ℕ} {binaryLadder : List BinaryLadderStep} {e v : ℕ}

/-- **A session's binary ladder** has its versions in the order of their first lookup. -/
theorem LabelLog.Steps.wire {steps : List (ℕ × BinaryLadderStep)} (h : L.Steps target ladders steps) :
    L.Wire target ladders (firstSeen (ladders.flatMap Prod.snd)) (steps.map Prod.snd) := by
  refine ⟨nodup_firstSeen _, fun v hv => ?_⟩
  rw [← h.versions] at hv ⊢
  have hlt := List.idxOf_lt_length_of_mem hv
  have hlt' : (steps.map Prod.fst).idxOf v < steps.length := by simpa using hlt
  refine ⟨(steps[(steps.map Prod.fst).idxOf v]).2, ?_, ?_⟩
  · rw [List.getElem?_map, List.getElem?_eq_getElem hlt', Option.map_some]
  · have hfst : (steps[(steps.map Prod.fst).idxOf v]).1 = v := by
      have := List.getElem_idxOf hlt
      rwa [List.getElem_map] at this
    have := h.step _ (List.getElem_mem hlt')
    rwa [hfst] at this

/-- The slot of a version is its place in the order of the first lookups. -/
theorem Ladders.slot_eq (w : List ℕ) (v : ℕ) :
    Ladders.slot w v = ((appendNew w v).idxOf v, appendNew w v) := by
  rw [slot, appendNew]
  split_ifs with h
  · rfl
  · rw [List.idxOf_append_of_notMem h, List.idxOf_cons_self, Nat.add_zero]

theorem idxOf_of_beginning {l l' : List ℕ} (h : l <+: l') (hv : v ∈ l) : l'.idxOf v = l.idxOf v := by
  obtain ⟨rest, rfl⟩ := h
  exact List.idxOf_append_of_mem hv

/-- **The step of a version** is the one of its slot, and its output is the key. -/
theorem KtClient.ladderStep_honest (hwire : L.Wire target ladders order binaryLadder)
    (hverify : c.CanVerify P label L) (hv : v ≤ maxVersion) {m : String} {vrfInput : Result Octets}
    (hinput : ∀ input, constructVrfInput label v = .ok input → vrfInput = .ok input) {s : Ladders}
    (hs : s.Honest L order) (hslot : appendNew s.wireIndex v <+: order) :
    ∃ step s', c.ladderStep P vrfInput m binaryLadder v s = .ok (step, L.key v, s') ∧
      L.StepFor target ladders v step ∧ s'.wireIndex = appendNew s.wireIndex v ∧ s'.Honest L order ∧
      s'.material = s.material := by
  have hmem : v ∈ appendNew s.wireIndex v := mem_appendNew.2 (.inr rfl)
  obtain ⟨step, hstep, hfor⟩ := hwire.step v (hslot.subset hmem)
  rw [idxOf_of_beginning hslot hmem] at hstep
  obtain ⟨input, hin, hout⟩ := hverify v hv
  rw [ladderStep, Ladders.slot_eq, hstep, okOr_some, Result.ok_bind]
  cases hcache : s.vrfCache v with
  | some out =>
    obtain rfl := hs.cached v out hcache
    exact ⟨step, _, rfl, hfor, rfl, ⟨hslot, hs.cached⟩, rfl⟩
  | none =>
    refine ⟨step, { s with
      wireIndex := appendNew s.wireIndex v
      vrfCache := Function.update s.vrfCache v (some (L.key v)) }, ?_, hfor, rfl, ⟨hslot, ?_⟩, rfl⟩
    · simp only [hinput input hin, Result.ok_bind, hfor.proof, hout, Result.context_ok,
        Result.pure_eq]
    · intro w out hw
      dsimp only at hw
      by_cases hwv : w = v
      · subst hwv
        rw [Function.update_self] at hw
        exact (Option.some.inj hw).symm
      · rw [Function.update_of_ne hwv] at hw
        exact hs.cached w out hw

/-- The lookups of versions at an entry. -/
def LabelLog.lookups (L : LabelLog) (e : ℕ) (versions : List ℕ) : List DecodedLookup :=
  versions.map fun v => ⟨v, L.present e v⟩

theorem KtClient.verifyOwnerLookups_honest (hwire : L.Wire none ladders order binaryLadder)
    (hverify : c.CanVerify P label L) (he : e < L.size) {pp : PrefixProof} {all : List ℕ}
    (hladder : (e, all) ∈ ladders) : ∀ {versions : List ℕ} {j off : ℕ} {root : Option Octets}
      {s : Ladders}, (∀ v ∈ versions, v ∈ all ∧ v ≤ maxVersion) →
    pp.ProvesFrom P (L.contents e) j off (versions.map L.key) →
    (∀ prev ∈ root, prev = L.root P e) → s.Honest L order →
    firstSeenAfter s.wireIndex versions <+: order →
    ∃ s', c.verifyOwnerLookups P label pp (L.greatest e) binaryLadder j (L.lookups e versions) off root
        s = .ok (pp.elements.length, if versions = [] then root else some (L.root P e), s') ∧
      s'.wireIndex = firstSeenAfter s.wireIndex versions ∧ s'.Honest L order
  | [], j, off, root, s, _, hproves, _, hs, _ => by
    obtain ⟨-, rfl⟩ := hproves
    exact ⟨s, rfl, rfl, hs⟩
  | v :: versions, j, off, root, s, hall, hproves, hroot, hs, horder => by
    obtain ⟨hmem, hv⟩ := hall v List.mem_cons_self
    obtain ⟨result, hresult, htype, hcompute, hrest⟩ := hproves
    replace hcompute : PrefixVerifier.computeRootFromResult P pp j (L.key v) (L.contents e (L.key v))
      off = .ok (L.root P e, result.depth) := hcompute
    have hfirst : appendNew s.wireIndex v <+: order :=
      (prefix_firstSeenAfter (appendNew s.wireIndex v) versions).trans horder
    obtain ⟨step, s₁, hstep, hfor, hslots, hs₁, -⟩ := ladderStep_honest hwire hverify hv
      (fun _ h => h) hs hfirst
    obtain ⟨s₂, hlookups, hslots₂, hs₂⟩ := verifyOwnerLookups_honest hwire hverify he hladder
      (fun w hw => hall w (List.mem_cons_of_mem _ hw)) hrest
      (fun prev hprev => (Option.some.inj hprev).symm) hs₁ (hslots ▸ horder)
    refine ⟨s₂, ?_, by rw [hslots₂, hslots, firstSeenAfter_cons], hs₂⟩
    have hbound : ¬ (L.present e v = true ∧ ∀ g ∈ L.greatest e, g < v) := by
      rintro ⟨hpresent, hlt⟩
      obtain ⟨g, hg, hle⟩ := LabelLog.present_iff.1 hpresent
      have := hlt g hg
      omega
    -- an included version has its commitment in the step
    have hcomm : (if L.present e v = true then step.commitment else none) = L.contents e (L.key v) := by
      rw [LabelLog.contents_key he hv]
      split_ifs with hpresent
      · have hsome := hfor.found (by simp) ⟨(e, all), hladder, hmem, hpresent⟩
        obtain ⟨comm, hcomm⟩ := Option.isSome_iff_exists.1 hsome
        rw [hcomm, hfor.commitment comm hcomm]
      · rfl
    have hsome : L.present e v = true → step.commitment.isSome := fun hpresent =>
      hfor.found (by simp) ⟨(e, all), hladder, hmem, hpresent⟩
    have hlookup : c.verifyOwnerLookup P label pp (L.greatest e) binaryLadder j ⟨v, L.present e v⟩ off
        root s = .ok (off + result.depth, some (L.root P e), s₁) := by
      rw [verifyOwnerLookup, ensure_of hbound, Result.ok_bind, hstep, Result.ok_bind]
      dsimp only
      rw [ensure_of hsome, Result.ok_bind, hcomm, hcompute, Result.ok_bind]
      dsimp only
      rw [agreeingRoot, ensure_of hroot]
      rfl
    rw [LabelLog.lookups, List.map_cons, verifyOwnerLookups, hlookup, Result.ok_bind, if_neg (by simp)]
    dsimp only
    rw [← LabelLog.lookups, hlookups, ite_self]

/-- The types of the results are what the map says. -/
theorem PrefixProof.ProvesFrom.types {contents : Octets → Option Octets} {pp : PrefixProof} :
    ∀ {keys : List Octets} {idx off : ℕ}, pp.ProvesFrom P contents idx off keys →
      (pp.results.drop idx).map (fun r => decide (r.resultType = 1)) =
        keys.map fun key => (contents key).isSome
  | [], idx, off, h => by
    rw [h.1, List.drop_length, List.map_nil, List.map_nil]
  | key :: keys, idx, off, h => by
    obtain ⟨result, hresult, htype, -, hrest⟩ := h
    obtain ⟨hlt, rfl⟩ := List.getElem?_eq_some_iff.1 hresult
    rw [List.drop_eq_getElem_cons hlt, List.map_cons, List.map_cons, hrest.types]
    congr 1
    cases hc : (contents key).isSome
    · exact decide_eq_false (by rw [htype, hc]; simp)
    · exact decide_eq_true (by rw [htype, hc])

/-- What is asked of an entry to find its greatest version. -/
def LabelLog.ladderAt (L : LabelLog) (e : ℕ) : List ℕ := ladder.path (L.present e)

theorem LabelLog.ladderAt_of_some {g : ℕ} (h : L.greatest e = some g) :
    L.ladderAt e = baseBinaryLadder g := by
  rw [LabelLog.ladderAt, baseBinaryLadder_eq]
  exact ProbeTree.path_congr fun v _ => LabelLog.present_eq h

theorem LabelLog.ladderAt_of_none (h : L.greatest e = none) : L.ladderAt e = [0] := by
  have hpath : L.ladderAt e = ladder.path fun _ => false :=
    ProbeTree.path_congr fun v _ => LabelLog.present_of_none h
  rw [hpath]
  rfl

/-- **Whole ladders decode** to the lookups that an entry answers, and reveal its
greatest version when that is at most 8. -/
theorem LabelLog.decode_ladderAt (hsmall : ∀ g ∈ L.greatest e, g ≤ 8)
    {results : List PrefixSearchResult}
    (h : results.map (fun r => decide (r.resultType = 1)) = (L.ladderAt e).map (L.present e)) :
    KtClient.ownerGreatest results = L.greatest e ∧
      decodeSearchLadder results ((L.greatest e).getD 0) = .ok (L.lookups e (L.ladderAt e)) := by
  cases hg : L.greatest e with
  | none =>
    rw [LabelLog.ladderAt_of_none hg, List.map_singleton, LabelLog.present_of_none hg] at h
    rw [LabelLog.ladderAt_of_none hg, LabelLog.lookups, List.map_singleton, LabelLog.present_of_none hg]
    obtain ⟨r, rfl⟩ := List.length_eq_one_iff.1 (show results.length = 1 by
      simpa using congrArg List.length h)
    simp only [List.map_cons, List.map_nil, List.cons.injEq, and_true, decide_eq_false_iff_not] at h
    refine ⟨by simp [KtClient.ownerGreatest, h], ?_⟩
    refine decodeSearchLadder_eq_ok.2 ⟨?_, by simp [h]⟩
    exact .stop (by simp [searchEnds, ladderValue])
  | some g =>
    rw [LabelLog.ladderAt_of_some hg] at h ⊢
    have hpresent : L.present e = fun v => decide (v ≤ g) := funext fun v => LabelLog.present_eq hg
    rw [hpresent] at h
    refine ⟨KtClient.ownerGreatest_eq (hsmall g hg) h, ?_⟩
    rw [LabelLog.lookups, hpresent]
    exact KtClient.decodeSearchLadder_self h

/-- **An honest owner ladder verifies**, and shows the entry's greatest version. -/
theorem KtClient.verifyOwnerLadder_honest (hwire : L.Wire none ladders order binaryLadder)
    (hverify : c.CanVerify P label L) (he : e < L.size) (hsmall : ∀ g ∈ L.greatest e, g ≤ 8)
    (hladder : (e, L.ladderAt e) ∈ ladders) {pp : PrefixProof}
    (hproves : pp.Proves P (L.contents e) ((L.ladderAt e).map L.key)) {s : Ladders}
    (hs : s.Honest L order) (horder : firstSeenAfter s.wireIndex (L.ladderAt e) <+: order) :
    ∃ s', c.verifyOwnerLadder P label pp binaryLadder s = .ok (L.root P e, L.greatest e, s') ∧
      s'.wireIndex = firstSeenAfter s.wireIndex (L.ladderAt e) ∧ s'.Honest L order := by
  have hmax : ∀ v ∈ L.ladderAt e, v ≤ maxVersion := fun v hv => mem_ladder_path hv
  have htypes := hproves.types
  rw [List.drop_zero, List.map_map, List.map_congr_left (g := L.present e) fun v hv => by
    rw [Function.comp_apply, LabelLog.contents_key he (hmax v hv)]
    cases L.present e v <;> rfl] at htypes
  obtain ⟨hgreatest, hdecode⟩ := LabelLog.decode_ladderAt hsmall htypes
  obtain ⟨s', hlookups, hslots, hs'⟩ := verifyOwnerLookups_honest hwire hverify he hladder
    (fun v hv => ⟨hv, hmax v hv⟩) hproves (fun prev (hprev : prev ∈ none) => by cases hprev) hs horder
  have hne : L.ladderAt e ≠ [] := by
    cases hg : L.greatest e with
    | none => simp [LabelLog.ladderAt_of_none hg]
    | some g =>
      rw [LabelLog.ladderAt_of_some hg]
      exact List.ne_nil_of_mem (mem_baseBinaryLadder_self (by
        have := hsmall g hg
        omega))
  have hlen := length_decoded hdecode
  refine ⟨s', ?_, hslots, hs'⟩
  rw [if_neg hne] at hlookups
  simp only [verifyOwnerLadder, hgreatest, hdecode, Result.ok_bind, ensure_of hlen, hlookups,
    okOr_some, Result.pure_eq]
  rw [ensure_of True.intro, Result.ok_bind]

end

end KeyTransparency
