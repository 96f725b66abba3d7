/-
# Verifying honest search ladders

A search ladder of an honest walk is the beginning of the base ladder of its target, so
that all of them together number the versions in the base ladder's order.  It verifies,
and shows how the entry's greatest version relates to the target
(`KtClient.verifyLadderProof_honest`).
-/

import KeyTransparency.Client.HonestLadder
import KeyTransparency.Tree.Traversal

namespace KeyTransparency

open BinaryLadder

/-- What is asked of an entry in a search for a target. -/
def LabelLog.searchLadder (L : LabelLog) (target e : ℕ) : List ℕ :=
  ladder.cut (L.present e) (searchEnds target)

/-- **What the ladders of a search have retained** is what the log holds. -/
def Ladders.Retains (L : LabelLog) (s : Ladders) : Prop :=
  ∀ v c, s.material v = some c → c = some (L.commitment v)

section

variable {P : Primitives} {c : KtClient} {label : Octets} {L : LabelLog}
  {ladders : List (ℕ × List ℕ)} {order : List ℕ} {binaryLadder : List BinaryLadderStep}
  {target e v : ℕ} {greatest isRightmost : Bool}

namespace LabelLog

theorem searchLadder_eq (target e : ℕ) :
    Tree.searchLadder target (L.greatest e) = L.searchLadder target e := by
  cases hg : L.greatest e with
  | none =>
    have hpresent : L.present e = fun _ => false := funext fun v => present_of_none hg
    rw [searchLadder, hpresent]
    simp [Tree.searchLadder, ladder, powersTree, ProbeTree.cut, ladderValue, searchEnds]
  | some g =>
    have hpresent : L.present e = fun v => decide (v ≤ g) := funext fun v => present_eq hg
    rw [searchLadder, hpresent]
    exact searchBinaryLadder_eq target g

theorem searchLadder_beginning (target e : ℕ) : L.searchLadder target e <+: baseBinaryLadder target :=
  cut_beginning_baseBinaryLadder _ _

theorem le_of_mem_searchLadder (h : v ∈ L.searchLadder target e) : v ≤ maxVersion :=
  mem_ladder_path (ProbeTree.mem_path_of_mem_cut h)

/-- An entry with the target as its greatest version is asked the whole ladder. -/
theorem searchLadder_self (h : L.greatest e = some target) :
    L.searchLadder target e = baseBinaryLadder target := by
  have hpresent : L.present e = fun v => decide (v ≤ target) := funext fun v => present_eq h
  rw [baseBinaryLadder_eq, searchLadder, hpresent]
  refine ProbeTree.cut_eq_path fun v _ => ?_
  by_cases hv : v ≤ target
  · simp [searchEnds, hv]
  · simp [searchEnds, hv]

/-- **An undecided search** has found the target to be the greatest version. -/
theorem relation_eq_of_undecided (he : e < L.size) (htarget : target ≤ maxVersion)
    (h : ∀ v ∈ L.searchLadder target e, searchEnds target v (L.present e v) = false) :
    L.relation target e = .eq := by
  have hpath := ProbeTree.cut_eq_path h
  rw [show ladder.cut (L.present e) (searchEnds target) = L.searchLadder target e from rfl] at hpath
  have hanswer : ∀ v ∈ ladder.path (L.present e), L.present e v = decide (v ≤ target) := fun v hv => by
    have hv' := h v (hpath ▸ hv)
    cases hp : L.present e v
    · rw [hp] at hv'
      simpa [searchEnds] using hv'
    · rw [hp] at hv'
      simpa [searchEnds] using hv'
  have hbase : ladder.path (L.present e) = baseBinaryLadder target := by
    rw [baseBinaryLadder_eq]
    exact ProbeTree.path_congr hanswer
  have hself : target ∈ baseBinaryLadder target := mem_baseBinaryLadder_self (by
    unfold maxVersion at htarget
    omega)
  have hpresent := hanswer target (hbase ▸ hself)
  obtain ⟨g, hg, hle⟩ := present_iff.1 (hpresent.trans (decide_eq_true le_rfl))
  -- the ladder shows its own greatest version
  have hgself : g ∈ baseBinaryLadder g := mem_baseBinaryLadder_self (by
    have := L.small he hg
    unfold maxVersion at this
    omega)
  have hgmem : g ∈ ladder.path (L.present e) := by
    have hpresent : L.present e = fun v => decide (v ≤ g) := funext fun v => present_eq hg
    rw [hpresent]
    rwa [baseBinaryLadder_eq] at hgself
  have hgle := hanswer g hgmem
  rw [present_eq hg, decide_eq_true le_rfl, eq_comm, decide_eq_true_eq] at hgle
  rw [relation_eq_eq, hg, show g = target by omega]

end LabelLog

/-! ### Verifying -/

/-- A lookup decides the search, or leaves the relation as it is. -/
theorem KtClient.lookupRelation_honest (hgreatest : greatest = true → ∀ g ∈ L.greatest e, g ≤ target)
    (hright : greatest = true → isRightmost = true → L.greatest e = some target) (relation : Ordering) :
    lookupRelation target greatest isRightmost ⟨v, L.present e v⟩ relation =
      .ok (if searchEnds target v (L.present e v) then L.relation target e else relation) := by
  cases hp : L.present e v with
  | true =>
    obtain ⟨g, hg, hle⟩ := LabelLog.present_iff.1 hp
    rw [lookupRelation]
    by_cases hlt : target < v
    · have hfalse : greatest = false := by
        by_contra h
        have := hgreatest (by simpa using h) g hg
        omega
      have hgt : L.relation target e = .gt := by
        rw [LabelLog.relation_eq_gt, hg]
        simpa using (show target < g by omega)
      simp [hlt, hfalse, searchEnds, hgt]
    · simp [hlt, searchEnds]
  | false =>
    rw [lookupRelation, if_neg (by simp)]
    by_cases hle : v ≤ target
    · have hnot : ¬ (greatest = true ∧ isRightmost = true) := by
        rintro ⟨h, h'⟩
        have := hright h h'
        rw [LabelLog.present_eq this, decide_eq_false_iff_not] at hp
        exact hp hle
      have hlt : L.relation target e = .lt := by
        rw [LabelLog.relation_eq_lt]
        cases hg : L.greatest e with
        | none => rfl
        | some g =>
          rw [LabelLog.present_eq hg, decide_eq_false_iff_not] at hp
          simpa using (show g < target by omega)
      simp [hle, hnot, searchEnds, hlt]
    · simp [hle, searchEnds]

/-- An included version has the log's commitment in the ladder, or in the value. -/
theorem KtClient.lookupCommitment_honest {step : BinaryLadderStep} {all : List ℕ}
    (hstep : L.StepFor (some target) ladders v step) (hladder : (e, all) ∈ ladders) (hv : v ∈ all)
    (hgreatest : greatest = true → ∀ l ∈ ladders, ∀ g ∈ L.greatest l.1, g ≤ target) :
    lookupCommitment target (L.commitment target) greatest ⟨v, L.present e v⟩ step =
      .ok (if L.present e v then some (L.commitment v) else none) := by
  rw [lookupCommitment]
  cases hp : L.present e v with
  | true =>
    rw [if_pos rfl, if_pos rfl]
    by_cases htarget : v = target
    · subst htarget
      rw [if_pos rfl, ensure_of fun c hc => hstep.commitment c hc]
      rfl
    · obtain ⟨comm, hcomm⟩ := Option.isSome_iff_exists.1
        (hstep.found (fun h => htarget (Option.some.inj h).symm) ⟨_, hladder, hv, hp⟩)
      rw [if_neg htarget, hcomm, ← hstep.commitment comm hcomm]
      rfl
  | false =>
    rw [if_neg (by simp), if_neg (by simp)]
    have hnone : ¬ (greatest = true ∧ step.commitment.isSome = true ∧ target < v) := fun ⟨h, hsome, hlt⟩ => by
      obtain ⟨l, hl, -, hpresent⟩ := hstep.absent hsome
      obtain ⟨g, hg, hle⟩ := LabelLog.present_iff.1 hpresent
      have := hgreatest h l hl g hg
      omega
    rw [ensure_of hnone]
    rfl

/-- **The lookups of a search ladder** lead to the entry's root. -/
theorem KtClient.verifyLookups_honest (hwire : L.Wire (some target) ladders order binaryLadder)
    (hverify : c.CanVerify P label L) (he : e < L.size) {pp : PrefixProof} {all : List ℕ}
    (hladder : (e, all) ∈ ladders)
    (hgreatest : greatest = true → ∀ l ∈ ladders, ∀ g ∈ L.greatest l.1, g ≤ target)
    (hright : greatest = true → isRightmost = true → L.greatest e = some target) :
    ∀ {versions : List ℕ} {j : ℕ} {s : LadderFold}, (∀ v ∈ versions, v ∈ all ∧ v ≤ maxVersion) →
    pp.ProvesFrom P (L.contents e) j s.elementsOffset (versions.map L.key) →
    (∀ prev ∈ s.computedRoot, prev = L.root P e) → s.ladders.Honest L order → s.ladders.Retains L →
    firstSeenAfter s.ladders.wireIndex versions <+: order →
    ∃ s', c.verifyLookups P label pp target binaryLadder (L.commitment target) greatest isRightmost j
        (L.lookups e versions) s = .ok s' ∧
      s'.relation = (if versions.any fun v => searchEnds target v (L.present e v) then
        L.relation target e else s.relation) ∧
      s'.elementsOffset = pp.elements.length ∧
      s'.computedRoot = (if versions = [] then s.computedRoot else some (L.root P e)) ∧
      s'.ladders.wireIndex = firstSeenAfter s.ladders.wireIndex versions ∧
      s'.ladders.Honest L order ∧ s'.ladders.Retains L
  | [], j, s, _, hproves, _, hs, hret, _ => ⟨s, rfl, rfl, hproves.2, rfl, rfl, hs, hret⟩
  | v :: versions, j, s, hall, hproves, hroot, hs, hret, horder => by
    obtain ⟨hmem, hv⟩ := hall v List.mem_cons_self
    obtain ⟨result, hresult, htype, hcompute, hrest⟩ := hproves
    replace hcompute : PrefixVerifier.computeRootFromResult P pp j (L.key v) (L.contents e (L.key v))
      s.elementsOffset = .ok (L.root P e, result.depth) := hcompute
    have hfirst : appendNew s.ladders.wireIndex v <+: order :=
      (prefix_firstSeenAfter (appendNew s.ladders.wireIndex v) versions).trans horder
    have hinput : ∀ input, constructVrfInput label v = .ok input →
        (constructVrfInput label v).context "VRF input construction failed" = .ok input :=
      fun input h => by rw [h, Result.context_ok]
    obtain ⟨step, s₁, hstep, hfor, hslots, hs₁, hmaterial⟩ := ladderStep_honest hwire hverify hv
      (m := s!"Binary ladder VRF verify failed at v={v}") hinput hs hfirst
    have hrelation := lookupRelation_honest (v := v) (fun h => hgreatest h _ hladder) hright s.relation
    have hcommitment := lookupCommitment_honest hfor hladder hmem hgreatest
    rw [← LabelLog.contents_key he hv] at hcommitment
    obtain ⟨material, hmat⟩ : ∃ material, material = if L.present e v then
      Function.update s₁.material v (some (L.contents e (L.key v))) else s₁.material := ⟨_, rfl⟩
    have hret₁ : Ladders.Retains L { s₁ with material := material } := fun w comm hw => by
      dsimp only at hw
      rw [hmat, hmaterial] at hw
      split_ifs at hw with hp
      · by_cases hwv : w = v
        · subst hwv
          rw [Function.update_self, LabelLog.contents_key he hv, if_pos hp] at hw
          exact (Option.some.inj hw).symm
        · rw [Function.update_of_ne hwv] at hw
          exact hret w comm hw
      · exact hret w comm hw
    have hlookup : c.verifyLookup P label pp target binaryLadder (L.commitment target) greatest
        isRightmost j ⟨v, L.present e v⟩ s = .ok ⟨if searchEnds target v (L.present e v) then
          L.relation target e else s.relation, s.elementsOffset + result.depth, some (L.root P e),
          { s₁ with material := material }⟩ := by
      rw [verifyLookup, hrelation, Result.ok_bind, hstep, Result.ok_bind]
      dsimp only
      rw [hcommitment, Result.ok_bind, hcompute, Result.ok_bind]
      dsimp only
      rw [agreeingRoot, ensure_of hroot, hmat]
      rfl
    rw [firstSeenAfter_cons, ← hslots] at horder
    obtain ⟨s₂, hlookups, hrel₂, hoff₂, hroot₂, hslots₂, hs₂, hret₂⟩ :=
      @verifyLookups_honest hwire hverify he pp all hladder hgreatest hright versions (j + 1)
        ⟨if searchEnds target v (L.present e v) then L.relation target e else s.relation,
          s.elementsOffset + result.depth, some (L.root P e), { s₁ with material := material }⟩
        (fun w hw => hall w (List.mem_cons_of_mem _ hw)) hrest
        (fun prev hprev => (Option.some.inj hprev).symm) ⟨hs₁.slots, hs₁.cached⟩ hret₁ horder
    refine ⟨s₂, ?_, ?_, hoff₂, ?_, ?_, hs₂, hret₂⟩
    · rw [LabelLog.lookups, List.map_cons, verifyLookups, hlookup, Result.ok_bind]
      exact hlookups
    · rw [hrel₂, List.any_cons]
      cases searchEnds target v (L.present e v) <;> simp
    · rw [hroot₂, ite_self, if_neg (List.cons_ne_nil _ _)]
    · rw [hslots₂, hslots, firstSeenAfter_cons]

/-- **An honest search ladder verifies**, and shows how the entry's greatest version
relates to the target. -/
theorem KtClient.verifyLadderProof_honest (hwire : L.Wire (some target) ladders order binaryLadder)
    (hverify : c.CanVerify P label L) (he : e < L.size) (htarget : target ≤ maxVersion)
    (hladder : (e, L.searchLadder target e) ∈ ladders)
    (hgreatest : greatest = true → ∀ l ∈ ladders, ∀ g ∈ L.greatest l.1, g ≤ target)
    (hright : greatest = true → isRightmost = true → L.greatest e = some target) {pp : PrefixProof}
    (hproves : pp.Proves P (L.contents e) ((L.searchLadder target e).map L.key)) {s : Ladders}
    (hs : s.Honest L order) (hret : s.Retains L)
    (horder : firstSeenAfter s.wireIndex (L.searchLadder target e) <+: order) :
    ∃ s', c.verifyLadderProof P label pp target binaryLadder (L.commitment target) greatest isRightmost
        s = .ok (L.root P e, L.relation target e, s') ∧
      s'.wireIndex = firstSeenAfter s.wireIndex (L.searchLadder target e) ∧ s'.Honest L order ∧
      s'.Retains L := by
  have hmax : ∀ v ∈ L.searchLadder target e, v ≤ maxVersion := fun v hv =>
    LabelLog.le_of_mem_searchLadder hv
  have htypes := hproves.types
  rw [List.drop_zero, List.map_map, List.map_congr_left (g := L.present e) fun v hv => by
    rw [Function.comp_apply, LabelLog.contents_key he (hmax v hv)]
    cases L.present e v <;> rfl] at htypes
  have hdecode := decodeSearchLadder_cut htypes
  obtain ⟨s', hlookups, hrelation, hoff, hroot, hslots, hs', hret'⟩ := verifyLookups_honest (j := 0)
    (s := ⟨.eq, 0, none, s⟩) hwire hverify he hladder hgreatest hright (fun v hv => ⟨hv, hmax v hv⟩)
    hproves (by simp) hs hret horder
  have hne : L.searchLadder target e ≠ [] := by
    rw [LabelLog.searchLadder, ladder, powersTree, ProbeTree.cut]
    exact List.cons_ne_nil _ _
  rw [if_neg hne] at hroot
  have hfinal : s'.relation = L.relation target e := by
    rw [hrelation]
    split_ifs with hany
    · rfl
    · refine (LabelLog.relation_eq_of_undecided he htarget fun v hv => ?_).symm
      simpa using List.any_eq_false.1 (by simpa using hany) v hv
  have hwhole : greatest = true ∧ isRightmost = true →
      (L.lookups e (L.searchLadder target e)).map DecodedLookup.version = baseBinaryLadder target := by
    rintro ⟨h, h'⟩
    rw [LabelLog.searchLadder_self (hright h h'), LabelLog.lookups, List.map_map]
    exact List.map_id' _
  refine ⟨s'.ladders, ?_, hslots, hs', hret'⟩
  rw [verifyLadderProof, hdecode, Result.context_ok, Result.ok_bind]
  change (c.verifyLookups P label pp target binaryLadder (L.commitment target) greatest isRightmost 0
    (L.lookups e (L.searchLadder target e)) ⟨.eq, 0, none, s⟩ >>= _) = _
  rw [hlookups, Result.ok_bind, ensure_of hoff, Result.ok_bind]
  change (ensure (greatest = true ∧ isRightmost = true →
    (L.lookups e (L.searchLadder target e)).map DecodedLookup.version = baseBinaryLadder target) _ >>= _) = _
  rw [ensure_of hwhole, Result.ok_bind, hroot, okOr_some, Result.ok_bind, hfinal]
  rfl

end

end KeyTransparency
