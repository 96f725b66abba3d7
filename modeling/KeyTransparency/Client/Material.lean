/-
# The material of monitored versions

Contact monitoring verifies a ladder with the VRF outputs and commitments retained
from earlier searches.  A search retains them for the versions that its ladders show
to exist (`verifySearch_material`), and only for these: the lookup that ends step 6 of
a fixed-version search leaves nothing behind.  So an obligation can be verified
again when the ladders of its search, or what was retained before, covered its
monitoring ladder (`covered_of_run`).
-/

import KeyTransparency.Client.LadderDecode
import KeyTransparency.Client.Session
import Mathlib.Logic.Relation

namespace KeyTransparency

open BinaryLadder LogMath

/-- A proof shows a version: as a ladder for the target, one of its lookups finds it. -/
def PrefixProof.ShowsVersion (pp : PrefixProof) (target version : ℕ) : Prop :=
  ∃ decoded, decodeSearchLadder pp.results target = .ok decoded ∧ ⟨version, true⟩ ∈ decoded

/-- The versions with material are the shown ones. -/
structure Ladders.Gathered (s : Ladders) (shown : ℕ → Prop) : Prop where
  held : ∀ {w}, shown w → ∃ out comm, s.material w = some (some comm) ∧ s.vrfCache w = some out
  none : ∀ {w}, ¬ shown w → s.material w = none

section

variable {P : Primitives} {c : KtClient} {label : Octets} {pp : PrefixProof} {target : ℕ}
  {binaryLadder : List BinaryLadderStep} {comm : Octets} {greatest isRightmost : Bool}
  {shown : ℕ → Prop}

theorem Ladders.Gathered.congr {s : Ladders} {shown' : ℕ → Prop} (h : s.Gathered shown)
    (hiff : ∀ w, shown w ↔ shown' w) : s.Gathered shown' :=
  ⟨fun hw => h.held ((hiff _).2 hw), fun hw => h.none (mt (hiff _).1 hw)⟩

namespace KtClient

/-- A VRF output is verified once and stays in the cache. -/
theorem ladderStep_eq_ok {vrfInput : Result Octets} {msg : String} {v : ℕ} {s s' : Ladders}
    {step : BinaryLadderStep} {out : Octets}
    (h : c.ladderStep P vrfInput msg binaryLadder v s = .ok (step, out, s')) :
    s'.material = s.material ∧ s'.vrfCache v = some out ∧
      ∀ w o, s.vrfCache w = some o → s'.vrfCache w = some o := by
  simp only [ladderStep, Result.bind_eq_ok] at h
  obtain ⟨step', -, h⟩ := h
  cases hcache : s.vrfCache v with
  | some o =>
    simp only [hcache, Result.pure_eq, Except.ok.injEq, Prod.mk.injEq] at h
    obtain ⟨-, rfl, rfl⟩ := h
    exact ⟨rfl, hcache, fun _ _ hw => hw⟩
  | none =>
    simp only [hcache, Result.bind_eq_ok, Result.pure_eq, Except.ok.injEq, Prod.mk.injEq] at h
    obtain ⟨input, -, o, -, -, rfl, rfl⟩ := h
    refine ⟨rfl, Function.update_self .., fun w o' hw => ?_⟩
    have hne : w ≠ v := by
      rintro rfl
      cases hcache.symm.trans hw
    exact (Function.update_of_ne hne ..).trans hw

/-- A lookup leaves material when it finds its version. -/
theorem verifyLookup_gathered {j : ℕ} {lk : DecodedLookup} {s s' : LadderFold}
    (hs : s.ladders.Gathered shown)
    (h : c.verifyLookup P label pp target binaryLadder comm greatest isRightmost j lk s = .ok s') :
    s'.ladders.Gathered fun w => shown w ∨ lk = ⟨w, true⟩ := by
  simp only [verifyLookup, Result.bind_eq_ok] at h
  obtain ⟨relation, -, ⟨step, out, ladders⟩, hstep, commitment, hcomm, ⟨root, consumed⟩, -,
    computedRoot, -, h⟩ := h
  obtain rfl := Except.ok.inj h
  obtain ⟨hmat, hout, hkeep⟩ := ladderStep_eq_ok hstep
  obtain ⟨v, inc⟩ := lk
  cases inc with
  | false =>
    simp only [Bool.false_eq_true, if_false]
    refine ⟨fun hw => ?_, fun hw => ?_⟩
    · obtain ⟨o, k, hm, ho⟩ := hs.held (hw.resolve_right (by simp))
      exact ⟨o, k, hmat ▸ hm, hkeep _ _ ho⟩
    · exact hmat ▸ hs.none fun h' => hw (.inl h')
  | true =>
    obtain ⟨k, rfl⟩ : ∃ k, commitment = some k := by
      simp only [lookupCommitment, if_true] at hcomm
      split_ifs at hcomm
      · obtain ⟨-, -, h⟩ := Result.bind_eq_ok.1 hcomm
        exact ⟨_, (Except.ok.inj h).symm⟩
      · obtain ⟨k, -, h⟩ := Result.bind_eq_ok.1 hcomm
        exact ⟨k, (Except.ok.inj h).symm⟩
    simp only [if_true]
    refine ⟨fun {w} hw => ?_, fun {w} hw => ?_⟩
    · by_cases hv : w = v
      · subst hv
        exact ⟨out, k, Function.update_self .., hout⟩
      · have hshown : shown w := hw.resolve_right fun h' => hv (by cases h'; rfl)
        obtain ⟨o, k', hm, ho⟩ := hs.held hshown
        exact ⟨o, k', (Function.update_of_ne hv ..).trans (hmat ▸ hm), hkeep _ _ ho⟩
    · have hv : w ≠ v := fun hv => hw (.inr (by rw [hv]))
      exact (Function.update_of_ne hv ..).trans (hmat ▸ hs.none fun h' => hw (.inl h'))

theorem verifyLookups_gathered : ∀ {decoded : List DecodedLookup} {j : ℕ} {s s' : LadderFold}
    {shown : ℕ → Prop}, s.ladders.Gathered shown →
    c.verifyLookups P label pp target binaryLadder comm greatest isRightmost j decoded s = .ok s' →
    s'.ladders.Gathered fun w => shown w ∨ ⟨w, true⟩ ∈ decoded
  | [], j, s, s', shown, hs, h => by
    obtain rfl := Except.ok.inj h
    exact hs.congr fun w => by simp
  | lk :: decoded, j, s, s', shown, hs, h => by
    obtain ⟨s₁, hlk, hrest⟩ := Result.bind_eq_ok.1 h
    refine (verifyLookups_gathered (verifyLookup_gathered hs hlk) hrest).congr fun w => ?_
    rw [List.mem_cons, or_assoc, eq_comm (a := lk)]

/-- **A ladder leaves the material of the versions it shows.** -/
theorem verifyLadderProof_gathered {ladders ladders' : Ladders} {root : Octets}
    {relation : Ordering} (hs : ladders.Gathered shown)
    (h : c.verifyLadderProof P label pp target binaryLadder comm greatest isRightmost ladders =
      .ok (root, relation, ladders')) :
    ladders'.Gathered fun w => shown w ∨ pp.ShowsVersion target w := by
  simp only [verifyLadderProof, Result.bind_eq_ok, Result.context_eq_ok] at h
  obtain ⟨decoded, hdec, s, hlookups, -, -, -, -, root', -, h⟩ := h
  obtain ⟨-, -, rfl⟩ : root' = root ∧ s.relation = relation ∧ s.ladders = ladders' := by
    simpa using Except.ok.inj h
  refine (verifyLookups_gathered hs hlookups).congr fun w => or_congr_right ?_
  constructor
  · exact fun hw => ⟨decoded, hdec, hw⟩
  · rintro ⟨decoded', hdec', hw⟩
    rwa [Except.ok.inj (hdec.symm.trans hdec')]

/-- The lookup of step 6 leaves nothing, and is no ladder for its target. -/
theorem verifySingleLookup_gathered {ladders ladders' : Ladders} {root : Octets}
    (hs : ladders.Gathered shown)
    (h : c.verifySingleLookup P label pp target binaryLadder comm ladders =
      .ok (root, true, ladders')) :
    ladders'.Gathered fun w => shown w ∨ pp.ShowsVersion target w := by
  simp only [verifySingleLookup, Result.bind_eq_ok, ensure_eq_ok] at h
  obtain ⟨-, hlen, ⟨step, out, ladders₁⟩, hstep, ⟨root', consumed⟩, -, -, -, h⟩ := h
  obtain ⟨-, hinc, rfl⟩ : root' = root ∧ (pp.results.head?.any (·.resultType = 1)) = true ∧
      ladders₁ = ladders' := by simpa using Except.ok.inj h
  obtain ⟨hmat, -, hkeep⟩ := ladderStep_eq_ok hstep
  have hno : ∀ w, ¬ pp.ShowsVersion target w := by
    rintro w ⟨decoded, hdec, -⟩
    obtain ⟨r, hr⟩ := List.length_eq_one_iff.1 hlen
    rw [hr, List.head?_cons, Option.any_some, decide_eq_true_eq] at hinc
    rw [hr, decodeSearchLadder] at hdec
    simp [DecodedLookup.decodePowers, DecodedLookup.probe, hinc, ladderValue, maxVersion, okOr,
      fail] at hdec
  refine ⟨fun hw => ?_, fun hw => ?_⟩
  · obtain ⟨o, k, hm, ho⟩ := hs.held (hw.resolve_right (hno _))
    exact ⟨o, k, hmat ▸ hm, hkeep _ _ ho⟩
  · exact hmat ▸ hs.none fun h' => hw (.inl h')

end KtClient

end

/-! ### Along the walk of a search -/

/-- What has been gathered of the prefix proofs read so far. -/
structure SearchState.Gathers (s : SearchState) (proof : CombinedTreeProof) (target : ℕ) :
    Prop where
  proof_eq : s.reader.proof = proof
  gathered : s.ladders.Gathered fun w =>
    ∃ pp ∈ proof.prefixProofs.take s.reader.proofIdx, pp.ShowsVersion target w

section

variable {P : Primitives} {c : KtClient} {label : Octets} {target : ℕ}
  {binaryLadder : List BinaryLadderStep} {comm : Octets} {greatest isRightmost : Bool}
  {proof : CombinedTreeProof} {pp : PrefixProof}

namespace ProofReader

theorem timestamp_keeps {r r' : ProofReader} {pos : ℕ} {ts : U64}
    (h : r.timestamp pos = .ok (ts, r')) : r'.proof = r.proof ∧ r'.proofIdx = r.proofIdx := by
  rw [timestamp] at h
  split at h
  · obtain ⟨-, rfl⟩ := Prod.mk.inj (Except.ok.inj h)
    exact ⟨rfl, rfl⟩
  · split at h
    · cases h
    · split_ifs at h
      · obtain ⟨-, rfl⟩ := Prod.mk.inj (Except.ok.inj h)
        exact ⟨rfl, rfl⟩
      · cases h
      · cases h

theorem timestamps_keeps {r r' : ProofReader} : ∀ {positions : List ℕ},
    r.timestamps positions = .ok r' → r'.proof = r.proof ∧ r'.proofIdx = r.proofIdx
  | [], h => by
    obtain rfl := Except.ok.inj h
    exact ⟨rfl, rfl⟩
  | pos :: positions, h => by
    obtain ⟨⟨ts, r₁⟩, h₁, h₂⟩ := Result.bind_eq_ok.1 h
    have hfirst := timestamp_keeps h₁
    have hrest := timestamps_keeps h₂
    exact ⟨hrest.1.trans hfirst.1, hrest.2.trans hfirst.2⟩

theorem prefixProof_eq_ok {r r' : ProofReader} {pp : PrefixProof}
    (h : r.prefixProof = .ok (pp, r')) : r'.proof = r.proof ∧
      r.proof.prefixProofs.take r'.proofIdx = r.proof.prefixProofs.take r.proofIdx ++ [pp] := by
  simp only [prefixProof, Result.bind_eq_ok, okOr_eq_ok] at h
  obtain ⟨pp', hpp, h⟩ := h
  obtain ⟨rfl, rfl⟩ := Prod.mk.inj (Except.ok.inj h)
  refine ⟨rfl, ?_⟩
  rw [List.take_add_one, hpp]
  rfl

end ProofReader

/-- The ladder of the next proof. -/
theorem SearchState.Gathers.next {s : SearchState} {reader : ProofReader} {pp : PrefixProof}
    {ladders : Ladders} {entryRoots : NodeMap} (hs : s.Gathers proof target)
    (hpp : s.reader.prefixProof = .ok (pp, reader))
    (h : ∀ {shown : ℕ → Prop}, s.ladders.Gathered shown →
      ladders.Gathered fun w => shown w ∨ pp.ShowsVersion target w) :
    SearchState.Gathers ⟨reader, ladders, entryRoots⟩ proof target := by
  obtain ⟨hproof, htake⟩ := ProofReader.prefixProof_eq_ok hpp
  refine ⟨hproof.trans hs.proof_eq, (h hs.gathered).congr fun w => ?_⟩
  rw [hs.proof_eq] at htake
  simp only [htake, List.mem_append, List.mem_singleton, or_and_right, exists_or,
    exists_eq_left]

theorem SearchState.Gathers.timestamp {s : SearchState} {reader : ProofReader} {pos : ℕ} {ts : U64}
    (hs : s.Gathers proof target) (h : s.reader.timestamp pos = .ok (ts, reader)) :
    SearchState.Gathers { s with reader := reader } proof target := by
  obtain ⟨hproof, hidx⟩ := ProofReader.timestamp_keeps h
  refine ⟨hproof.trans hs.proof_eq, ?_⟩
  simp only [hidx]
  exact hs.gathered

namespace KtClient

theorem verifyEntryLadder_gathers {entry : ℕ} {relation : Ordering} {s s' : SearchState}
    (hs : s.Gathers proof target)
    (h : c.verifyEntryLadder P label target binaryLadder comm greatest isRightmost entry s =
      .ok (relation, s')) : s'.Gathers proof target := by
  simp only [verifyEntryLadder, Result.bind_eq_ok, Result.context_eq_ok] at h
  obtain ⟨⟨pp, reader⟩, hpp, ⟨root, relation', ladders⟩, hladder, entryRoots, -, h⟩ := h
  obtain ⟨-, rfl⟩ := Prod.mk.inj (Except.ok.inj h)
  exact hs.next hpp fun hg => verifyLadderProof_gathered hg hladder

theorem greatestWalk_gathers {rightmost : ℕ} : ∀ {entries : List ℕ} {first first' : Option ℕ}
    {s s' : SearchState}, s.Gathers proof target →
    c.greatestWalk P label target binaryLadder comm rightmost entries first s = .ok (first', s') →
    s'.Gathers proof target
  | [], first, first', s, s', hs, h => by
    obtain ⟨-, rfl⟩ := Prod.mk.inj (Except.ok.inj h)
    exact hs
  | entry :: entries, first, first', s, s', hs, h => by
    obtain ⟨⟨relation, s₁⟩, h₁, h₂⟩ := Result.bind_eq_ok.1 h
    exact greatestWalk_gathers (verifyEntryLadder_gathers hs h₁) h₂

theorem fixedStep_gathers {treeSize curr : ℕ} {rightmostTs : U64} {turn : Walk} {w w' : FixedWalk}
    (hs : w.Gathers proof target)
    (h : c.fixedStep P label treeSize target binaryLadder comm rightmostTs curr w =
      .ok (turn, w')) : w'.Gathers proof target := by
  simp only [fixedStep, Result.bind_eq_ok] at h
  obtain ⟨⟨ts, reader⟩, hts, h⟩ := h
  have hts := hs.timestamp hts
  dsimp only at h
  generalize (if isLeaf curr then none else ibstRightChild curr treeSize) = rightChild at h
  by_cases hexp : isExpired c.config.maximumLifetime rightmostTs ts = true
  · rw [if_pos hexp] at h
    cases rightChild <;>
      · obtain ⟨-, rfl⟩ := Prod.mk.inj (Except.ok.inj h)
        exact hts
  · rw [if_neg hexp] at h
    obtain ⟨⟨relation, s⟩, hladder, h⟩ := Result.bind_eq_ok.1 h
    have hg := verifyEntryLadder_gathers hts hladder
    cases relation with
    | lt =>
      cases rightChild <;>
        · obtain ⟨-, rfl⟩ := Prod.mk.inj (Except.ok.inj h)
          exact hg
    | gt =>
      cases hleaf : isLeaf curr <;> simp only [hleaf] at h <;>
        · obtain ⟨-, rfl⟩ := Prod.mk.inj (Except.ok.inj h)
          exact hg
    | eq =>
      dsimp only at h
      split_ifs at h
      · obtain ⟨-, rfl⟩ := Prod.mk.inj (Except.ok.inj h)
        exact hg
      · cases h

theorem fixedLoop_gathers {treeSize : ℕ} {rightmostTs : U64} : ∀ {fuel curr : ℕ}
    {terminal : Option ℕ} {w w' : FixedWalk}, w.Gathers proof target →
    c.fixedLoop P label treeSize target binaryLadder comm rightmostTs fuel curr w =
      .ok (terminal, w') → w'.Gathers proof target
  | 0, curr, terminal, w, w', hs, h => by cases h
  | fuel + 1, curr, terminal, w, w', hs, h => by
    obtain ⟨⟨turn, w₁⟩, hstep, h⟩ := Result.bind_eq_ok.1 h
    have hg := fixedStep_gathers hs hstep
    cases turn with
    | goto entry => exact fixedLoop_gathers hg h
    | stop =>
      obtain ⟨-, rfl⟩ := Prod.mk.inj (Except.ok.inj h)
      exact hg
    | terminal entry =>
      obtain ⟨-, rfl⟩ := Prod.mk.inj (Except.ok.inj h)
      exact hg

theorem fixedLookup_gathers {w : FixedWalk} {entry : ℕ} {s : SearchState}
    (hs : w.Gathers proof target)
    (h : c.fixedLookup P label target binaryLadder comm w = .ok (entry, s)) :
    s.Gathers proof target := by
  simp only [fixedLookup, Result.bind_eq_ok, Result.context_eq_ok, ensure_eq_ok] at h
  obtain ⟨identified, -, -, -, ⟨pp, reader⟩, hpp, ⟨root, included, ladders⟩, hlookup, entryRoots, -,
    -, rfl, h⟩ := h
  obtain ⟨-, rfl⟩ := Prod.mk.inj (Except.ok.inj h)
  exact hs.next hpp fun hg => verifySingleLookup_gathered hg hlookup

theorem searchWalk_gathers {requestedVersion : Option ℕ} {treeSize terminal : ℕ}
    {s s' : SearchState} (hs : s.Gathers proof target)
    (h : c.searchWalk P label requestedVersion treeSize target binaryLadder comm s =
      .ok (terminal, s')) : s'.Gathers proof target := by
  cases requestedVersion with
  | none =>
    simp only [searchWalk, Result.bind_eq_ok] at h
    obtain ⟨rightmost, -, ⟨first, s₁⟩, hwalk, h⟩ := h
    obtain ⟨-, rfl⟩ := Prod.mk.inj (Except.ok.inj h)
    exact greatestWalk_gathers hs hwalk
  | some v =>
    simp only [searchWalk, simulateFixedSearch, Result.bind_eq_ok] at h
    obtain ⟨⟨rightmostTs, reader⟩, hts, ⟨entry, w⟩, hloop, h⟩ := h
    have hg := fixedLoop_gathers (hs.timestamp hts) hloop
    cases entry with
    | some entry =>
      obtain ⟨-, rfl⟩ := Prod.mk.inj (Except.ok.inj h)
      exact hg
    | none => exact fixedLookup_gathers hg h

/-! ### Searches for the greatest version -/

/-- At the rightmost entry every lookup up to the target must find its version. -/
theorem verifyLookups_rightmost : ∀ {decoded : List DecodedLookup} {j : ℕ} {s s' : LadderFold},
    c.verifyLookups P label pp target binaryLadder comm true true j decoded s = .ok s' →
    ∀ lk ∈ decoded, lk.version ≤ target → lk.inclusion = true
  | lk :: decoded, j, s, s', h, lk', hlk', hle => by
    obtain ⟨s₁, hlk, hrest⟩ := Result.bind_eq_ok.1 h
    rcases List.mem_cons.1 hlk' with rfl | hmem
    · simp only [verifyLookup, Result.bind_eq_ok] at hlk
      obtain ⟨relation, hrel, -⟩ := hlk
      by_contra hno
      rw [lookupRelation, if_neg (fun h' => hno h'.1),
        if_pos ⟨by simpa using hno, hle⟩, if_pos ⟨rfl, rfl⟩] at hrel
      exact absurd hrel fail_ne_ok
    · exact verifyLookups_rightmost hrest lk' hmem hle

/-- **The rightmost ladder shows the whole monitoring ladder.** -/
theorem verifyLadderProof_rightmost {ladders : Ladders} {r : Octets × Ordering × Ladders}
    (h : c.verifyLadderProof P label pp target binaryLadder comm true true ladders = .ok r) :
    ∀ w ∈ monitoringBinaryLadder target [], pp.ShowsVersion target w := by
  simp only [verifyLadderProof, Result.bind_eq_ok, Result.context_eq_ok, ensure_eq_ok] at h
  obtain ⟨decoded, hdec, s, hlookups, -, -, -, hbase, -⟩ := h
  intro w hw
  rw [monitoringBinaryLadder, List.mem_filter, ← hbase ⟨trivial, trivial⟩, List.mem_map] at hw
  obtain ⟨⟨lk, hlk, rfl⟩, hle⟩ := hw
  have hinc := verifyLookups_rightmost hlookups lk hlk (by simpa using hle)
  exact ⟨decoded, hdec, by rw [← hinc]; exact hlk⟩

theorem greatestWalk_rightmost {rightmost : ℕ} : ∀ {entries : List ℕ} {first first' : Option ℕ}
    {s s' : SearchState}, entries.getLast? = some rightmost → s.Gathers proof target →
    c.greatestWalk P label target binaryLadder comm rightmost entries first s = .ok (first', s') →
    ∀ w ∈ monitoringBinaryLadder target [],
      ∃ pp ∈ proof.prefixProofs.take s'.reader.proofIdx, pp.ShowsVersion target w
  | [entry], first, first', s, s', hlast, hs, h, w, hw => by
    obtain rfl : entry = rightmost := Option.some.inj hlast
    obtain ⟨⟨relation, s₁⟩, hladder, h⟩ := Result.bind_eq_ok.1 h
    obtain ⟨-, rfl⟩ := Prod.mk.inj (Except.ok.inj h)
    simp only [verifyEntryLadder, Result.bind_eq_ok, Result.context_eq_ok, beq_self_eq_true]
      at hladder
    obtain ⟨⟨pp, reader⟩, hpp, ⟨root, relation', ladders⟩, hladder, entryRoots, -, h⟩ := hladder
    obtain ⟨-, rfl⟩ := Prod.mk.inj (Except.ok.inj h)
    have htake := (ProofReader.prefixProof_eq_ok hpp).2
    rw [hs.proof_eq] at htake
    exact ⟨pp, by simp [htake], verifyLadderProof_rightmost hladder w hw⟩
  | entry :: entry' :: entries, first, first', s, s', hlast, hs, h, w, hw => by
    obtain ⟨⟨relation, s₁⟩, h₁, h₂⟩ := Result.bind_eq_ok.1 h
    rw [List.getLast?_cons_cons] at hlast
    exact greatestWalk_rightmost hlast (verifyEntryLadder_gathers hs h₁) h₂ w hw

/-! ### Over runs -/

/-- What the verification of a monitoring ladder needs of a version. -/
def HasMaterial (c : KtClient) (label : Octets) (w : ℕ) : Prop :=
  ∃ out comm, c.versionMaterial label w = some (out, some comm)

/-- **Every obligation can be verified again**: each version of its ladder has
material. -/
def Covered (c : KtClient) : Prop :=
  ∀ label, ∀ e ∈ (c.monitoringMap label).entries,
    ∀ w ∈ monitoringBinaryLadder e.2 [], c.HasMaterial label w

end KtClient

/-- A response shows a version when one of its ladders does. -/
def SearchResponse.ShowsVersion (resp : SearchResponse) (target version : ℕ) : Prop :=
  ∃ proof ∈ resp.search, ∃ pp ∈ proof.prefixProofs, pp.ShowsVersion target version

/-- The condition under which a response leaves an obligation that can be verified
again: for a fixed version, the ladders of the response and what is retained cover the
monitoring ladder. -/
def Response.CoversLadder (c : KtClient) : Response → Prop
  | .search label (some v) resp =>
    ∀ w ∈ monitoringBinaryLadder v [], resp.ShowsVersion v w ∨ c.HasMaterial label w
  | _ => True

namespace KtClient

/-- The commit of a head leaves what was retained of the labels alone. -/
theorem finishAndCommit_keeps {c' : KtClient} {fth : FullTreeHead} {treeSize : ℕ}
    {timestamp : Option U64} {updated : Bool} {reader : ProofReader} {entryRoots : NodeMap}
    {extraWanted : List ℕ} {data : List LeafData} {captured : NodeMap}
    (h : c.finishAndCommit P fth treeSize timestamp updated proof reader entryRoots extraWanted =
      .ok (data, captured, c')) :
    c'.versionMaterial = c.versionMaterial ∧ c'.monitoringMap = c.monitoringMap := by
  obtain ⟨-, inclusion, -, hcommit⟩ := finishAndCommit_eq_ok.1 h
  simp only [verifyHeadAndCommit, Result.bind_eq_ok, Result.context_eq_ok] at hcommit
  obtain ⟨⟨root, captured'⟩, -, h⟩ := hcommit
  cases updated with
  | true =>
    simp only [if_true, Result.bind_eq_ok] at h
    obtain ⟨th, -, -, -, h⟩ := h
    split_ifs at h
    · obtain ⟨head, -, auditor, -, h⟩ := by simpa only [Result.bind_eq_ok] using h
      obtain ⟨-, rfl⟩ := Prod.mk.inj (Except.ok.inj h)
      exact ⟨rfl, rfl⟩
    · obtain ⟨-, rfl⟩ := Prod.mk.inj (Except.ok.inj h)
      exact ⟨rfl, rfl⟩
  | false =>
    simp only [Bool.false_eq_true, if_false, Result.bind_eq_ok] at h
    obtain ⟨prev, -, -, -, h⟩ := h
    obtain ⟨-, rfl⟩ := Prod.mk.inj (Except.ok.inj h)
    exact ⟨rfl, rfl⟩

variable {env : Env} {requestedVersion : Option ℕ} {resp : SearchResponse} {v : Verified}
  {c' : KtClient}

/-- **A search leaves the material of the versions its response shows**, and for the
greatest version these are all it needs. -/
theorem verifySearch_gathered (h : c.verifySearch P env label requestedVersion resp = .ok (v, c')) :
    v.ladders.Gathered (resp.ShowsVersion v.targetVersion) ∧
      requestedVersion.or resp.version = some v.targetVersion ∧
      (requestedVersion = none →
        ∀ w ∈ monitoringBinaryLadder v.targetVersion [], resp.ShowsVersion v.targetVersion w) ∧
      c'.versionMaterial = c.versionMaterial ∧ c'.monitoringMap = c.monitoringMap := by
  simp only [verifySearch, Result.bind_eq_ok, okOr_eq_ok, ensure_eq_ok] at h
  obtain ⟨fth, -, proof, hproof, ⟨n, ts, upd⟩, -, -, hn, value, -, target, htarget, -, -, comm, -,
    ⟨⟩, -, reader, hreader, ⟨terminal, s⟩, hwalk, -, -, ⟨data, captured, committed⟩, hfinish, h⟩ := h
  obtain ⟨rfl, rfl⟩ := Prod.mk.inj (Except.ok.inj h)
  obtain ⟨hkeepProof, hkeepIdx⟩ := ProofReader.timestamps_keeps hreader
  have hstart : SearchState.Gathers ⟨reader, .new (if requestedVersion = none then
      baseBinaryLadder target else []), fun _ => none⟩ proof target := by
    refine ⟨hkeepProof, ⟨fun {w} hw => ?_, fun _ => rfl⟩⟩
    obtain ⟨pp, hpp, -⟩ := hw
    rw [hkeepIdx] at hpp
    simp [ProofReader.new] at hpp
  have hs := searchWalk_gathers hstart hwalk
  have hdone : s.reader.proofIdx = proof.prefixProofs.length := by
    have hfin := (finishAndCommit_eq_ok.1 hfinish).1
    simp only [ProofReader.finish, Result.bind_eq_ok, ensure_eq_ok] at hfin
    obtain ⟨-, -, -, hidx, -⟩ := hfin
    rw [hidx, hs.proof_eq]
  have hshows : ∀ w, (∃ pp ∈ proof.prefixProofs.take s.reader.proofIdx, pp.ShowsVersion target w) ↔
      resp.ShowsVersion target w := by
    intro w
    rw [hdone, List.take_length, SearchResponse.ShowsVersion, hproof]
    simp
  refine ⟨hs.gathered.congr hshows, htarget, fun hgreatest w hw => ?_, finishAndCommit_keeps hfinish⟩
  · subst hgreatest
    simp only [searchWalk, Result.bind_eq_ok] at hwalk
    obtain ⟨rightmost, hrightmost, ⟨first, s₁⟩, hwalk, h⟩ := hwalk
    obtain ⟨-, rfl⟩ := Prod.mk.inj (Except.ok.inj h)
    have hlast : (getFrontier n).getLast? = some rightmost := by
      cases hl : (getFrontier n).getLast? with
      | none => rw [hl] at hrightmost; cases hrightmost
      | some r => rw [hl] at hrightmost; rw [Except.ok.inj hrightmost]
    exact (hshows w).1 (greatestWalk_rightmost hlast hstart hwalk w hw)

/-- **What a search retains**: the material it had, and that of the versions shown. -/
theorem retain_hasMaterial {shown : ℕ → Prop} (hg : v.ladders.Gathered shown) {l : Octets} {w : ℕ} :
    (c.retain label v).HasMaterial l w ↔ (l = label ∧ shown w) ∨ c.HasMaterial l w := by
  by_cases hl : l = label
  · subst hl
    by_cases hw : shown w
    · obtain ⟨out, comm, hm, hout⟩ := hg.held hw
      simp [HasMaterial, retain, hm, hout, hw]
    · simp [HasMaterial, retain, hg.none hw, hw]
  · simp [HasMaterial, retain, hl, beq_eq_false_iff_ne.2 hl]

theorem HasMaterial.congr (h : c'.versionMaterial = c.versionMaterial) {l : Octets} {w : ℕ} :
    c'.HasMaterial l w ↔ c.HasMaterial l w := by rw [HasMaterial, HasMaterial, h]

/-- What holds of the versions of a map holds of those of the replayed map. -/
theorem climbLadders_versions {material : ℕ → Option (Octets × Option Octets)} {pos ver : ℕ}
    {G : ℕ → Prop} : ∀ {list : List ℕ} {moved moved' : Option ℕ} {w w' : ContactWalk},
    (∀ e ∈ w.newMap.entries, G e.2) →
    climbLadders P material pos ver list moved w = .ok (moved', w') →
    ∀ e ∈ w'.newMap.entries, G e.2
  | [], moved, moved', w, w', hmap, h => by
    obtain ⟨-, rfl⟩ := Prod.mk.inj (Except.ok.inj h)
    exact hmap
  | entry :: list, moved, moved', w, w', hmap, h => by
    rw [climbLadders.eq_def] at h
    cases htarget : w.ladderTargets entry with
    | some t =>
      simp only [htarget, Result.bind_eq_ok] at h
      obtain ⟨-, -, h⟩ := h
      obtain ⟨-, rfl⟩ := Prod.mk.inj (Except.ok.inj h)
      exact OrderedMap.forall_erase hmap
    | none =>
      simp only [htarget, Result.bind_eq_ok] at h
      obtain ⟨⟨ts, reader⟩, -, ⟨pp, reader'⟩, -, root, -, entryRoots, -, h⟩ := h
      refine climbLadders_versions ?_ h
      exact hmap

theorem replayObligation_versions {material : ℕ → Option (Octets × Option Octets)}
    {treeSize rmw pos ver : ℕ} {rightmostTs : U64} {w w' : ContactWalk} {G : ℕ → Prop}
    (hmap : ∀ e ∈ w.newMap.entries, G e.2) (hver : G ver)
    (h : replayObligation P material treeSize rmw rightmostTs pos ver w = .ok w') :
    ∀ e ∈ w'.newMap.entries, G e.2 := by
  simp only [replayObligation, Result.bind_eq_ok] at h
  obtain ⟨a, -, h⟩ := h
  split_ifs at h
  · obtain rfl := Except.ok.inj h
    exact OrderedMap.forall_erase hmap
  · simp only [Result.bind_eq_ok] at h
    obtain ⟨⟨moved, w₁⟩, hclimb, h⟩ := h
    have hmap₁ : ∀ e ∈ w₁.newMap.entries, G e.2 := by
      refine climbLadders_versions ?_ hclimb
      exact hmap
    cases moved with
    | none =>
      obtain rfl := Except.ok.inj h
      exact hmap₁
    | some newpos =>
      dsimp only at h
      split_ifs at h
      · obtain rfl := Except.ok.inj h
        exact OrderedMap.forall_erase hmap₁
      · obtain rfl := Except.ok.inj h
        exact OrderedMap.forall_insert (OrderedMap.forall_erase hmap₁) hver

theorem replayObligations_versions {material : ℕ → Option (Octets × Option Octets)}
    {treeSize rmw : ℕ} {rightmostTs : U64} {G : ℕ → Prop} : ∀ {entries : List (ℕ × ℕ)}
    {w w' : ContactWalk}, (∀ e ∈ w.newMap.entries, G e.2) → (∀ e ∈ entries, G e.2) →
    replayObligations P material treeSize rmw rightmostTs entries w = .ok w' →
    ∀ e ∈ w'.newMap.entries, G e.2
  | [], w, w', hmap, _, h => by
    obtain rfl := Except.ok.inj h
    exact hmap
  | (pos, ver) :: entries, w, w', hmap, hgood, h => by
    obtain ⟨w₁, h₁, h₂⟩ := Result.bind_eq_ok.1 h
    exact replayObligations_versions
      (replayObligation_versions hmap (hgood _ List.mem_cons_self) h₁)
      (fun e he => hgood e (List.mem_cons_of_mem _ he)) h₂

/-- **Contact monitoring adds no versions** to a label's map, and leaves the material. -/
theorem verifyContactMonitor_versions {map : OrderedMap ℕ} {resp : ContactMonitorResponse}
    {data : List LeafData} {G : ℕ → Prop} (hmap : ∀ e ∈ map.entries, G e.2)
    (h : c.verifyContactMonitor P env label map resp = .ok (data, c')) :
    c'.versionMaterial = c.versionMaterial ∧ (∀ l, l ≠ label → c'.monitoringMap l = c.monitoringMap l) ∧
      ∀ e ∈ (c'.monitoringMap label).entries, G e.2 := by
  simp only [verifyContactMonitor, replayContactLadders, Result.bind_eq_ok] at h
  obtain ⟨fth, -, proof, -, ⟨n, ts, upd⟩, -, -, -, -, -, reader, -, ⟨_, reader'⟩, -, w,
    ⟨⟨rightmostTs, reader''⟩, -, hreplay⟩, ⟨data', captured, committed⟩, hfinish, h⟩ := h
  obtain ⟨-, rfl⟩ := Prod.mk.inj (Except.ok.inj h)
  obtain ⟨hmaterial, hmaps⟩ := finishAndCommit_keeps hfinish
  refine ⟨hmaterial, fun l hl => ?_, ?_⟩
  · exact (Function.update_of_ne hl ..).trans (congrFun hmaps l)
  · have hrev : ∀ e ∈ map.entries.reverse, G e.2 := fun e he => hmap e (List.mem_reverse.1 he)
    have hnew : ∀ e ∈ w.newMap.entries, G e.2 := by
      refine replayObligations_versions ?_ hrev hreplay
      exact hmap
    simpa using hnew

/-- What an accepted response does to obligations and material, when it is no search
and no contact monitoring: nothing. -/
theorem keeps_of_accepted {r : Response} {data : List LeafData} (h : Accepted P env c r data c') :
    (∃ l requested resp v c₁, r = .search l requested resp ∧
      c.verifySearch P env l requested resp = .ok (v, c₁) ∧ c' = c₁.retain l v) ∨
    (∃ l resp, r = .contactMonitor l resp ∧
      c.verifyContactMonitor P env l (c.monitoringMap l) resp = .ok (data, c')) ∨
    (c'.versionMaterial = c.versionMaterial ∧ c'.monitoringMap = c.monitoringMap) := by
  cases h with
  | search h saved => exact .inl ⟨_, _, _, _, _, rfl, h, rfl⟩
  | contactMonitor h => exact .inr (.inl ⟨_, _, rfl, h⟩)
  | ownerInit h =>
    simp only [verifyOwnerInit, Result.bind_eq_ok] at h
    obtain ⟨fth, -, proof, -, ⟨n, ts, upd⟩, -, -, -, -, -, -, -, reader, -, ⟨_, reader'⟩, -,
      ⟨count, s⟩, -, -, -, -, -, ⟨data', captured, committed⟩, hfinish, h⟩ := h
    obtain ⟨-, rfl⟩ := Prod.mk.inj (Except.ok.inj h)
    exact .inr (.inr (finishAndCommit_keeps hfinish))
  | ownerMonitor h =>
    simp only [verifyOwnerMonitor, Result.bind_eq_ok] at h
    obtain ⟨fth, -, proof, -, ⟨n, ts, upd⟩, -, -, -, -, -, reader, -, ⟨_, reader'⟩, -, w, -, s, -, -, -,
      ⟨data', captured, committed⟩, hfinish, h⟩ := h
    obtain ⟨-, rfl⟩ := Prod.mk.inj (Except.ok.inj h)
    exact .inr (.inr (finishAndCommit_keeps hfinish))
  | distinguished h =>
    simp only [verifyDistinguished, Result.bind_eq_ok] at h
    obtain ⟨fth, -, proof, -, ⟨n, ts, upd⟩, -, -, -, -, -, rightmost, -, reader, -,
      ⟨walked, reader'⟩, -, ⟨data', captured, committed⟩, hfinish, h⟩ := h
    obtain ⟨-, rfl⟩ := Prod.mk.inj (Except.ok.inj h)
    obtain ⟨hmaterial, hmaps⟩ := finishAndCommit_keeps hfinish
    exact .inr (.inr ⟨hmaterial, hmaps⟩)
  | update h => exact .inr (.inr ⟨rfl, rfl⟩)

/-- **One accepted response** that covers its ladder leaves every obligation covered. -/
theorem Covered.accepted {r : Response} {data : List LeafData} (hc : c.Covered)
    (hr : r.CoversLadder c) (h : Accepted P env c r data c') : c'.Covered := by
  rcases keeps_of_accepted h with ⟨l, requested, resp, v, c₁, rfl, hsearch, rfl⟩ |
    ⟨l, resp, rfl, hmonitor⟩ | ⟨hmaterial, hmaps⟩
  · obtain ⟨hg, htarget, hgreatest, hmaterial, hmaps⟩ := verifySearch_gathered hsearch
    have hkeep : ∀ {l' w}, c.HasMaterial l' w → (c₁.retain l v).HasMaterial l' w := fun hw =>
      (retain_hasMaterial hg).2 (.inr ((HasMaterial.congr hmaterial).2 hw))
    have hnew : ∀ w ∈ monitoringBinaryLadder v.targetVersion [],
        (c₁.retain l v).HasMaterial l w := by
      intro w hw
      cases requested with
      | none => exact (retain_hasMaterial hg).2 (.inl ⟨rfl, hgreatest rfl w hw⟩)
      | some version =>
        obtain rfl : version = v.targetVersion := Option.some.inj htarget
        rcases hr w hw with hshown | hheld
        · exact (retain_hasMaterial hg).2 (.inl ⟨rfl, hshown⟩)
        · exact hkeep hheld
    intro l' e he w hw
    by_cases hl : l' = l
    · subst hl
      simp only [retain, Function.update_self, hmaps] at he
      exact OrderedMap.forall_insert (Q := fun e => ∀ w ∈ monitoringBinaryLadder e.2 [],
        (c₁.retain l' v).HasMaterial l' w) (fun e he w hw => hkeep (hc l' e he w hw)) hnew e he w hw
    · simp only [retain, Function.update_of_ne hl, hmaps] at he
      exact hkeep (hc l' e he w hw)
  · obtain ⟨hmaterial, hothers, hnew⟩ := verifyContactMonitor_versions (G := fun ver =>
      ∀ w ∈ monitoringBinaryLadder ver [], c.HasMaterial l w) (hc l) hmonitor
    intro l' e he w hw
    rw [HasMaterial.congr hmaterial]
    by_cases hl : l' = l
    · subst hl
      exact hnew e he w hw
    · exact hc l' e (hothers l' hl ▸ he) w hw
  · intro l e he w hw
    rw [hmaps] at he
    exact (HasMaterial.congr hmaterial).2 (hc l e he w hw)

/-- A new client has no obligations. -/
theorem withChannel_covered {config : PublicConfig} (h : withChannel P config = .ok c) :
    c.Covered := by
  simp only [withChannel, Result.bind_eq_ok, Result.context_eq_ok] at h
  obtain ⟨-, -, sigPk, -, h⟩ := h
  obtain rfl := Except.ok.inj h
  intro l e he
  cases he

end KtClient

end

end KeyTransparency
