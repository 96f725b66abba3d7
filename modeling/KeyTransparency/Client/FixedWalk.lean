/-
# Verifying a search for a fixed version

A client follows the path that the server has walked: it reads the same entries, finds
the same relations, and decides from the timestamps alone which entries are distinguished
(`KtClient.fixedLoop_along`).  It accepts the search when an entry of the path has the
version as its greatest one, no entry was expired, or an entry that the path went right
at vouches for the version; the last entry of the path is not one of these
(`KtClient.simulateFixedSearch_served`).
-/

import KeyTransparency.Client.DistinguishedTests
import KeyTransparency.Client.FixedSearch

namespace KeyTransparency

open BinaryLadder InOrder LogMath

section

variable {P : Primitives} {c : KtClient} {label : Octets} {L : LabelLog} {lifetime : Option ℕ}
  {target e z m : ℕ} {dset walked left : List ℕ} {visits done : List Visit} {proof : CombinedTreeProof}
  {binaryLadder : List BinaryLadderStep} {w : KtClient.FixedWalk}

/-- **A client has been sent a search**: the proof and the binary ladder of some visits. -/
structure KtClient.ReadsFixed (P : Primitives) (c : KtClient) (label : Octets) (L : LabelLog)
    (lifetime : Option ℕ) (target : ℕ) (visits : List Visit) (m : ℕ) (proof : CombinedTreeProof)
    (binaryLadder : List BinaryLadderStep) : Prop where
  transcript : Transcript P L visits m proof
  wire : L.Wire (some target) (laddersOf visits) (versionsOf visits) binaryLadder
  verify : c.CanVerify P label L
  lifetime : c.config.maximumLifetime = lifetime
  small : target ≤ maxVersion

/-- **A verifier has followed some visits**, whose versions it numbers. -/
structure SearchState.Tracks (P : Primitives) (L : LabelLog) (proof : CombinedTreeProof)
    (visits done : List Visit) (s : SearchState) : Prop where
  follows : s.Follows P L proof done
  slots : s.ladders.wireIndex = versionsOf done
  honest : s.ladders.Honest L (versionsOf visits)
  retains : s.ladders.Retains L

/-- **A client has walked over some entries**, and went right at some of them. -/
structure KtClient.FixedWalk.Passed (P : Primitives) (L : LabelLog) (lifetime : Option ℕ) (target : ℕ)
    (dset : List ℕ) (proof : CombinedTreeProof) (visits : List Visit) (walked left : List ℕ)
    (w : KtClient.FixedWalk) : Prop where
  tracks : w.toSearchState.Tracks P L proof visits (L.fixedVisits lifetime target walked)
  expiredOnPath : w.expiredOnPath = walked.any (L.expired lifetime)
  encounteredExpired : w.encounteredExpired = walked.any (L.expired lifetime)
  leftPath : w.leftPath = left.map fun e => (e, L.vouches lifetime dset e)
  inspected : w.inspected = (walked.filter fun e => !L.expired lifetime e).map fun e =>
    (e, L.relation target e)

/-! ### One entry -/

/-- **A timestamp** of an entry whose visit comes next. -/
theorem SearchState.Tracks.timestamp {s : SearchState} (h : s.Tracks P L proof visits done)
    (ht : Transcript P L visits m proof) {visit : Visit} (hvisits : done ++ [visit] <+: visits) :
    ∃ reader, s.reader.timestamp visit.entry = .ok (L.timestamp visit.entry, reader) ∧
      ({ s with reader := reader } : SearchState).Tracks P L proof visits (done ++ [.stamp visit.entry]) := by
  have hseen := entriesOf_beginning hvisits
  have hnext : entriesOf (done ++ [visit]) = appendNew (entriesOf done) visit.entry := by
    cases visit with
    | stamp e => exact entriesOf_stamp
    | ladder e versions => exact entriesOf_ladder
  rw [hnext] at hseen
  obtain ⟨reader, hreader, hfollows⟩ := h.follows.stamp ht hseen
  refine ⟨reader, hreader, hfollows, ?_, h.honest, h.retains⟩
  rw [versionsOf_stamp]
  exact h.slots

/-- **The search ladder of an entry** whose timestamp has been read. -/
theorem SearchState.Tracks.searchLadder
    (hread : c.ReadsFixed P label L lifetime target visits m proof binaryLadder) {s : SearchState}
    (h : s.Tracks P L proof visits (done ++ [.stamp e]))
    (hvisits : done ++ [.ladder e (L.searchLadder target e)] <+: visits) :
    ∃ s', c.verifyEntryLadder P label target binaryLadder (L.commitment target) false false e s =
        .ok (L.relation target e, s') ∧
      s'.Tracks P L proof visits (done ++ [.ladder e (L.searchLadder target e)]) := by
  have hget := laddersOf_getElem? hvisits
  have hversions := versionsOf_beginning hvisits
  have hstamped : e ∈ entriesOf (done ++ [.stamp e]) := by
    rw [entriesOf_stamp, mem_appendNew]
    exact .inr rfl
  have hlt := hread.transcript.bound e ((entriesOf_beginning hvisits).subset (by
    rw [entriesOf_ladder, ← entriesOf_stamp]
    exact hstamped))
  have hnext : (laddersOf visits)[(laddersOf (done ++ [.stamp e])).length]? =
      some (e, L.searchLadder target e) := by
    rw [laddersOf_stamp]
    exact hget
  obtain ⟨pp, reader, entryRoots, hpp, hproves, hrecord, hfollows⟩ :=
    h.follows.ladder hread.transcript hnext hstamped
  have hslots := h.slots
  rw [versionsOf_stamp] at hslots
  rw [versionsOf_ladder, ← hslots] at hversions
  obtain ⟨ladders, hladder, hslots', hhonest, hretains⟩ := KtClient.verifyLadderProof_honest hread.wire
    hread.verify hlt hread.small (List.mem_of_getElem? hget)
    (fun h => absurd h Bool.false_ne_true) (fun h => absurd h Bool.false_ne_true) hproves h.honest
    h.retains hversions
  refine ⟨⟨reader, ladders, entryRoots⟩, ?_, ?_, ?_, hhonest, hretains⟩
  · unfold KtClient.verifyEntryLadder
    rw [hpp, Result.ok_bind]
    dsimp only
    rw [hladder, Result.context_ok, Result.ok_bind]
    dsimp only
    rw [hrecord]
    rfl
  · have hdone := hfollows ladders
    refine ⟨?_, fun e' => ?_⟩
    · have hat := hdone.reader
      rw [entriesOf_ladder, laddersOf_ladder, entriesOf_stamp, laddersOf_stamp] at hat
      rw [entriesOf_ladder, laddersOf_ladder]
      rwa [appendNew_of_mem (mem_appendNew.2 (.inr rfl))] at hat
    · have hroot := hdone.roots e'
      rwa [laddersOf_ladder, laddersOf_stamp, ← laddersOf_ladder] at hroot
  · rw [hslots', hslots, versionsOf_ladder]

namespace KtClient

/-- **At an entry that does not have the version** as its greatest one the walk goes on. -/
theorem fixedStep_on (hread : c.ReadsFixed P label L lifetime target visits m proof binaryLadder)
    (hw : w.Passed P L lifetime target dset proof visits walked left)
    (hvisits : L.fixedVisits lifetime target (walked ++ [e]) <+: visits)
    (hne : L.goes lifetime target e ≠ .eq) {rightChild : Option ℕ}
    (hright : (if isLeaf e then none else ibstRightChild e L.size) = rightChild)
    (hdist : e ∈ dset ↔ isDist c.config.reasonableMonitoringWindow w.bounds w.parentDist = true) :
    ∃ w' : FixedWalk, w'.Passed P L lifetime target dset proof visits (walked ++ [e]) left ∧
      c.fixedStep P label L.size target binaryLadder (L.commitment target) (L.timestamp (L.size - 1)) e w =
        .ok (if L.goes lifetime target e = .lt then
          (rightChild.elim .stop .goto, rightChild.elim w' fun _ => { w' with
            leftPath := w'.leftPath ++ [(e, L.vouches lifetime dset e)]
            bounds := (L.timestamp e, w.bounds.2)
            parentDist := isDist c.config.reasonableMonitoringWindow w.bounds w.parentDist })
        else (if isLeaf e then .stop else .goto (leftChild e), if isLeaf e then w' else { w' with
          bounds := (w.bounds.1, L.timestamp e)
          parentDist := isDist c.config.reasonableMonitoringWindow w.bounds w.parentDist })) := by
  rw [LabelLog.fixedVisits_concat] at hvisits
  have hentry : (L.fixedVisit lifetime target e).entry = e := by
    unfold LabelLog.fixedVisit
    split_ifs <;> rfl
  have hexpired : isExpired c.config.maximumLifetime (L.timestamp (L.size - 1)) (L.timestamp e) =
      L.expired lifetime e := by
    rw [hread.lifetime]
    rfl
  obtain ⟨reader, htimestamp, htracks⟩ := hw.tracks.timestamp hread.transcript hvisits
  rw [hentry] at htimestamp htracks
  unfold fixedStep
  rw [htimestamp, Result.ok_bind]
  dsimp only
  rw [hright, hexpired, ← isDist]
  unfold LabelLog.goes at hne ⊢
  cases hexp : L.expired lifetime e with
  | true =>
    have hnot : L.vouches lifetime dset e = false := by
      rw [LabelLog.vouches, hexp, Bool.not_true, Bool.and_false]
    have hvisit : L.fixedVisit lifetime target e = .stamp e := if_pos hexp
    refine ⟨{ w with reader := reader, encounteredExpired := true, expiredOnPath := true }, ?_, ?_⟩
    · constructor
      · rw [LabelLog.fixedVisits_concat, hvisit]
        exact htracks
      · simp [hexp]
      · simp [hexp]
      · exact hw.leftPath
      · simp [hexp, hw.inspected]
    · rw [if_pos rfl, if_pos rfl, if_pos rfl, hnot]
      cases rightChild <;> rfl
  | false =>
    rw [hexp, if_neg (by simp)] at hne
    have hvouches : L.vouches lifetime dset e =
        isDist c.config.reasonableMonitoringWindow w.bounds w.parentDist := by
      rw [LabelLog.vouches, hexp, Bool.not_false, Bool.and_true, Bool.eq_iff_iff, decide_eq_true_eq]
      exact hdist
    have hvisit : L.fixedVisit lifetime target e = .ladder e (L.searchLadder target e) := by
      rw [LabelLog.fixedVisit, hexp, if_neg (by simp)]
    rw [hvisit] at hvisits
    obtain ⟨s', hladder, htracks'⟩ := htracks.searchLadder hread hvisits
    have hpassed : ({ w with
        toSearchState := s', inspected := w.inspected ++ [(e, L.relation target e)] } : FixedWalk).Passed P L
          lifetime target dset proof visits (walked ++ [e]) left := by
      constructor
      · rw [LabelLog.fixedVisits_concat, hvisit]
        exact htracks'
      · simp [hexp, hw.expiredOnPath]
      · simp [hexp, hw.encounteredExpired]
      · exact hw.leftPath
      · simp [hexp, hw.inspected]
    refine ⟨_, hpassed, ?_⟩
    have hfalse : ¬false = true := Bool.false_ne_true
    rw [if_neg hfalse, if_neg hfalse, hladder, Result.ok_bind]
    dsimp only
    rw [hvouches]
    cases hrel : L.relation target e with
    | lt =>
      rw [if_pos rfl]
      cases rightChild <;> rfl
    | eq => exact absurd hrel hne
    | gt =>
      rw [if_neg (show ¬Ordering.gt = .lt by simp)]
      dsimp only
      split_ifs <;> rfl

/-- **Along the path** to its last entry the client follows the path's visits. -/
theorem fixedLoop_along (hread : c.ReadsFixed P label L lifetime target visits m proof binaryLadder)
    (hn : L.size < 2 ^ 64) {rmw : ℕ} (hrmw : c.config.reasonableMonitoringWindow = rmw) :
    ∀ {k i size fuel : ℕ} {walked left : List ℕ} {w : FixedWalk},
      Bounds L.timestamp rmw L.size dset k i size w.bounds w.parentDist → k < fuel →
      i * 2 ^ (k + 1) ≤ z → z < i * 2 ^ (k + 1) + size →
      EndsAt (L.goes lifetime target) L.size (ibstDirectPathLoop z fuel size (i * 2 ^ (k + 1))) z →
      L.fixedVisits lifetime target (walked ++ ibstDirectPathLoop z fuel size (i * 2 ^ (k + 1))) <+: visits →
      w.Passed P L lifetime target dset proof visits walked left → ∃ fuel' w',
        c.fixedLoop P label L.size target binaryLadder (L.commitment target) (L.timestamp (L.size - 1)) fuel
            (node k i) w =
          c.fixedLoop P label L.size target binaryLadder (L.commitment target) (L.timestamp (L.size - 1))
            (fuel' + 1) z w' ∧
        w'.Passed P L lifetime target dset proof visits
          (walked ++ ibstDirectPathLoop z fuel size (i * 2 ^ (k + 1)))
          (left ++ (ibstDirectPathLoop z fuel size (i * 2 ^ (k + 1))).filter (· < z)) ∧
        (z ∈ dset ↔ isDist rmw w'.bounds w'.parentDist = true) := by
  intro k
  induction k using Nat.strong_induction_on with
  | _ k ih =>
    intro i size fuel walked left w h hfuel hlow hhigh hends hvisits hw
    obtain ⟨fuel, rfl⟩ := Nat.exists_eq_succ_of_ne_zero (show fuel ≠ 0 by omega)
    have hnode : node k i = i * 2 ^ (k + 1) + (2 ^ k - 1) := rfl
    have hpos := Nat.two_pow_pos k
    have hle := h.block.node_le
    have hlevel := h.block.level_lt hn
    have hdist := h.mem_node
    have hchild := rightChild_of_isLeaf (n := L.size) hlevel i
    rcases Nat.lt_trichotomy z (node k i) with hlt | rfl | hgt
    · have hleaf : isLeaf (node k i) = false := by
        cases k with
        | zero =>
          rw [pow_zero] at hnode
          omega
        | succ k => simp [isLeaf_node]
      obtain ⟨k', i', hk, hgoto, hstart, hbelow⟩ := h.leftChild hn hleaf
      have hpath := h.block.path_left hn hlt fuel
      rw [← hstart] at hpath hlow hhigh
      rw [← hstart, hpath] at hends hvisits
      rw [← hstart, hpath]
      obtain ⟨-, hleft, hends'⟩ := endsAt_cons.1 hends
      have hgoes := hleft hlt
      obtain ⟨w₁, hw₁, hstep⟩ := fixedStep_on hread hw ((LabelLog.fixedVisits_beginning (by simp)).trans hvisits)
        (by rw [hgoes]; simp) hchild (hrmw ▸ hdist)
      rw [hgoes, if_neg (by simp), hleaf, if_neg Bool.false_ne_true, if_neg Bool.false_ne_true, hgoto] at hstep
      have hw₂ : ({ w₁ with
          bounds := (w.bounds.1, L.timestamp (node k i))
          parentDist := isDist c.config.reasonableMonitoringWindow w.bounds w.parentDist } : FixedWalk).Passed
            P L lifetime target dset proof visits (walked ++ [node k i]) left := { hw₁ with }
      obtain ⟨fuel', w', hloop, hw', hdist'⟩ := ih k' hk (hrmw ▸ hbelow) (show k' < fuel by omega) hlow
        (by omega) hends' (by rwa [List.append_assoc, List.singleton_append]) hw₂
      rw [List.append_assoc, List.singleton_append] at hw'
      refine ⟨fuel', w', ?_, ?_, hdist'⟩
      · rw [fixedLoop, hstep, Result.ok_bind]
        exact hloop
      · rw [List.filter_cons_of_neg (by simpa using hlt.le)]
        exact hw'
    · rw [h.block.path_self hn, List.filter_nil, List.append_nil, List.append_nil]
      exact ⟨fuel, w, rfl, hw, hdist⟩
    · rcases h.rightChild_cases hn with ⟨-, hsize⟩ | ⟨k', i', hk, hgoto, hstart, hbelow⟩
      · omega
      · have hpath := h.block.path_right hn hgt fuel
        rw [hpath, ← hstart] at hends hvisits
        rw [hpath, ← hstart]
        obtain ⟨hright, -, hends'⟩ := endsAt_cons.1 hends
        have hgoes := hright hgt
        obtain ⟨w₁, hw₁, hstep⟩ := fixedStep_on hread hw
          ((LabelLog.fixedVisits_beginning (by simp)).trans hvisits) (by rw [hgoes]; simp)
          (hchild.trans hgoto) (hrmw ▸ hdist)
        rw [hgoes, if_pos rfl] at hstep
        have hw₂ : ({ w₁ with
            leftPath := w₁.leftPath ++ [(node k i, L.vouches lifetime dset (node k i))]
            bounds := (L.timestamp (node k i), w.bounds.2)
            parentDist := isDist c.config.reasonableMonitoringWindow w.bounds w.parentDist } :
            FixedWalk).Passed P L lifetime target dset proof visits (walked ++ [node k i])
              (left ++ [node k i]) :=
          { hw₁ with leftPath := by simp [hw₁.leftPath] }
        obtain ⟨fuel', w', hloop, hw', hdist'⟩ := ih k' hk (hrmw ▸ hbelow) (show k' < fuel by omega)
          (by omega) (by omega) hends' (by rwa [List.append_assoc, List.singleton_append]) hw₂
        rw [List.append_assoc, List.singleton_append, List.append_assoc, List.singleton_append] at hw'
        refine ⟨fuel', w', ?_, ?_, hdist'⟩
        · rw [fixedLoop, hstep, Result.ok_bind]
          exact hloop
        · rw [List.filter_cons_of_pos (by simpa using hgt)]
          exact hw'

/-- **At the last entry, without the version**, the walk stops. -/
theorem fixedLoop_stop (hread : c.ReadsFixed P label L lifetime target visits m proof binaryLadder)
    (hw : w.Passed P L lifetime target dset proof visits walked left)
    (hvisits : L.fixedVisits lifetime target (walked ++ [z]) <+: visits)
    (hdist : z ∈ dset ↔ isDist c.config.reasonableMonitoringWindow w.bounds w.parentDist = true)
    (hstop : L.goes lifetime target z = .lt ∧ ibstRightChild z L.size = none ∨
      L.goes lifetime target z = .gt ∧ isLeaf z = true) (fuel : ℕ) : ∃ w' : FixedWalk,
      c.fixedLoop P label L.size target binaryLadder (L.commitment target) (L.timestamp (L.size - 1))
        (fuel + 1) z w = .ok (none, w') ∧
      w'.Passed P L lifetime target dset proof visits (walked ++ [z]) left := by
  have hne : L.goes lifetime target z ≠ .eq := by
    rcases hstop with h | h <;> rw [h.1] <;> simp
  obtain ⟨w', hw', hstep⟩ := fixedStep_on hread hw hvisits hne rfl hdist
  refine ⟨w', ?_, hw'⟩
  rw [fixedLoop, hstep, Result.ok_bind]
  rcases hstop with ⟨hgoes, hnone⟩ | ⟨hgoes, hleaf⟩
  · rw [hgoes, if_pos rfl, hnone, ite_self]
    rfl
  · rw [hgoes, if_neg (by simp), if_pos hleaf, if_pos hleaf]
    rfl

/-- **At an entry with the version** the walk ends there, unless the version is expired. -/
theorem fixedLoop_found (hread : c.ReadsFixed P label L lifetime target visits m proof binaryLadder)
    (hw : w.Passed P L lifetime target dset proof visits walked left)
    (hvisits : L.fixedVisits lifetime target (walked ++ [z]) <+: visits)
    (hdist : z ∈ dset ↔ isDist c.config.reasonableMonitoringWindow w.bounds w.parentDist = true)
    (hfound : L.goes lifetime target z = .eq)
    (hvouched : walked.any (L.expired lifetime) = false ∨ L.vouches lifetime dset z = true ∨
      left.any (L.vouches lifetime dset) = true) (fuel : ℕ) : ∃ w' : FixedWalk,
      c.fixedLoop P label L.size target binaryLadder (L.commitment target) (L.timestamp (L.size - 1))
        (fuel + 1) z w = .ok (some z, w') ∧
      w'.toSearchState.Tracks P L proof visits (L.fixedVisits lifetime target (walked ++ [z])) := by
  have hexp : L.expired lifetime z = false := by
    by_contra hexp
    rw [LabelLog.goes, if_pos (by simpa using hexp)] at hfound
    cases hfound
  rw [LabelLog.goes, hexp, if_neg Bool.false_ne_true] at hfound
  have hvisit : L.fixedVisit lifetime target z = .ladder z (L.searchLadder target z) := by
    rw [LabelLog.fixedVisit, hexp, if_neg Bool.false_ne_true]
  have hexpired : isExpired c.config.maximumLifetime (L.timestamp (L.size - 1)) (L.timestamp z) = false := by
    rw [hread.lifetime]
    exact hexp
  have hvouches : L.vouches lifetime dset z =
      isDist c.config.reasonableMonitoringWindow w.bounds w.parentDist := by
    rw [LabelLog.vouches, hexp, Bool.not_false, Bool.and_true, Bool.eq_iff_iff, decide_eq_true_eq]
    exact hdist
  rw [LabelLog.fixedVisits_concat, hvisit] at hvisits ⊢
  obtain ⟨reader, htimestamp, htracks⟩ := hw.tracks.timestamp hread.transcript hvisits
  obtain ⟨s', hladder, htracks'⟩ := htracks.searchLadder (e := z) hread hvisits
  have hleft : w.leftPath.any Prod.snd = left.any (L.vouches lifetime dset) := by
    rw [hw.leftPath, List.any_map]
    rfl
  rw [← hw.expiredOnPath, hvouches, ← hleft] at hvouched
  refine ⟨{ w with toSearchState := s', inspected := w.inspected ++ [(z, L.relation target z)] }, ?_, htracks'⟩
  have htimestamp' : w.reader.timestamp z = .ok (L.timestamp z, reader) := htimestamp
  unfold fixedLoop fixedStep
  rw [htimestamp', Result.ok_bind]
  dsimp only
  rw [hexpired, if_neg Bool.false_ne_true, hladder, Result.ok_bind]
  dsimp only
  rw [hfound]
  dsimp only
  rw [← isDist, if_pos hvouched]
  rfl

/-! ### Step 6 -/

/-- **The lookup of a version that an entry has** shows it. -/
theorem verifySingleLookup_honest
    (hread : c.ReadsFixed P label L lifetime target visits m proof binaryLadder) (he : e < L.size)
    (hpresent : L.present e target = true) {pp : PrefixProof}
    (hproves : pp.Proves P (L.contents e) [L.key target]) {s : Ladders}
    (hs : s.Honest L (versionsOf visits)) (hret : s.Retains L)
    (hslot : appendNew s.wireIndex target <+: versionsOf visits) :
    ∃ s', c.verifySingleLookup P label pp target binaryLadder (L.commitment target) s =
        .ok (L.root P e, true, s') ∧ s'.wireIndex = appendNew s.wireIndex target ∧
      s'.Honest L (versionsOf visits) ∧ s'.Retains L := by
  obtain ⟨step, s', hstep, -, hslots, hhonest, hmaterial⟩ := ladderStep_honest (m := s!"VRF verify failed at v={target}")
    hread.wire hread.verify hread.small (fun _ h => h) hs hslot
  obtain ⟨result, hresult, htype, hcompute, hlength, helements⟩ := hproves
  have hcontents : L.contents e (L.key target) = some (L.commitment target) := by
    rw [LabelLog.contents_key he hread.small, if_pos hpresent]
  have hincluded : pp.results.head?.any (·.resultType = 1) = true := by
    rw [List.head?_eq_getElem?, hresult, Option.any_some, decide_eq_true_eq, htype, hcontents]
    rfl
  refine ⟨s', ?_, hslots, hhonest, fun v comm h => hret v comm (hmaterial ▸ h)⟩
  unfold verifySingleLookup
  rw [ensure_of hlength.symm, Result.ok_bind]
  dsimp only
  rw [hincluded, hstep, Result.ok_bind]
  dsimp only
  rw [if_pos rfl, ← hcontents, hcompute, Result.ok_bind]
  dsimp only
  rw [ensure_of (by rw [← helements, Nat.zero_add])]
  rfl

/-- **Step 6** of the client: the version is looked up where it was brought, when an entry
that the path went right at vouches for it. -/
theorem fixedLookup_brought (hread : c.ReadsFixed P label L lifetime target visits m proof binaryLadder)
    (hw : w.Passed P L lifetime target dset proof visits walked left) {first : ℕ}
    (hfirst : L.identified lifetime target walked = some first) (hwalked : ∀ e ∈ walked, e < L.size)
    (hleft : ∀ e ∈ left, e < first)
    (hvisits : L.fixedVisits lifetime target walked ++ [.ladder first [target]] <+: visits) :
    ∃ s' : SearchState, s'.Tracks P L proof visits
        (L.fixedVisits lifetime target walked ++ [.ladder first [target]]) ∧
      c.fixedLookup P label target binaryLadder (L.commitment target) w =
        if walked.any (L.expired lifetime) = true → left.any (L.vouches lifetime dset) = true then
          .ok (first, s') else fail "Requested version of the label is expired" := by
  obtain ⟨hmem, hgoes⟩ := LabelLog.mem_of_identified hfirst
  obtain ⟨hexp, g, hg, htarget⟩ := LabelLog.goes_eq_gt.1 hgoes
  have hget := laddersOf_getElem? hvisits
  have hversions := versionsOf_beginning hvisits
  have hstamped : first ∈ entriesOf (L.fixedVisits lifetime target walked) := by
    refine mem_entriesOf.2 ⟨_, List.mem_append_right _ (List.mem_map_of_mem hmem), ?_⟩
    unfold LabelLog.fixedVisit
    split_ifs <;> rfl
  obtain ⟨pp, reader, entryRoots, hpp, hproves, hrecord, hfollows⟩ :=
    hw.tracks.follows.ladder hread.transcript hget hstamped
  have happend : versionsOf (L.fixedVisits lifetime target walked ++ [.ladder first [target]]) =
      appendNew w.ladders.wireIndex target := by
    rw [versionsOf_ladder, ← hw.tracks.slots]
    rfl
  rw [happend] at hversions
  obtain ⟨ladders, hlookup, hslots, hhonest, hretains⟩ := verifySingleLookup_honest hread
    (hwalked first hmem) (LabelLog.present_iff.2 ⟨g, hg, htarget.le⟩) hproves hw.tracks.honest
    hw.tracks.retains hversions
  have hdone := hfollows ladders
  refine ⟨⟨reader, ladders, entryRoots⟩, ⟨hdone, by rw [hslots, happend], hhonest, hretains⟩, ?_⟩
  have hidentified : ((w.inspected.filter (·.2 = .gt)).map Prod.fst).min? = some first := by
    rw [← hfirst, LabelLog.identified, hw.inspected, List.filter_map, List.map_map, List.filter_filter]
    have hfst : ∀ l : List ℕ, l.map (Prod.fst ∘ fun e => (e, L.relation target e)) = l :=
      fun l => List.map_id' l
    rw [hfst]
    congr 2
    funext e
    rw [Bool.eq_iff_iff, Bool.and_eq_true, decide_eq_true_eq, LabelLog.goes, Function.comp_apply]
    cases L.expired lifetime e <;> simp
  have hcovered : (w.leftPath.any fun p => p.1 < first ∧ p.2) = left.any (L.vouches lifetime dset) := by
    rw [hw.leftPath, List.any_map, Bool.eq_iff_iff, List.any_eq_true, List.any_eq_true]
    constructor
    · rintro ⟨e, he, h⟩
      exact ⟨e, he, (of_decide_eq_true h).2⟩
    · rintro ⟨e, he, h⟩
      exact ⟨e, he, decide_eq_true ⟨hleft e he, h⟩⟩
  unfold fixedLookup
  rw [hidentified, okOr_some, Result.ok_bind, hcovered, hw.encounteredExpired]
  by_cases hvouched : walked.any (L.expired lifetime) = true → left.any (L.vouches lifetime dset) = true
  · rw [if_pos hvouched, ensure_of hvouched, Result.ok_bind, hpp, Result.ok_bind]
    dsimp only
    rw [hlookup, Result.context_ok, Result.ok_bind]
    dsimp only
    rw [hrecord, Result.ok_bind, ensure_of rfl, Result.ok_bind]
    rfl
  · rw [if_neg hvouched, ensure, if_neg hvouched]
    rfl

/-! ### The search -/

/-- **A client takes over a version's entry**: it is the greatest one there, or no entry of
the path is expired, or an entry that the path went right at vouches for it. -/
def Vouched (L : LabelLog) (lifetime : Option ℕ) (target : ℕ) (dset : List ℕ) (z : ℕ) : Prop :=
  L.goes lifetime target z = .eq ∨ ((L.pathTo z ++ [z]).any (L.expired lifetime) = true →
    ((L.pathTo z).filter (· < z)).any (L.vouches lifetime dset) = true)

/-- **The client's walk** over a search that is served. -/
theorem simulateFixedSearch_served
    (hread : c.ReadsFixed P label L lifetime target visits m proof binaryLadder) (h₀ : 0 < L.size)
    (hn : L.size ≤ 2 ^ 62)
    (hdset : Bounds L.timestamp c.config.reasonableMonitoringWindow L.size dset (Nat.log2 L.size) 0 L.size
      (0, L.timestamp (L.size - 1)) true) (hz : z < L.size)
    (hends : EndsAt (L.goes lifetime target) L.size (L.pathTo z) z)
    (hserved : L.Served lifetime target dset z visits) {s : SearchState}
    (hs : s.Tracks P L proof visits (frontierVisits L.size)) :
    (Vouched L lifetime target dset z → ∃ terminal s',
      c.simulateFixedSearch P label L.size target binaryLadder (L.commitment target) s = .ok (terminal, s') ∧
      s'.Tracks P L proof visits visits) ∧
    (¬ Vouched L lifetime target dset z →
      c.simulateFixedSearch P label L.size target binaryLadder (L.commitment target) s =
        fail "Requested version of the label is expired") := by
  have hn' : L.size < 2 ^ 64 := hn.trans_lt (by decide)
  have hlevel : Nat.log2 L.size < 64 := (Nat.log2_lt (by omega)).2 hn'
  have hwalked : L.fixedVisits lifetime target (L.pathTo z ++ [z]) <+: visits := by
    cases hserved with
    | found => exact List.prefix_rfl
    | brought => exact List.prefix_append _ _
  have hpath := (LabelLog.fixedVisits_beginning (List.prefix_append (L.pathTo z) [z])).trans hwalked
  have hfrontier : frontierVisits L.size <+: visits := (List.prefix_append _ _).trans hwalked
  -- the last entry of the frontier has been seen
  have hlast := last_mem_entriesOf h₀ hn (List.prefix_rfl : frontierVisits L.size <+: _)
  obtain ⟨reader, hreader, hat⟩ := hs.follows.reader.timestamp hread.transcript (e := L.size - 1)
    (by rw [appendNew_of_mem hlast]; exact entriesOf_beginning hfrontier)
  rw [appendNew_of_mem hlast] at hat
  have hstart : (⟨{ s with reader := reader }, (0, L.timestamp (L.size - 1)), true, false, false, [], []⟩ :
      FixedWalk).Passed P L lifetime target dset proof visits [] [] := by
    refine ⟨?_, rfl, rfl, rfl, rfl⟩
    rw [LabelLog.fixedVisits, List.map_nil, List.append_nil]
    exact ⟨⟨hat, hs.follows.roots⟩, hs.slots, hs.honest, hs.retains⟩
  obtain ⟨fuel', w, halong, hw, hdist⟩ := fixedLoop_along (z := z) hread hn' rfl hdset
    (show Nat.log2 L.size < 65 by omega) (by omega) (by omega) (by rwa [Nat.zero_mul])
    (by rwa [Nat.zero_mul, List.nil_append]) hstart
  rw [Nat.zero_mul, List.nil_append, List.nil_append, ← LabelLog.pathTo] at hw
  rw [← root_eq h₀ hn'] at halong
  unfold simulateFixedSearch
  rw [hreader, Result.ok_bind]
  dsimp only
  rw [halong]
  cases hserved with
  | found here vouched =>
    obtain ⟨w', hloop, htracks⟩ := fixedLoop_found hread hw hwalked hdist here vouched fuel'
    refine ⟨fun _ => ⟨z, w'.toSearchState, ?_, htracks⟩, fun h => absurd (.inl here) h⟩
    rw [hloop]
    rfl
  | brought elsewhere here vouched =>
    rename_i first
    obtain ⟨w', hloop, hw'⟩ := fixedLoop_stop hread hw hwalked hdist
      (hends.stops.resolve_left elsewhere) fuel'
    obtain ⟨hmem, hgoes⟩ := LabelLog.mem_of_identified here
    have hbound : ∀ e ∈ L.pathTo z ++ [z], e < L.size := fun e he => LabelLog.walked_lt hn hz he
    -- the entries that the path went right at lack the version
    have hleft : ∀ e ∈ (L.pathTo z).filter (· < z), e < first := fun e he => by
      obtain ⟨-, hlt⟩ := List.mem_filter.1 he
      refine (of_decide_eq_true hlt).trans_le ?_
      rcases List.mem_append.1 hmem with hmem | hmem
      · by_contra hlt'
        have := hends.right first hmem (by omega)
        rw [hgoes] at this
        cases this
      · exact (List.mem_singleton.1 hmem).ge
    obtain ⟨s', htracks, hlookup⟩ := fixedLookup_brought hread hw' here hbound hleft List.prefix_rfl
    rw [hloop, Result.ok_bind]
    dsimp only
    rw [hlookup]
    refine ⟨fun hvouched => ⟨first, s', ?_, htracks⟩, fun hvouched => ?_⟩
    · rw [if_pos (hvouched.resolve_left elsewhere)]
    · rw [if_neg fun h => hvouched (.inr h)]

end KtClient

end

end KeyTransparency
