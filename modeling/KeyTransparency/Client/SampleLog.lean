/-
# Sample logs

A log in which one label has the greatest versions one likes, a new client that
monitors it, and the proof of any walk over it.  They show where a result about a
client's checks ends.
-/

import KeyTransparency.Client.Freshness
import KeyTransparency.Client.LadderSound
import KeyTransparency.Client.OwnerWalk
import KeyTransparency.Client.TrustedHead

namespace KeyTransparency

open BinaryLadder LogMath LogVerifier MerkleLog Octets

/-! ### Proofs of any walk -/

section

variable {P : Primitives} {L : LabelLog}

/-- **Every walk over a log has a proof**, when its versions have keys. -/
theorem LabelLog.exists_transcript (hkeys : ∀ v ≤ maxVersion, IsKey (L.key v)) {visits : List Visit}
    (hbound : ∀ e ∈ entriesOf visits, e < L.size)
    (hversions : ∀ l ∈ laddersOf visits, ∀ v ∈ l.2, v ≤ maxVersion) (m : ℕ) :
    ∃ proof, Transcript P L visits m proof := by
  have hproofs : ∀ ladders : List (ℕ × List ℕ), (∀ l ∈ ladders, ∀ v ∈ l.2, v ≤ maxVersion) →
      ∃ proofs, List.Forall₂ (fun (l : ℕ × List ℕ) (pp : PrefixProof) =>
        pp.Proves P (L.contents l.1) (l.2.map L.key)) ladders proofs := by
    intro ladders
    induction ladders with
    | nil => exact fun _ => ⟨[], .nil⟩
    | cons l ladders ih =>
      intro hversions
      obtain ⟨pp, hpp⟩ : ∃ pp : PrefixProof, pp.Proves P (L.contents l.1) (l.2.map L.key) :=
        PrefixProof.exists_proves fun key hkey => by
          obtain ⟨v, hv, rfl⟩ := List.mem_map.1 hkey
          exact hkeys v (hversions l List.mem_cons_self v hv)
      obtain ⟨proofs, hproofs⟩ := ih fun l hl => hversions l (List.mem_cons_of_mem _ hl)
      exact ⟨pp :: proofs, .cons hpp hproofs⟩
  obtain ⟨proofs, hproofs⟩ := hproofs _ hversions
  exact ⟨⟨_, proofs, _, some ⟨_⟩⟩, hbound, rfl, hproofs, rfl, rfl⟩

/-- A log is the one of its own root. -/
theorem LabelLog.logOf (hn : L.size ≤ 2 ^ 62) {head : TrustedState} (hsize : head.treeSize = L.size)
    (hroot : head.rootHash = logRoot P (L.leaves P)) :
    LogOf P head.treeSize head.rootHash (L.leaves P) := by
  refine ⟨by rw [hsize, L.length_leaves], by rw [hsize]; exact hn, fun l hl => ?_, hroot⟩
  obtain ⟨e, -, rfl⟩ := List.mem_map.1 hl
  exact length_logLeafValue P _ _

/-- The step of a version after some ladders. -/
def LabelLog.stepAfter (L : LabelLog) (ladders : List (ℕ × List ℕ)) (v : ℕ) : BinaryLadderStep :=
  ⟨L.vrfProof v, if ladders.any fun l => decide (v ∈ l.2) && L.present l.1 v then
    some (L.commitment v) else none⟩

/-- The steps of a walk in any order that has its versions. -/
theorem LabelLog.wire_map {ladders : List (ℕ × List ℕ)} {order : List ℕ} (h : order.Nodup) :
    L.Wire none ladders order (order.map (L.stepAfter ladders)) := by
  refine ⟨h, fun v hv => ⟨L.stepAfter ladders v, ?_, rfl, fun c hc => ?_, fun _ hfound => ?_,
    fun hsome => ?_⟩⟩
  · rw [List.getElem?_map, List.getElem?_eq_getElem (List.idxOf_lt_length_of_mem hv),
      List.getElem_idxOf, Option.map_some]
  · rw [stepAfter] at hc
    dsimp only at hc
    split_ifs at hc
    · exact (Option.some.inj hc).symm
    · cases hc
  · have hany : (ladders.any fun l => decide (v ∈ l.2) && L.present l.1 v) = true := by
      simpa [List.any_eq_true] using hfound
    rw [stepAfter, if_pos hany]
    rfl
  · rw [stepAfter] at hsome
    dsimp only at hsome
    split_ifs at hsome with hany
    · simpa [List.any_eq_true] using hany
    · cases hsome

/-- The value can be recomputed from the value and its opening. -/
theorem LabelLog.Wire.of_none {ladders : List (ℕ × List ℕ)} {order : List ℕ}
    {binaryLadder : List BinaryLadderStep} (h : L.Wire none ladders order binaryLadder)
    (target : Option ℕ) : L.Wire target ladders order binaryLadder :=
  ⟨h.nodup, fun v hv => (h.step v hv).imp fun _ hstep =>
    ⟨hstep.1, hstep.2.proof, hstep.2.commitment, fun _ => hstep.2.found (by simp), hstep.2.absent⟩⟩

end

/-! ### The log -/

/-- The VRF output of a version of the empty label. -/
def sampleKey (v : ℕ) : Octets := Primitives.outputBytes (beBytes 1 0 ++ beBytes 4 v)

theorem isKey_sampleKey (v : ℕ) : IsKey (sampleKey v) :=
  ⟨(Primitives.outputBytes_bytes _).1, (Primitives.outputBytes_bytes _).2⟩

theorem sampleKey_inj {v w : ℕ} (hv : v ≤ maxVersion) (hw : w ≤ maxVersion)
    (h : sampleKey v = sampleKey w) : v = w := by
  have hbytes : ∀ x, (sampleKey x).take 5 = beBytes 1 0 ++ beBytes 4 x := fun x => by
    simp [sampleKey, Primitives.outputBytes, beBytes, List.take_take]
  have heq := congrArg (List.take 5) h
  rw [hbytes, hbytes] at heq
  refine beBytes_inj ?_ ?_ (List.append_cancel_left heq)
  · unfold maxVersion at hv
    omega
  · unfold maxVersion at hw
    omega

/-- A label without versions goes on without. -/
theorem noVersions_growing (size : ℕ) {e e' g : ℕ} (_ : e ≤ e') (_ : e' < size) (h : none = some g) :
    ∃ g', none = some g' ∧ g ≤ g' := by
  cases h

theorem noVersions_small (size : ℕ) {e g : ℕ} (_ : e < size) (h : none = some g) : g ≤ maxVersion := by
  cases h

/-- A log with the given timestamps and greatest versions of the empty label, all with
one commitment. -/
def sampleLog (size : ℕ) (timestamp : ℕ → U64) (greatest : ℕ → Option ℕ)
    (ordered : ∀ {e e' : ℕ}, e ≤ e' → e' < size → timestamp e ≤ timestamp e')
    (growing : ∀ {e e' g : ℕ}, e ≤ e' → e' < size → greatest e = some g →
      ∃ g', greatest e' = some g' ∧ g ≤ g')
    (small : ∀ {e g : ℕ}, e < size → greatest e = some g → g ≤ maxVersion) : LabelLog where
  size := size
  timestamp := timestamp
  contents e key := if ((greatest e).elim [] fun g => List.range (g + 1)).any (sampleKey · = key) then
    some (Octets.zeros 32) else none
  greatest := greatest
  key := sampleKey
  vrfProof v := beBytes 1 0 ++ beBytes 4 v
  commitment _ := Octets.zeros 32
  ordered := ordered
  growing := growing
  lookup {e v} he hv := by
    cases hg : greatest e with
    | none => simp
    | some g =>
      have hiff : ((List.range (g + 1)).any (sampleKey · = sampleKey v)) = decide (v ≤ g) := by
        rw [Bool.eq_iff_iff, List.any_eq_true]
        simp only [List.mem_range, decide_eq_true_eq]
        constructor
        · rintro ⟨w, hw, heq⟩
          have hgmax := small he hg
          rw [← sampleKey_inj (by omega) hv heq]
          omega
        · exact fun h => ⟨v, by omega, rfl⟩
      simp [hiff]
  small := small

/-- A new client in contact monitoring mode. -/
def sampleClient (window : ℕ) : KtClient :=
  ⟨Octets.zeros 32, [], { watchingConfig with reasonableMonitoringWindow := window }, none,
    fun _ => none, none, fun _ => .empty, fun _ _ => none, .empty, none⟩

theorem withChannel_sampleClient (window : ℕ) : KtClient.withChannel Primitives.ideal
    { watchingConfig with reasonableMonitoringWindow := window } = .ok (sampleClient window) := rfl

/-- It can check the VRF outputs of a sample log. -/
theorem sampleClient_canVerify {window : ℕ} {L : LabelLog} (hkey : L.key = sampleKey)
    (hproof : ∀ v, L.vrfProof v = beBytes 1 0 ++ beBytes 4 v) :
    (sampleClient window).CanVerify Primitives.ideal [] L := by
  intro v _
  refine ⟨beBytes 1 0 ++ beBytes 4 v, rfl, ?_⟩
  rw [hkey, hproof]
  change (ensure (beBytes 1 0 ++ beBytes 4 v = beBytes 1 0 ++ beBytes 4 v) _ >>= fun _ =>
    Except.ok (sampleKey v)) = _
  rw [ensure_of rfl, Result.ok_bind]

theorem sampleClient_keysAre (window : ℕ) :
    (sampleClient window).KeysAre Primitives.ideal [] sampleKey := by
  intro v input proof out hinput hout
  obtain rfl := Except.ok.inj hinput
  obtain ⟨-, -, hout⟩ := Result.bind_eq_ok.1 hout
  exact (Except.ok.inj hout).symm

/-- The head of a log is taken over by it. -/
theorem sampleClient_headOf (window : ℕ) (L : LabelLog) (now : U64) :
    ∃ fth, (∀ env : Env, env.now = none → (sampleClient window).treeSizeForFth env fth =
        .ok (L.size, some now, true) ∧
          (sampleClient window).checkUpdatedBounds env true (some now) = .ok ()) ∧
      (sampleClient window).HeadOf Primitives.ideal L 0 fth true := by
  have hdigest : ∀ l ∈ L.leaves Primitives.ideal, l.length = 32 := fun l hl => by
    obtain ⟨e, -, rfl⟩ := List.mem_map.1 hl
    exact length_logLeafValue _ _ _
  obtain ⟨sigs, hsigs⟩ := KtClient.exists_signature (c := sampleClient window) ⟨_, rfl⟩ L.size
    (length_logRoot (P := Primitives.ideal) hdigest)
  refine ⟨⟨.updated, some ⟨L.size, asI64 now, sigs⟩, none⟩, fun env henv => ⟨?_, ?_⟩, ?_⟩
  · simp [KtClient.treeSizeForFth, sampleClient, asU64_asI64]
  · have hbounds : (sampleClient window).checkTimestampBounds env now = .ok () := by
      refine KtClient.checkTimestampBounds_eq_ok.2 ?_
      rw [henv, Option.getD_none, saturatingAdd, saturatingAdd]
      omega
    rw [KtClient.checkUpdatedBounds, hbounds]
    rfl
  · exact {
      mode := show deploymentModeContactMonitoring ≠ deploymentModeThirdPartyAuditing by decide
      retained := retainsPeaks_zero _ _
      known := Nat.zero_le _
      newer := fun _ => ⟨_, rfl, hsigs _⟩
      same := fun h => by cases h }

end KeyTransparency
