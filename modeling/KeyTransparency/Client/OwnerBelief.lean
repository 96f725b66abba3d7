/-
# What an owner believes of its label

An owner that advertises a greatest version learns of every later one that a
distinguished entry holds.  An owner that advertises none, since it has never updated
its label, has its belief read as the greatest number there is, and a first version
that someone else inserted passes (`unseen_first_version`).  So owner monitoring is
sound exactly for the owners that advertise a version (`owner_monitor_sound_iff`).
-/

import KeyTransparency.Client.OwnerSound
import KeyTransparency.Client.SampleLog

namespace KeyTransparency

open BinaryLadder InOrder LogMath MerkleLog

/-- **Owner monitoring is sound** for an advertised greatest version: of an accepted
response about a log that holds the label's versions contiguously, every distinguished
entry right of the start was read, and holds no version beyond the advertised one. -/
def KtClient.OwnerMonitorSound (P : Primitives) (greatestVersion : Option ℕ) : Prop :=
  ∀ (env : Env) (c c' : KtClient) (label : Octets) (map : OrderedMap ℕ) (start : ℕ)
    (resp : OwnerMonitorResponse) (data : List LeafData) (head : TrustedState) (L : ContiguousLog),
    c.KeysAre P label L.key →
    Accepted P env c (.ownerMonitor label map start greatestVersion resp) data c' →
    c'.state = some head → LogOf P head.treeSize head.rootHash (L.leaves P) →
    ∀ x ∈ L.distinguished c.config.reasonableMonitoringWindow, start < x →
      x ∈ data.map Prod.fst ∧ ∀ v ∈ L.greatest x, ∃ g ∈ greatestVersion, v ≤ g

/-- The versions of a label, as one log sees them, are contiguous in its maps. -/
def LabelLog.contiguous (L : LabelLog) : ContiguousLog where
  size := L.size
  timestamp := L.timestamp
  contents := L.contents
  greatest := L.greatest
  key := L.key
  held he hv := by
    rw [L.lookup he hv]
    split_ifs with h <;> simp [h]
  small := L.small

theorem LabelLog.leaves_contiguous (P : Primitives) (L : LabelLog) :
    L.contiguous.leaves P = L.leaves P := rfl

/-- A log of two entries, ten milliseconds apart, of which the second brings the first
version of the empty label. -/
def intrudedLog : LabelLog :=
  sampleLog 2 (fun e => if e = 0 then 0 else 10) (fun e => if e = 0 then none else some 0)
    (fun {e e'} h _ => by
      by_cases he : e = 0
      · simp [he]
      · rw [if_neg he, if_neg (by omega)])
    (fun {e e' g} h _ hg => by
      by_cases he : e = 0
      · simp [he] at hg
      · rw [if_neg he] at hg
        exact ⟨0, if_neg (by omega), (Option.some.inj hg).ge⟩)
    (fun {e g} _ hg => by
      by_cases he : e = 0
      · simp [he] at hg
      · rw [if_neg he] at hg
        exact (Option.some.inj hg).symm.le.trans (Nat.zero_le _))

theorem ownerWalk_intrudedLog :
    intrudedLog.ownerWalk 0 1 = [.stamp 1, .stamp 0, .ladder 1 [0, 1]] := by
  have hladder : intrudedLog.ladderAt 1 = [0, 1] := (LabelLog.ladderAt_of_some rfl).trans (by decide)
  have hwalk : intrudedLog.ownerWalk 0 1 =
      [.stamp 1, .stamp 0, .ladder 1 (intrudedLog.ladderAt 1)] := rfl
  rw [hwalk, hladder]

/-- Without obligations, the contact ladders of a response are those of the frontier. -/
theorem KtClient.replayContactLadders_empty {P : Primitives} {L : LabelLog} {visits : List Visit}
    {m : ℕ} {proof : CombinedTreeProof} {order : List ℕ} {reader : ProofReader}
    {material : ℕ → Option (Octets × Option Octets)} {rmw : ℕ} (h₀ : 0 < L.size)
    (hn : L.size ≤ 2 ^ 62) (ht : Transcript P L visits m proof)
    (hfrontier : frontierVisits L.size <+: visits)
    (hreader : reader.At L proof (entriesOf (frontierVisits L.size)) 0) :
    ∃ w, replayContactLadders P material .empty L.size rmw reader (fun _ => none) = .ok w ∧
      (SearchState.mk w.reader (.new []) w.entryRoots).At P L proof order
        (frontierVisits L.size) [] := by
  have hlast := last_mem_entriesOf h₀ hn (List.prefix_refl (frontierVisits L.size))
  obtain ⟨reader', hts, hreader'⟩ := hreader.timestamp ht (e := L.size - 1)
    (by rw [appendNew_of_mem hlast]; exact entriesOf_beginning hfrontier)
  rw [appendNew_of_mem hlast] at hreader'
  refine ⟨⟨reader', fun _ => none, .empty, fun _ => none⟩, ?_, ?_, ?_, rfl, List.nil_prefix, ?_⟩
  · rw [replayContactLadders, hts]
    rfl
  · rw [List.append_nil, frontierVisits, laddersOf_stamps]
    exact hreader'
  · intro e
    rw [List.append_nil, frontierVisits, laddersOf_stamps]
    rfl
  · intro v out hout
    cases hout

/-- The owner that has never updated its label accepts the log. -/
theorem exists_intruded_response : ∃ env resp data c' head,
    Accepted Primitives.ideal env (sampleClient 1) (.ownerMonitor [] .empty 0 none resp) data c' ∧
      c'.state = some head ∧
      LogOf Primitives.ideal head.treeSize head.rootHash
        (intrudedLog.contiguous.leaves Primitives.ideal) := by
  obtain ⟨fth, hfth, hhead⟩ := sampleClient_headOf 1 intrudedLog 10
  obtain ⟨hsize, hbounds⟩ := hfth ⟨none, fun _ => .ok ()⟩ rfl
  have hvisits : frontierVisits intrudedLog.size ++ [] ++ intrudedLog.ownerWalk 0 1 =
      [.stamp 1, .stamp 1, .stamp 0, .ladder 1 [0, 1]] := by
    rw [ownerWalk_intrudedLog]
    rfl
  have hversions : versionsOf (intrudedLog.ownerWalk 0 1) = [0, 1] := by
    rw [ownerWalk_intrudedLog]
    decide
  obtain ⟨proof, ht⟩ : ∃ proof, Transcript Primitives.ideal intrudedLog
      (frontierVisits intrudedLog.size ++ [] ++ intrudedLog.ownerWalk 0 1) 0 proof :=
    LabelLog.exists_transcript (fun v _ => isKey_sampleKey v) (by rw [hvisits]; decide)
      (by rw [hvisits]; decide) 0
  let resp : OwnerMonitorResponse := ⟨some fth, some proof, [0, 1].map (intrudedLog.stepAfter
    (laddersOf (frontierVisits intrudedLog.size ++ [] ++ intrudedLog.ownerWalk 0 1)))⟩
  have hfrontier : frontierVisits intrudedLog.size <+:
      frontierVisits intrudedLog.size ++ [] ++ intrudedLog.ownerWalk 0 1 := by
    rw [List.append_assoc]
    exact List.prefix_append _ _
  have hwire : intrudedLog.Wire none (laddersOf (frontierVisits intrudedLog.size ++ [] ++
      intrudedLog.ownerWalk 0 1)) [0, 1] resp.binaryLadder := LabelLog.wire_map (by decide)
  have hcheck : intrudedLog.Checkable maxVersion (intrudedLog.ownerWalk 0 1) := fun l hl g hg => by
    rw [ownerWalk_intrudedLog] at hl
    obtain rfl := List.mem_singleton.1 hl
    obtain rfl := Option.some.inj hg
    decide
  have hverified : ∃ head th retained, (sampleClient 1).verifyOwnerMonitor Primitives.ideal _ [] .empty 0
      none resp = .ok (_, { sampleClient 1 with
        retainedHead := th, state := some head, retainedSubtrees := retained }) ∧ _ :=
    KtClient.verifyOwnerMonitor_honest (by decide) (by decide) rfl rfl hsize hbounds hhead
      (sampleClient_canVerify rfl fun _ => rfl) ht
      (fun reader hreader => by
        rw [List.append_nil]
        exact KtClient.replayContactLadders_empty (by decide) (by decide) ht hfrontier hreader)
      hwire hcheck (hversions ▸ List.prefix_rfl)
      (.inl ((congrArg List.length hversions).symm ▸ rfl))
  obtain ⟨head, th, retained, hverified, hheadSize, hheadRoot, -⟩ := hverified
  exact ⟨_, _, _, _, head, .ownerMonitor hverified, rfl, LabelLog.logOf (by decide) hheadSize hheadRoot⟩

/-- **A first version that no one expects is not seen**: it lies at a distinguished entry
right of the start, and the owner that advertises no version accepts the response. -/
theorem unseen_first_version : ∃ env resp data c' head,
    Accepted Primitives.ideal env (sampleClient 1) (.ownerMonitor [] .empty 0 none resp) data c' ∧
      c'.state = some head ∧
      LogOf Primitives.ideal head.treeSize head.rootHash
        (intrudedLog.contiguous.leaves Primitives.ideal) ∧
      1 ∈ intrudedLog.contiguous.distinguished 1 ∧ intrudedLog.contiguous.greatest 1 = some 0 ∧
      ¬ KtClient.OwnerMonitorSound Primitives.ideal none := by
  obtain ⟨env, resp, data, c', head, haccepted, hstate, hlog⟩ := exists_intruded_response
  have hdistinguished : 1 ∈ intrudedLog.contiguous.distinguished 1 := by decide
  refine ⟨env, resp, data, c', head, haccepted, hstate, hlog, hdistinguished, rfl, fun hsound => ?_⟩
  obtain ⟨g, hg, -⟩ := (hsound env _ c' [] .empty 0 resp data head _ (sampleClient_keysAre 1) haccepted
    hstate hlog 1 hdistinguished (by decide)).2 0 rfl
  cases hg

/-- **When owner monitoring is sound**: for the owners that advertise a version, over
every log and whatever the responses, and for no others. -/
theorem owner_monitor_sound_iff (greatestVersion : Option ℕ) :
    (∀ P : Primitives, Function.Injective P.sha256 → (∀ m, P.sha256 m ≠ zeroValue) →
      KtClient.OwnerMonitorSound P greatestVersion) ↔ greatestVersion ≠ none := by
  constructor
  · rintro h rfl
    obtain ⟨env, resp, data, c', head, haccepted, hstate, hlog⟩ := exists_intruded_response
    obtain ⟨g, hg, -⟩ := (h Primitives.ideal Primitives.ideal_sha256_injective
      Primitives.ideal_sha256_ne_zeros env _ c' [] .empty 0 resp data head _ (sampleClient_keysAre 1)
      haccepted hstate hlog 1 (by decide) (by decide)).2 0 rfl
    cases hg
  · intro hsome P hP hZ env c c' label map start resp data head L hkeys haccepted hstate hlog x hx hxs
    cases haccepted with
    | ownerMonitor h =>
      obtain ⟨g, rfl⟩ := Option.ne_none_iff_exists'.1 hsome
      obtain ⟨hread, hwithin⟩ := KtClient.verifyOwnerMonitor_shown hP hZ hkeys h hstate hlog x hx hxs
      exact ⟨hread, fun v hv => ⟨g, rfl, hwithin v hv⟩⟩

end KeyTransparency
