/-
# What visits read

The visits of a walk over an honest log succeed: what they read is there
(`WrittenLog.readable`), for every label that has keys.  What a visit extracts is apart.
-/

import KeyTransparency.Client.WalkProof
import KeyTransparency.Tree.Traversal

namespace KeyTransparency

open BinaryLadder InOrder LogMath

namespace Tree

/-! ### What a visit changes -/

section

variable {P : Primitives} {t : Tree} {e : ℕ} {extract : Option ℕ} {s s' : TraversalSession}

theorem addStep_eq_ok {result : ℕ × Option Octets} (h : s.addStep P t extract result = .ok s') :
    ∃ steps, s' = { s with binaryLadder := steps } := by
  rw [TraversalSession.addStep] at h
  dsimp only at h
  generalize (if extract = some result.1 then none else result.2) = commitment at h
  split_ifs at h
  · exact ⟨_, (Except.ok.inj h).symm⟩
  · obtain ⟨x, -, h⟩ := Result.bind_eq_ok.1 h
    exact ⟨_, (Except.ok.inj h).symm⟩

theorem addSteps_eq_ok : ∀ {results : List (ℕ × Option Octets)} {s s' : TraversalSession},
    s.addSteps P t extract results = .ok s' → ∃ steps, s' = { s with binaryLadder := steps }
  | [], s, s', h => ⟨s.binaryLadder, (Except.ok.inj h).symm⟩
  | result :: results, s, s', h => by
    obtain ⟨s₁, h₁, h⟩ := Result.bind_eq_ok.1 h
    obtain ⟨steps₁, rfl⟩ := addStep_eq_ok h₁
    obtain ⟨steps₂, rfl⟩ := addSteps_eq_ok h
    exact ⟨steps₂, rfl⟩

/-- A visit with a ladder keeps the label, and has one more proof. -/
theorem visit_eq_ok {versions : List ℕ} (h : s.visit P t e versions extract = .ok s') :
    s'.label = s.label ∧ ∃ proof, s'.prefixProofs = s.prefixProofs ++ [(e, proof)] := by
  obtain ⟨ts, -, h⟩ := Result.bind_eq_ok.1 h
  obtain ⟨ptr, -, h⟩ := Result.bind_eq_ok.1 h
  obtain ⟨⟨proof, results⟩, -, h⟩ := Result.bind_eq_ok.1 h
  obtain ⟨s₁, h₁, h⟩ := Result.bind_eq_ok.1 h
  obtain ⟨steps, rfl⟩ := addSteps_eq_ok h₁
  have hlabel : (s.addNode e ts).label = s.label := TraversalSession.addNode_label ..
  have hproofs : (s.addNode e ts).prefixProofs ++ [(e, proof)] = s.prefixProofs ++ [(e, proof)] := by
    rw [TraversalSession.addNode_prefixProofs]
  cases extract with
  | none =>
    obtain rfl := Except.ok.inj h
    exact ⟨hlabel, proof, hproofs⟩
  | some v =>
    obtain ⟨x, -, h⟩ := Result.bind_eq_ok.1 h
    obtain rfl := Except.ok.inj h
    exact ⟨hlabel, proof, hproofs⟩

theorem visit_label {versions : List ℕ} (h : s.visit P t e versions extract = .ok s') :
    s'.label = s.label :=
  (visit_eq_ok h).1

end

/-! ### What a search reads -/

/-- What the visits of a search read is there, besides what they extract. -/
structure Readable (P : Primitives) (t : Tree) (label : Octets) (n : ℕ) (ts : ℕ → U64) : Prop where
  timestamp : ∀ e < n, LogTree.getTimestamp t.store e = .ok (ts e)
  ladder : ∀ e < n, ∃ ptr, LogTree.getPrefixPtr t.store e = .ok ptr ∧
    ∀ v ≤ maxVersion, ∃ r, t.ladderLookup P ptr label v = .ok (v, r)
  vrf : ∀ v ≤ maxVersion, ∃ out, t.config.vrfProve P label v = .ok out
  inclusion : ∀ (visited : List ℕ) (m : ℕ), (∀ e ∈ visited, e < n) →
    ∃ elements, inclusionProof P t visited n m = .ok elements

/-- A session of a label has visited entries of the log only. -/
structure Within (label : Octets) (n : ℕ) (s : TraversalSession) : Prop where
  label : s.label = label
  bound : ∀ e ∈ s.tsOrder, e < n

section

variable {P : Primitives} {t : Tree} {label : Octets} {n v m e : ℕ} {ts : ℕ → U64}
  {s : TraversalSession}

theorem Within.addNode (h : Within label n s) (he : e < n) (x : U64) :
    Within label n (s.addNode e x) := by
  refine ⟨(TraversalSession.addNode_label ..).trans h.label, fun e' he' => ?_⟩
  rw [TraversalSession.addNode_tsOrder] at he'
  rcases mem_appendNew.1 he' with he' | rfl
  · exact h.bound e' he'
  · exact he

theorem Readable.addStep_ok (h : t.Readable P label n ts) {extract : Option ℕ}
    {result : ℕ × Option Octets} (hs : Within label n s) (hv : result.1 ≤ maxVersion) :
    ∃ s', s.addStep P t extract result = .ok s' ∧ Within label n s' := by
  rw [TraversalSession.addStep]
  dsimp only
  generalize (if extract = some result.1 then none else result.2) = commitment
  split_ifs with hmem
  · exact ⟨_, rfl, hs.label, hs.bound⟩
  · obtain ⟨out, hout⟩ := h.vrf _ hv
    rw [hs.label, hout, Result.ok_bind]
    exact ⟨_, rfl, rfl, hs.bound⟩

theorem Readable.addSteps_ok (h : t.Readable P label n ts) {extract : Option ℕ} :
    ∀ {results : List (ℕ × Option Octets)} {s : TraversalSession}, Within label n s →
      (∀ result ∈ results, result.1 ≤ maxVersion) →
      ∃ s', s.addSteps P t extract results = .ok s' ∧ Within label n s'
  | [], s, hs, _ => ⟨s, rfl, hs⟩
  | result :: results, s, hs, hv => by
    obtain ⟨s₁, h₁, hs₁⟩ := h.addStep_ok hs (hv result List.mem_cons_self)
    obtain ⟨s₂, h₂, hs₂⟩ := h.addSteps_ok hs₁ fun r hr => hv r (List.mem_cons_of_mem _ hr)
    refine ⟨s₂, ?_, hs₂⟩
    rw [TraversalSession.addSteps, h₁, Result.ok_bind, h₂]

/-- **A visit succeeds**, besides what it extracts. -/
theorem Readable.visit_eq (h : t.Readable P label n ts) (hs : Within label n s) (he : e < n)
    {versions : List ℕ} (hv : ∀ v ∈ versions, v ≤ maxVersion) (extract : Option ℕ) :
    ∃ s', s.visit P t e versions extract = TraversalSession.extracted t extract s' ∧
      Within label n s' := by
  obtain ⟨ptr, hptr, hlookup⟩ := h.ladder e he
  have hlookups : ∀ v ∈ versions, ∃ found, t.ladderLookup P ptr label v = .ok found ∧
      found.1 = v := fun v hmem => by
    obtain ⟨r, hr⟩ := hlookup v (hv v hmem)
    exact ⟨(v, r), hr, rfl⟩
  obtain ⟨found, hfound, hall⟩ := Result.exists_mapM_eq_ok hlookups
  have hversions : ∀ result ∈ found.map fun f => (f.1, f.2.commitment), result.1 ≤ maxVersion := by
    intro result hresult
    obtain ⟨f, hf, rfl⟩ := List.mem_map.1 hresult
    obtain ⟨v, hmem, rfl⟩ : ∃ v ∈ versions, f.1 = v := by
      obtain ⟨i, hi, rfl⟩ := List.mem_iff_getElem.1 hf
      have hi' : i < versions.length := hall.length_eq ▸ hi
      exact ⟨versions[i], List.getElem_mem hi', (List.forall₂_iff_get.1 hall).2 i hi' hi⟩
    exact hv _ hmem
  have hnode := hs.addNode he (ts e)
  obtain ⟨s', hadd, hs'⟩ := h.addSteps_ok
    (s := (s.addNode e (ts e)).addProof e ⟨found.map fun e => e.2.searchResult,
      found.flatMap fun e => e.2.inclusionProof⟩) ⟨hnode.label, hnode.bound⟩ hversions
  refine ⟨s', ?_, hs'⟩
  rw [TraversalSession.visit, h.timestamp e he, Result.ok_bind]
  dsimp only
  rw [hptr, Result.ok_bind, hnode.label, generateLadderProof, hfound, Result.ok_bind, Result.pure_eq,
    Result.ok_bind]
  dsimp only
  rw [hadd, Result.ok_bind]
  cases extract with
  | none => rfl
  | some v => rfl

theorem Readable.visitTimestampOnly_ok (h : t.Readable P label n ts) (hs : Within label n s)
    (he : e < n) : ∃ s', s.visitTimestampOnly t e = .ok s' ∧ Within label n s' := by
  have hnode := hs.addNode he (ts e)
  rw [TraversalSession.visitTimestampOnly, h.timestamp e he, Result.ok_bind]
  cases LogTree.getPrefixRoot t.store e with
  | ok root => exact ⟨_, rfl, hnode.label, hnode.bound⟩
  | error err => exact ⟨_, rfl, hnode⟩

theorem Readable.visitAll_ok (h : t.Readable P label n ts) : ∀ {nodes : List ℕ}
    {s : TraversalSession}, Within label n s → (∀ e ∈ nodes, e < n) →
      ∃ s', s.visitAll t nodes = .ok s' ∧ Within label n s'
  | [], s, hs, _ => ⟨s, rfl, hs⟩
  | e :: nodes, s, hs, hlt => by
    obtain ⟨s₁, h₁, hs₁⟩ := h.visitTimestampOnly_ok hs (hlt e List.mem_cons_self)
    obtain ⟨s₂, h₂, hs₂⟩ := h.visitAll_ok hs₁ fun e' he' => hlt e' (List.mem_cons_of_mem _ he')
    refine ⟨s₂, ?_, hs₂⟩
    rw [TraversalSession.visitAll, h₁, Result.ok_bind, h₂]

/-- **The combined proof** of a session can be made. -/
theorem Readable.finalize_ok (h : t.Readable P label n ts) (hs : Within label n s) (m : ℕ) :
    ∃ proof, s.finalize P t n m = .ok proof ∧ proof.prefixProofs = s.prefixProofs.map Prod.snd := by
  obtain ⟨elements, helements⟩ := h.inclusion (s.tsOrder.mergeSort (· ≤ ·)) m fun e he =>
    hs.bound e (List.mem_mergeSort.1 he)
  rw [TraversalSession.finalize, helements]
  exact ⟨_, rfl, rfl⟩

theorem le_of_mem_searchLadder {x : ℕ} (h : x ∈ searchLadder v (some m)) : x ≤ maxVersion := by
  rw [searchLadder, searchBinaryLadder_eq] at h
  exact mem_ladder_path (ProbeTree.mem_path_of_mem_cut h)

end

end Tree

/-! ### Honest logs -/

section

variable {P : Primitives} {t : Tree} {epochs : List Epoch} {label : Octets} {e : ℕ}

open Tree

/-- The timestamps of a log. -/
def timestampsOf (epochs : List Epoch) (e : ℕ) : U64 := (epochs[e]?.map Epoch.timestamp).getD 0

theorem WrittenLog.getTimestamp_eq (h : WrittenLog P t epochs) (he : e < epochs.length) :
    LogTree.getTimestamp t.store e = .ok (timestampsOf epochs e) := by
  simp only [LogTree.getTimestamp, h.run.sound.1.timestamp e he, okOr_some, timestampsOf,
    List.getElem?_eq_getElem he, Option.map_some, Option.getD_some]

theorem HonestLog.timestampsOf_mono (h : HonestLog P t epochs) {e' : ℕ} (hle : e ≤ e')
    (hlt : e' < epochs.length) : timestampsOf epochs e ≤ timestampsOf epochs e' := by
  simp only [timestampsOf, List.getElem?_eq_getElem hlt,
    List.getElem?_eq_getElem (show e < epochs.length by omega), Option.map_some, Option.getD_some]
  rcases hle.lt_or_eq with hlt' | rfl
  · exact List.pairwise_iff_getElem.1 h.ordered e e' (by omega) hlt hlt'
  · exact le_rfl

/-- **The searches of an honest log** can read what they visit. -/
theorem WrittenLog.readable (h : WrittenLog P t epochs) (hlabel : label.length < 256)
    (hpos : 0 < epochs.length) (gone : ℕ → Bool) :
    (t.without gone).Readable P label epochs.length (timestampsOf epochs) where
  timestamp _ he := h.getTimestamp_eq he
  ladder e he := by
    refine ⟨(updatesOf (epochs.take (e + 1))).length - 1, ?_, fun v _ => ?_⟩
    · have hptr := h.run.sound.1.ptr e he
      simp only [LogTree.getPrefixPtr, Tree.without, hptr, okOr_some]
    · obtain ⟨hprove, hkey, -⟩ := vrfProve_eq h.vrf hlabel v
      obtain ⟨r, nodes, hr, -⟩ := h.lookup gone he hkey
      refine ⟨r, ?_⟩
      have hprove' : (t.without gone).config.vrfProve P label v = .ok (vrfOf P t.config label v) := hprove
      rw [ladderLookup, hprove', Result.ok_bind]
      dsimp only
      rw [hr]
      rfl
  vrf v _ := ⟨_, (vrfProve_eq h.vrf hlabel v).1⟩
  inclusion visited m hvisited := by
    obtain ⟨hs, -⟩ := h.run.sound
    have hlog : Holds (t.without gone).store (leavesOf P epochs) :=
      ⟨hs.log.digest, hs.log.chunk, hs.log.high⟩
    have hlen : (leavesOf P epochs).length = epochs.length := by simp [leavesOf]
    have hbatch : ∀ m ≤ epochs.length, ∃ elements,
        inclusionProof P (t.without gone) visited epochs.length m = .ok elements := fun m hm => by
      rw [inclusionProof, ← hlen]
      exact ⟨_, LogTree.getBatchProofForNodes_eq hlog (hlen ▸ h.run.size_le)
        (List.length_pos_iff.1 (hlen ▸ hpos)) (fun e he => hlen ▸ hvisited e he) (hlen ▸ hm)⟩
    rcases Nat.lt_or_ge epochs.length m with hlt | hle
    · -- a size beyond the log's counts as none
      have hnone : inclusionProof P (t.without gone) visited epochs.length m =
          inclusionProof P (t.without gone) visited epochs.length 0 := by
        rw [inclusionProof, inclusionProof, LogTree.getBatchProofForNodes,
          LogTree.getBatchProofForNodes, if_neg (by omega), if_neg (by omega)]
      rw [hnone]
      exact hbatch 0 (Nat.zero_le _)
    · exact hbatch m hle

end

end KeyTransparency
