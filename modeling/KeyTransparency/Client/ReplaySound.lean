/-
# What an accepted replay comes to

Contact monitoring that a client accepts, whoever has answered it, comes to the outcome
that the log behind the new head decides (`Accepted.contactMonitor_replayed`): the
timestamps that the client has read are those of the log, so that it classifies the entries
above its obligations as the log does, and what becomes of the obligations depends on
nothing else of the answer.
-/

import KeyTransparency.Client.RetainedTruth

namespace KeyTransparency

open BinaryLadder InOrder LogMath Climb

section

variable {P : Primitives} {env : Env} {c c' : KtClient} {label : Octets} {L : LabelLog}
  {rmw pos ver n : ℕ} {material : ℕ → Option (Octets × Option Octets)} {targets : ℕ → Option ℕ}

/-! ### The walk to an obligation -/

/-- **The client that walks to an entry comes to the end** that the timestamps of the log
decide. -/
theorem Approach.classified {ts : ℕ → U64} {bounds : U64 × U64} {dist : ℕ → Bool} {curr : ℕ}
    {stamps : List ℕ} {z : ApproachEnd} (hn : n < 2 ^ 64) (h : Approach ts n rmw pos bounds dist curr stamps z)
    (hlt : ∀ e ∈ stamps, e < n) : ∀ {fuel : ℕ} {reader : ProofReader} {a : AncestorWalk},
    KtClient.ancestorLoop n rmw pos fuel ⟨reader, bounds, true, dist, curr⟩ = .ok a →
    a.reader.ReadsLog ts →
    a = ⟨a.reader, z.bounds, z.parentDist, z.ancestorDist, z.curr⟩ := by
  induction h with
  | here =>
    intro fuel reader a hwalk _
    cases fuel with
    | zero => cases hwalk
    | succ fuel =>
      rw [KtClient.ancestorLoop] at hwalk
      dsimp only at hwalk
      rw [if_pos rfl] at hwalk
      obtain rfl := Except.ok.inj hwalk
      rfl
  | @out bounds dist curr hne hdist =>
    intro fuel reader a hwalk _
    cases fuel with
    | zero => cases hwalk
    | succ fuel =>
      rw [KtClient.ancestorLoop] at hwalk
      dsimp only at hwalk
      rw [if_neg hne] at hwalk
      obtain ⟨⟨ts', reader'⟩, -, hwalk⟩ := Result.bind_eq_ok.1 hwalk
      dsimp only at hwalk
      rw [Bool.true_and, decide_eq_false (show ¬rmw ≤ bounds.2.val - bounds.1.val by omega), if_pos rfl] at hwalk
      obtain rfl := Except.ok.inj hwalk
      rfl
  | @left bounds dist curr stamps z hlt' hdist rest ih =>
    intro fuel reader a hwalk hread
    cases fuel with
    | zero => cases hwalk
    | succ fuel =>
      have hcurr := hlt curr List.mem_cons_self
      rw [KtClient.ancestorLoop] at hwalk
      dsimp only at hwalk
      rw [if_neg (show ¬curr = pos by omega)] at hwalk
      obtain ⟨⟨ts', reader'⟩, hts, hwalk⟩ := Result.bind_eq_ok.1 hwalk
      dsimp only at hwalk
      rw [Bool.true_and, decide_eq_true hdist, if_neg (by simp), if_pos hlt'] at hwalk
      have hkeeps := (KtClient.ancestorLoop_extends hn ((leftChild_le (by omega)).trans_lt hcurr) hwalk).keeps
        (ProofReader.mem_of_timestamp hts)
      obtain rfl : ts' = ts curr := hread _ hkeeps
      exact ih (fun e he => hlt e (List.mem_cons_of_mem _ he)) hwalk hread
  | @right bounds dist curr rc stamps z hlt' hdist hchild rest ih =>
    intro fuel reader a hwalk hread
    cases fuel with
    | zero => cases hwalk
    | succ fuel =>
      rw [KtClient.ancestorLoop] at hwalk
      dsimp only at hwalk
      rw [if_neg (show ¬curr = pos by omega)] at hwalk
      obtain ⟨⟨ts', reader'⟩, hts, hwalk⟩ := Result.bind_eq_ok.1 hwalk
      dsimp only at hwalk
      rw [Bool.true_and, decide_eq_true hdist, if_neg (by simp), if_neg (by omega), hchild] at hwalk
      have hkeeps := (KtClient.ancestorLoop_extends hn (ibstRightChild_lt hchild) hwalk).keeps
        (ProofReader.mem_of_timestamp hts)
      obtain rfl : ts' = ts curr := hread _ hkeeps
      exact ih (fun e he => hlt e (List.mem_cons_of_mem _ he)) hwalk hread

/-! ### The climb -/

/-- **A climb that the client accepts** goes up to the first entry that is covered, whose
version is greater. -/
theorem KtClient.climbLadders_outcome {list : List ℕ} : ∀ {moved moved' : Option ℕ} {w w' : ContactWalk},
    list.Nodup → climbLadders P material pos ver list moved w = .ok (moved', w') →
    w'.ladderTargets = cover ver (uncovered w.ladderTargets list) w.ladderTargets ∧
      match coveredBy w.ladderTargets list with
      | some target => ver < target ∧ moved' = none ∧ w'.newMap = w.newMap.erase pos
      | none => moved' = list.getLast?.or moved ∧ w'.newMap = w.newMap := by
  induction list with
  | nil =>
    intro moved moved' w w' _ h
    obtain ⟨rfl, rfl⟩ := Prod.mk.inj (Except.ok.inj h)
    rw [uncovered, List.takeWhile_nil, cover_nil]
    exact ⟨rfl, rfl, rfl⟩
  | cons entry list ih =>
    intro moved moved' w w' hnodup h
    obtain ⟨hnot, hnodup⟩ := List.nodup_cons.1 hnodup
    rw [climbLadders.eq_def] at h
    cases htarget : w.ladderTargets entry with
    | some t =>
      simp only [htarget, Result.bind_eq_ok, ensure_eq_ok] at h
      obtain ⟨-, hlt, h⟩ := h
      obtain ⟨rfl, rfl⟩ := Prod.mk.inj (Except.ok.inj h)
      rw [coveredBy_cons_of_some htarget, uncovered_cons_of_some htarget, cover_nil]
      exact ⟨rfl, hlt, rfl, rfl⟩
    | none =>
      simp only [htarget, Result.bind_eq_ok] at h
      obtain ⟨⟨ts, reader⟩, -, ⟨pp, reader'⟩, -, root, -, entryRoots, -, h⟩ := h
      obtain ⟨htargets, houtcome⟩ := ih hnodup h
      have hsame : ∀ x ∈ list, Function.update w.ladderTargets entry (some ver) x = w.ladderTargets x :=
        fun x hx => Function.update_of_ne (ne_of_mem_of_not_mem hx hnot) ..
      dsimp only at htargets houtcome
      rw [uncovered_congr hsame, cover_cons] at htargets
      rw [coveredBy_cons_of_none htarget, ← coveredBy_congr hsame, uncovered_cons_of_none htarget]
      refine ⟨htargets, ?_⟩
      cases hcase : coveredBy (Function.update w.ladderTargets entry (some ver)) list with
      | some target =>
        rw [hcase] at houtcome
        exact houtcome
      | none =>
        rw [hcase] at houtcome
        refine ⟨?_, houtcome.2⟩
        rw [houtcome.1]
        cases list with
        | nil => rfl
        | cons x list =>
          rw [List.getLast?_cons_cons, List.getLast?_cons]
          rfl

/-! ### The replay -/

/-- **What becomes of an obligation** that the client replays. -/
theorem KtClient.replayObligation_outcome (hn : L.size ≤ 2 ^ 62) (hpos : pos < L.size) {w w' : ContactWalk}
    (h : replayObligation P material L.size rmw (L.timestamp (L.size - 1)) pos ver w = .ok w')
    (hread : w'.reader.ReadsLog L.timestamp) (entries : List (ℕ × ℕ)) :
    L.replayed rmw ((pos, ver) :: entries) w.ladderTargets w.newMap =
      L.replayed rmw entries w'.ladderTargets w'.newMap := by
  obtain ⟨stamps, z, way⟩ : ∃ stamps z, L.Way rmw pos stamps z := LabelLog.exists_way hn hpos
  simp only [replayObligation, Result.bind_eq_ok] at h
  obtain ⟨a, hwalk, h⟩ := h
  -- what is read on the way to the entry is read in the end
  have hreadWalk : a.reader.Extends L.size w'.reader → a.reader.ReadsLog L.timestamp := fun hext e he =>
    hread e (hext.keeps he)
  have hclassified : a.reader.Extends L.size w'.reader →
      a = ⟨a.reader, z.bounds, z.parentDist, z.ancestorDist, z.curr⟩ := fun hext =>
    way.walk.classified (by omega) way.lt hwalk (hreadWalk hext)
  rw [LabelLog.replayed]
  split_ifs at h with htest
  · obtain rfl := Except.ok.inj h
    have ha := hclassified (.refl _ _)
    rw [ha] at htest
    rw [if_pos (way.reaches.1 htest)]
  · obtain ⟨⟨moved, w₁⟩, hclimb, h⟩ := Result.bind_eq_ok.1 h
    have hext := climbLadders_extends (fun e he => contactList_lt (show L.size < 2 ^ 64 by omega) he) hclimb
    have hreader : w₁.reader = w'.reader ∧ w₁.ladderTargets = w'.ladderTargets := by
      cases moved with
      | none =>
        obtain rfl := Except.ok.inj h
        exact ⟨rfl, rfl⟩
      | some newpos =>
        dsimp only at h
        split_ifs at h <;>
          · obtain rfl := Except.ok.inj h
            exact ⟨rfl, rfl⟩
    have ha := hclassified (hreader.1 ▸ hext)
    rw [ha] at htest
    rw [if_neg fun hmem => htest (way.reaches.2 hmem)]
    dsimp only
    have hlist : contactList pos L.size a.ancestorDist = L.climbList rmw pos := by
      rw [ha]
      exact way.list
    rw [hlist] at hclimb
    obtain ⟨htargets, houtcome⟩ := climbLadders_outcome
      ((LabelLog.pairwise_climbList hn pos).imp ne_of_lt) hclimb
    dsimp only at htargets houtcome
    rw [← htargets, hreader.2]
    cases hcovered : coveredBy w.ladderTargets (L.climbList rmw pos) with
    | some target =>
      rw [hcovered] at houtcome
      obtain ⟨hlt, rfl, hmap⟩ := houtcome
      obtain rfl := Except.ok.inj h
      dsimp only
      rw [if_pos hlt, hmap]
    | none =>
      rw [hcovered, Option.or_none] at houtcome
      obtain ⟨rfl, hmap⟩ := houtcome
      dsimp only
      rw [LabelLog.moved]
      cases hlast : (L.climbList rmw pos).getLast? with
      | none =>
        rw [hlast] at h
        obtain rfl := Except.ok.inj h
        rw [hmap]
      | some newpos =>
        have hdist : a.ancestorDist newpos = decide (newpos ∈ L.distinguished rmw) := by
          rw [ha]
          exact way.dist newpos (LabelLog.mem_climbList (List.mem_of_getLast? hlast)).1
        rw [hlast] at h
        dsimp only at h ⊢
        rw [hdist] at h
        by_cases hmem : newpos ∈ L.distinguished rmw
        · rw [if_pos (decide_eq_true hmem)] at h
          obtain rfl := Except.ok.inj h
          rw [if_pos hmem, hmap]
        · rw [if_neg (by simpa using hmem)] at h
          obtain rfl := Except.ok.inj h
          rw [if_neg hmem, hmap]

/-- **The obligations that are left** are those of the log's outcome. -/
theorem KtClient.replayObligations_outcome (h₀ : 0 < L.size) (hn : L.size ≤ 2 ^ 62)
    {entries : List (ℕ × ℕ)} : ∀ {w w' : ContactWalk}, (∀ e ∈ entries, e.1 < L.size) →
    replayObligations P material L.size rmw (L.timestamp (L.size - 1)) entries w = .ok w' →
    w'.reader.ReadsLog L.timestamp →
    L.replayed rmw entries w.ladderTargets w.newMap = some w'.newMap := by
  induction entries with
  | nil =>
    intro w w' _ h _
    obtain rfl := Except.ok.inj h
    rfl
  | cons entry entries ih =>
    intro w w' hlt h hread
    obtain ⟨w₁, h₁, h₂⟩ := Result.bind_eq_ok.1 h
    have hext := replayObligations_extends h₀ (show L.size < 2 ^ 64 by omega) h₂
    rw [replayObligation_outcome hn (hlt entry List.mem_cons_self) h₁ fun e he => hread e (hext.keeps he)]
    exact ih (fun e he => hlt e (List.mem_cons_of_mem _ he)) h₂ hread

end

/-! ### Accepted contact monitoring -/

section

variable {P : Primitives} {env : Env} {c c' : KtClient} {label : Octets} {L : LabelLog} {rmw : ℕ}

/-- The first entries of a log. -/
def LabelLog.upTo (L : LabelLog) (n : ℕ) (hn : n ≤ L.size) : LabelLog where
  size := n
  timestamp := L.timestamp
  contents := L.contents
  greatest := L.greatest
  key := L.key
  vrfProof := L.vrfProof
  commitment := L.commitment
  ordered := fun hle hlt => L.ordered hle (hlt.trans_le hn)
  growing := fun hle hlt => L.growing hle (hlt.trans_le hn)
  lookup := fun he => L.lookup (he.trans_le hn)
  small := fun he => L.small (he.trans_le hn)

/-- **A head that is taken over is no smaller** than the one before. -/
theorem Accepted.head_grows {r : Response} {data : List LeafData} (h : Accepted P env c r data c')
    {prev : TrustedState} (hprev : c.state = some prev) :
    ∃ head, c'.state = some head ∧ prev.treeSize ≤ head.treeSize := by
  rcases h.takenOver with ⟨fth, n, timestamp, updated, -, htaken⟩ | ⟨-, -, rfl⟩
  · obtain ⟨elements, extraWanted, captured, committed, hcommit, same⟩ := htaken.commit
    obtain ⟨head, hstate, hsize, -⟩ := KtClient.verifyHeadAndCommit_derived htaken.head hcommit
    refine ⟨head, same.state ▸ hstate, hsize ▸ ?_⟩
    have hhead := htaken.head
    unfold KtClient.treeSizeForFth at hhead
    rw [hprev] at hhead
    cases htype : fth.headType with
    | same =>
      rw [htype] at hhead
      simp only [okOr_some, Result.ok_bind, Result.bind_eq_ok] at hhead
      obtain ⟨-, -, hhead⟩ := hhead
      exact (congrArg Prod.fst (Except.ok.inj hhead)).le
    | updated =>
      rw [htype] at hhead
      simp only [Result.bind_eq_ok, ensure_eq_ok] at hhead
      obtain ⟨th, -, -, hlt, hhead⟩ := hhead
      obtain rfl := congrArg Prod.fst (Except.ok.inj hhead)
      exact hlt.le
    | reserved => rw [htype] at hhead; cases hhead
    | unknown v => rw [htype] at hhead; cases hhead
  · exact ⟨prev, hprev, le_rfl⟩

/-- **Contact monitoring comes to the outcome of the log**, whatever the response. -/
theorem Accepted.contactMonitor_replayed (hP : Function.Injective P.sha256) (hn : L.size ≤ 2 ^ 62)
    {resp : ContactMonitorResponse} {data : List LeafData}
    (h : Accepted P env c (.contactMonitor label resp) data c') (hin : c'.HeadIn P (L.leaves P))
    {head : TrustedState} (hstate : c'.state = some head)
    (hbelow : ∀ e ∈ (c.monitoringMap label).entries, e.1 < head.treeSize) :
    ∃ hle : head.treeSize ≤ L.size,
      (L.upTo head.treeSize hle).replayed c.config.reasonableMonitoringWindow
        (c.monitoringMap label).entries.reverse (fun _ => none) (c.monitoringMap label) =
          some (c'.monitoringMap label) := by
  obtain ⟨hle, hlog⟩ := hin.logOf hn hstate
  refine ⟨hle, ?_⟩
  have haccepted := h
  cases h with
  | contactMonitor h =>
    simp only [KtClient.verifyContactMonitor, Result.bind_eq_ok, okOr_eq_ok, ensure_eq_ok] at h
    obtain ⟨fth, hfth, proof, -, ⟨n, ts, upd⟩, hhead, -, hpos, -, -, reader, hreader, ⟨_, reader'⟩, hright, w,
      hreplay, ⟨data', captured, committed⟩, hfinish, h⟩ := h
    obtain ⟨rfl, rfl⟩ := Prod.mk.inj (Except.ok.inj h)
    obtain ⟨hfin, inclusion, -, hcommit⟩ := KtClient.finishAndCommit_eq_ok.1 hfinish
    obtain ⟨head', hstate', hsize, -⟩ := KtClient.verifyHeadAndCommit_derived hhead hcommit
    obtain rfl : head' = head := Option.some.inj (hstate'.symm.trans hstate)
    subst hsize
    dsimp only at hpos hreplay hfinish hreader hright hstate
    have h₀ : 0 < head'.treeSize := Nat.pos_of_ne_zero hpos
    have hsmall : head'.treeSize ≤ 2 ^ 62 := hle.trans hn
    have hext := (ProofReader.timestamp_extends hright (show head'.treeSize - 1 < head'.treeSize by omega)).trans
      (KtClient.replayContactLadders_extends h₀ (by omega) hreplay)
    have hreads := ReadsLog.of_finish hsmall hreader hext hfin
    have hentries : ∀ e ∈ w.reader.assignedTs.entries, e.1 < head'.treeSize := fun e he => by
      rw [← ProofReader.finish_entries hfin] at he
      obtain ⟨d, hd, rfl⟩ := List.mem_map.1 he
      exact hreads.below d hd
    have htrue := haccepted.mapsRead hP hfth hstate hlog hentries hfin
    have hreadsLog : w.reader.ReadsLog L.timestamp := fun e he => htrue.timestamp he
    -- the replay begins from the rightmost timestamp
    simp only [KtClient.replayContactLadders, Result.bind_eq_ok] at hreplay
    obtain ⟨⟨rightmostTs, reader''⟩, hts, hreplay⟩ := hreplay
    have hext' := KtClient.replayObligations_extends h₀ (show head'.treeSize < 2 ^ 64 by omega) hreplay
    obtain rfl : rightmostTs = L.timestamp (head'.treeSize - 1) :=
      hreadsLog _ (hext'.keeps (ProofReader.mem_of_timestamp hts))
    have houtcome := @KtClient.replayObligations_outcome P (L.upTo head'.treeSize hle) _ _ h₀ hsmall _ _ _
      (fun e he => hbelow e (List.mem_reverse.1 he)) hreplay hreadsLog
    dsimp only
    rw [Function.update_self]
    exact houtcome

end

end KeyTransparency
