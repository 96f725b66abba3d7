/-
# Rounds of an updater

An updater talks to a server that nobody else updates: each request is alone in its batch
(`Tree.serveUpdate`).  A request that is behind is told the next versions and leaves the
server as it is (`WrittenLog.serveUpdate_stale`); one that is not adds its version in a
new log entry (`WrittenLog.serveUpdate_current`).
-/

import KeyTransparency.Tree.CatchUp

namespace KeyTransparency

open Batcher BinaryLadder Values

/-! ### The model -/

namespace Tree

variable (P : Primitives)

/-- What is sent for a reply. -/
def answer (t : Tree) : Reply → Result UpdateResponse
  | .refused e => .error e
  | .catchUp req => t.catchUpUpdate P req
  | .posted pres post => t.postUpdate P pres post

/-- The answer to a request that is alone in its batch, and the server afterwards. -/
def serveUpdate (t : Tree) (now : Option U64) (opening : Octets) (req : UpdateRequest) :
    Result UpdateResponse × Tree :=
  let (replies, t') := processBatch P t none now (fun _ => opening) [⟨0, req⟩]
  (replies.head?.elim (fail "the call was not answered") fun reply => t'.answer P reply.2, t')

end Tree

section

variable {P : Primitives} {t : Tree} {epochs : List Epoch} {req : UpdateRequest} {start : ℕ}

/-- The greatest version of a label that has as many. -/
theorem Tree.greatest_values (t : Tree) (label : Octets) :
    greatest (t.values label) = lastVersion (t.store.history label).length := by
  have hlen : (t.values label).length = (t.store.history label).length := by
    rw [Tree.values, List.length_map]
  rw [← hlen]
  cases t.values label with
  | nil => rfl
  | cons value values => rfl

/-- **A request that is behind** is told what it lacks. -/
theorem WrittenLog.serveUpdate_stale (h : WrittenLog P t epochs) (now : U64) (opening : Octets)
    (hstart : req.greatestVersion.elim 0 (· + 1) = start)
    (hstale : start < (t.store.history req.label).length) :
    t.serveUpdate P (some now) opening req = (t.catchUpUpdate P req, t) := by
  obtain ⟨hs, -⟩ := h.run.sound
  have hlabel : req.label.length < 256 := by
    obtain ⟨x, hx⟩ := List.exists_mem_of_length_pos (Nat.zero_lt_of_lt hstale)
    exact h.label_lt (show (x.1, x.2) ∈ t.store.history req.label from hx)
  obtain ⟨last, hlast⟩ := Nat.exists_eq_add_one_of_ne_zero (Nat.ne_zero_of_lt hstale)
  have hgreatest : greatest (t.values req.label) = some last := by
    rw [t.greatest_values, hlast, lastVersion]
  have hdecide : decideJob (greatest (t.values req.label)) req = .catchUp := by
    rw [hgreatest, decideJob]
    cases hg : req.greatestVersion with
    | none => simp [behind]
    | some g =>
      rw [hg, Option.elim_some] at hstart
      rw [if_pos (by simp; omega), if_pos (by simp [behind]; omega)]
  have hsorted : sortedOf t.values [⟨0, req⟩] = ⟨[], [⟨0, req⟩], []⟩ := by
    rw [sortedOf, hdecide]
    rfl
  rw [Tree.serveUpdate, processBatch_of_nil hs h.run.consecutive now _
    (fun job hjob => by rw [List.mem_singleton.1 hjob]; exact Nat.lt_succ_iff.1 hlabel)
    (by rw [hsorted]), hsorted]
  rfl

/-- **A request that is not behind** adds its value as the label's next version. -/
theorem WrittenLog.serveUpdate_current (h : WrittenLog P t epochs) (now : U64)
    {opening value : Octets} (hopening : opening.length = 16)
    (hlabel : req.label.length < 256) (hvalue : value.length < 2 ^ 32) (hvalues : req.values = [⟨value⟩])
    (hgreatest : req.greatestVersion = lastVersion (t.store.history req.label).length)
    (hversion : (t.store.history req.label).length ≤ maxVersion) (hsize : epochs.length + 1 ≤ 2 ^ 62) :
    ∃ u t' fth th proof, WrittenLog P t' (epochs ++ [⟨now, [u]⟩]) ∧ t'.config = t.config ∧
      u.label = req.label ∧ u.value = value ∧ u.version = (t.store.history req.label).length ∧
      fth.treeHead = some th ∧ th.treeSize = epochs.length + 1 ∧ proof.prefixProofs ≠ [] ∧
      t.serveUpdate P (some now) opening req = (.ok ⟨some fth, epochs.length, [], [⟨u.opening, none⟩],
        [⟨u.vrfProof, none⟩], some proof⟩, t') := by
  obtain ⟨hs, hsign⟩ := h.run.sound
  obtain ⟨u, hpre, hkey, hulabel, huvalue, hulast, huversion, huopening⟩ := exists_precompute h.vrf hlabel
    hvalue hopening (req.last.getD 0) (t.store.history req.label).length
  have hlen : (t.values req.label).length = (t.store.history req.label).length := by
    rw [Tree.values, List.length_map]
  have hacc : t.values.Accepts req := by
    refine ⟨by simp [hvalues], ?_⟩
    rw [t.greatest_values, hgreatest]
  have hsorted : sortedOf t.values [⟨0, req⟩] =
      ⟨[], [], [(⟨0, req⟩, [(t.store.history req.label).length])]⟩ := by
    rw [sortedOf, decideJob_of_accepts hacc (Nat.lt_succ_iff.1 hlabel), Values.versions, hlen, hvalues]
    rfl
  have hnext : t.values.Next ([u].map PreUpdateData.versioned) :=
    ⟨by rw [huversion, hulabel, hlen], trivial⟩
  obtain ⟨th, t', found, hbatch, run, hconfig, -, -, hfound, hsigned⟩ := h.run.afterBatch_eq 
    (assigned_of_next (hs.tracks h.run.consecutive) hnext) (List.cons_ne_nil u []) (by simpa using hkey)
    hsize
  have h' : WrittenLog P t' (epochs ++ [⟨now, [u]⟩]) := by
    refine h.append run hconfig (fun u' hu' => ?_) fun u' hu' => ?_
    · rw [List.mem_singleton.1 hu']
      exact ⟨opening, by rw [hulabel, huvalue, hulast, huversion]; exact hpre⟩
    · rw [List.mem_singleton.1 hu', huversion]
      exact hversion
  obtain ⟨found, rfl⟩ := List.length_eq_one_iff.1 (hfound.trans List.length_singleton)
  have hcrypto : precomputeAll P t.config (fun _ => opening)
      [(⟨0, req⟩, [(t.store.history req.label).length])] = .ok [u] := by
    simp only [precomputeAll, cryptoJobs, hvalues, List.flatMap_cons, List.flatMap_nil, List.append_nil,
      List.zip_cons_cons, List.zip_nil_left, List.map_cons, List.map_nil, List.zipIdx_cons,
      List.zipIdx_nil, List.mapM_cons, List.mapM_nil, hpre, Result.ok_bind]
    rfl
  have hsize' : th.treeSize = epochs.length + 1 := by
    obtain ⟨tbs, -, hsigned⟩ := Result.bind_eq_ok.1 hsigned
    rw [← Except.ok.inj hsigned]
  have hreadable : t'.Readable P req.label (epochs.length + 1) (timestampsOf (epochs ++ [⟨now, [u]⟩])) := by
    have hreadable := h'.readable hlabel (by simp) fun _ => false
    rwa [List.length_append, List.length_singleton] at hreadable
  obtain ⟨proof, hproof, hproofs⟩ := hreadable.traverseUpdateVerification_ok hsize
    (Nat.lt_succ_self epochs.length) hversion u.last
  have hhead : (Tree.getFullTreeHead { t with latest := some th } none).treeHead = some th := by
    have hsize : Tree.treeSize { t with latest := some th } = epochs.length + 1 := hsize'
    rw [Tree.getFullTreeHead, hsize, if_neg (by simp)]
  have hsort := runs_sortJobs (hs.tracks h.run.consecutive) fun job (hjob : job ∈ [⟨0, req⟩]) => by
    rw [List.mem_singleton.1 hjob]
    exact Nat.lt_succ_iff.1 hlabel
  rw [Db.Runs, hsorted] at hsort
  have hpost : t'.answer P (.posted [u] ⟨Tree.getFullTreeHead { t with latest := some th } none, found⟩) =
      .ok ⟨some (Tree.getFullTreeHead { t with latest := some th } none), epochs.length, [],
        [⟨u.opening, none⟩], [⟨u.vrfProof, none⟩], some proof⟩ := by
    rw [Tree.answer, Tree.postUpdate]
    rw [List.getLast?_singleton, okOr_some, Result.ok_bind]
    dsimp only
    rw [hhead, Option.elim_some, Result.ok_bind, hsize', Nat.add_sub_cancel, hulabel, huversion, hproof]
    rfl
  refine ⟨u, t', _, th, proof, h', hconfig, hulabel, huvalue, huversion, hhead, hsize', hproofs, ?_⟩
  unfold Tree.serveUpdate processBatch commitSorted
  rw [hsort]
  dsimp only
  rw [if_neg (List.cons_ne_nil _ _), hcrypto]
  dsimp only
  rw [hbatch]
  dsimp only
  rw [← hpost]
  rfl

end

end KeyTransparency
