/-
# Proofs of ladders

What a prefix proof shows of a list of keys (`PrefixProof.Proves`): result by result,
the root that the client computes is the one of the map, and a result is an inclusion
where the map holds the key.  An honest server proves the ladders of its label's log
(`Tree.Serves.generateLadderProof`).
-/

import KeyTransparency.Client.PrefixRefinement
import KeyTransparency.Tree.HonestLog
import KeyTransparency.Tree.Walker

namespace KeyTransparency

open BinaryLadder

/-- **A result proves what a map says of a key**, wherever it stands in a proof. -/
structure ProofResult.Proves (P : Primitives) (contents : Octets → Option Octets) (key : Octets)
    (r : ProofResult) : Prop where
  content : r.Says contents key
  depth : r.depth = r.inclusionProof.length
  root : ∀ {proof idx offset}, PrefixProof.Shows proof idx offset r →
    PrefixVerifier.computeRootFromResult P proof idx key r.commitment offset =
      .ok (prefixRoot P contents, r.depth)

/-- From a result and an element on, a proof shows what a map says of the keys. -/
def PrefixProof.ProvesFrom (P : Primitives) (contents : Octets → Option Octets) (pp : PrefixProof) :
    ℕ → ℕ → List Octets → Prop
  | idx, offset, [] => idx = pp.results.length ∧ offset = pp.elements.length
  | idx, offset, key :: keys => ∃ result, pp.results[idx]? = some result ∧
      (result.resultType = 1 ↔ (contents key).isSome) ∧
      PrefixVerifier.computeRootFromResult P pp idx key (contents key) offset =
        .ok (prefixRoot P contents, result.depth) ∧
      ProvesFrom P contents pp (idx + 1) (offset + result.depth) keys

/-- A proof shows what a map says of the keys, and nothing else. -/
def PrefixProof.Proves (P : Primitives) (contents : Octets → Option Octets) (pp : PrefixProof)
    (keys : List Octets) : Prop :=
  pp.ProvesFrom P contents 0 0 keys

/-- **A server holds a log**: its size, its timestamps and prefix roots, and its leaves. -/
structure Tree.ServesLog (P : Primitives) (t : Tree) (L : LabelLog) : Prop where
  size : t.treeSize = L.size
  timestamp : ∀ e < L.size, LogTree.getTimestamp t.store e = .ok (L.timestamp e)
  prefixRoot : ∀ e < L.size, LogTree.getPrefixRoot t.store e = .ok (L.root P e)
  log : Holds t.store (L.leaves P)

/-- **A server answers for a label** what the label's log says. -/
structure Tree.Serves (P : Primitives) (t : Tree) (label : Octets) (L : LabelLog) : Prop where
  size : t.treeSize = L.size
  timestamp : ∀ e < L.size, LogTree.getTimestamp t.store e = .ok (L.timestamp e)
  prefixRoot : ∀ e < L.size, LogTree.getPrefixRoot t.store e = .ok (L.root P e)
  greatest : ∀ e < L.size, t.getMaxVersionAt (t.store.history label) e = L.greatest e
  lookup : ∀ e < L.size, ∃ ptr, LogTree.getPrefixPtr t.store e = .ok ptr ∧
    ∀ v ≤ maxVersion, ∃ r, t.ladderLookup P ptr label v = .ok (v, r) ∧
      r.Proves P (L.contents e) (L.key v)
  vrf : ∀ v ≤ maxVersion, t.config.vrfProve P label v = .ok (L.key v, L.vrfProof v)
  log : Holds t.store (L.leaves P)
  opened : ∀ v ≤ maxVersion, ∀ value opening,
    t.extractValueAndOpening (t.store.history label) v = .ok (value, opening) →
      commit P label v value.value none opening = .ok (L.commitment v)

theorem Tree.Serves.servesLog {P : Primitives} {t : Tree} {label : Octets} {L : LabelLog}
    (h : t.Serves P label L) : t.ServesLog P L :=
  ⟨h.size, h.timestamp, h.prefixRoot, h.log⟩

section

variable {P : Primitives} {contents : Octets → Option Octets} {t : Tree} {label : Octets} {L : LabelLog}
  {e : ℕ}

theorem ProofResult.Says.eq {key : Octets} {r : ProofResult} (h : r.Says contents key) :
    r.commitment = contents key ∧ (r.resultType = 1 ↔ (contents key).isSome) := by
  unfold Says at h
  cases hc : contents key with
  | some c =>
    rw [hc] at h
    exact ⟨h.2, by simp [h.1]⟩
  | none =>
    rw [hc] at h
    refine ⟨h.2, ?_⟩
    rcases h.1 with h | h <;> simp [h]

/-- Results put together prove what each of them says. -/
theorem PrefixProof.provesFrom_of_found {keys : List Octets} {found : List ProofResult}
    (h : List.Forall₂ (ProofResult.Proves P contents) keys found) (before : List ProofResult) :
    (PrefixProof.mk ((before ++ found).map ProofResult.searchResult)
      ((before ++ found).flatMap ProofResult.inclusionProof)).ProvesFrom P contents before.length
        (before.flatMap ProofResult.inclusionProof).length keys := by
  induction h generalizing before with
  | nil => simp [ProvesFrom]
  | @cons key r keys found h _ ih =>
    obtain ⟨hcomm, htype⟩ := h.content.eq
    have hshows : PrefixProof.Shows ⟨(before ++ r :: found).map ProofResult.searchResult,
        (before ++ r :: found).flatMap ProofResult.inclusionProof⟩ before.length
          (before.flatMap ProofResult.inclusionProof).length r := by
      refine ⟨by simp, ?_, ?_⟩
      · rw [h.depth]
        simp
      · rw [h.depth]
        simp only [List.flatMap_append, List.flatMap_cons, List.length_append]
        omega
    refine ⟨r.searchResult, hshows.result, htype, hcomm ▸ h.root hshows, ?_⟩
    have hrest := ih (before ++ [r])
    simp only [List.append_assoc, List.singleton_append, List.length_append, List.length_singleton,
      List.flatMap_append, List.flatMap_cons, List.flatMap_nil, List.append_nil, ← h.depth] at hrest
    simp only [List.flatMap_append, List.flatMap_cons]
    exact hrest

/-- **An honest server proves a ladder** at an entry, and finds the commitments of the
versions in it. -/
theorem Tree.Serves.generateLadderProof (h : t.Serves P label L) (he : e < L.size) {versions : List ℕ}
    (hv : ∀ v ∈ versions, v ≤ maxVersion) : ∃ ptr pp, LogTree.getPrefixPtr t.store e = .ok ptr ∧
      t.generateLadderProof P ptr label versions =
        .ok (pp, versions.map fun v => (v, L.contents e (L.key v))) ∧
      pp.Proves P (L.contents e) (versions.map L.key) := by
  obtain ⟨ptr, hptr, hlookup⟩ := h.lookup e he
  have hlookups : ∀ v ∈ versions, ∃ found, t.ladderLookup P ptr label v = .ok found ∧
      (found.1 = v ∧ found.2.Proves P (L.contents e) (L.key v)) := fun v hmem => by
    obtain ⟨r, hr, hproves⟩ := hlookup v (hv v hmem)
    exact ⟨(v, r), hr, rfl, hproves⟩
  obtain ⟨found, hfound, hall⟩ := Result.exists_mapM_eq_ok hlookups
  have hresults : List.Forall₂ (ProofResult.Proves P (L.contents e)) (versions.map L.key)
      (found.map Prod.snd) :=
    List.forall₂_map_left_iff.2 (List.forall₂_map_right_iff.2 (hall.imp fun _ _ h => h.2))
  have hcommitments : found.map (fun f => (f.1, f.2.commitment)) =
      versions.map fun v => (v, L.contents e (L.key v)) := by
    have heq : List.Forall₂ (fun a b => a = b) (versions.map fun v => (v, L.contents e (L.key v)))
        (found.map fun f => (f.1, f.2.commitment)) :=
      List.forall₂_map_left_iff.2 (List.forall₂_map_right_iff.2 (hall.imp fun v f h =>
        Prod.ext h.1.symm h.2.content.eq.1.symm))
    rw [List.forall₂_eq_eq_eq] at heq
    exact heq.symm
  refine ⟨ptr, _, hptr, ?_, PrefixProof.provesFrom_of_found hresults []⟩
  rw [Tree.generateLadderProof, hfound, Result.ok_bind, hcommitments, List.nil_append, List.map_map,
    List.flatMap_map]
  rfl

/-! ### The server of an honest log -/

variable {epochs : List Epoch}

theorem max?_range : ∀ count : ℕ, (List.range count).max? = lastVersion count
  | 0 => rfl
  | _ + 1 => List.max?_eq_some_iff.2 ⟨List.mem_range.2 (Nat.lt_succ_self _), fun _ hv =>
      Nat.lt_succ_iff.1 (List.mem_range.1 hv)⟩

/-- An entry of a history is that of an update. -/
theorem exists_of_mem_historyFrom {v p : ℕ} : ∀ {position : ℕ} {us : List PreUpdateData},
    (v, p) ∈ historyFrom label position us → ∃ i, ∃ hi : i < us.length, p = position + i ∧
      us[i].label = label ∧ us[i].version = v
  | _, [], h => by cases h
  | position, u :: us, h => by
    rw [historyFrom] at h
    have hrest : (v, p) ∈ historyFrom label (position + 1) us → ∃ i, ∃ hi : i < (u :: us).length,
        p = position + i ∧ (u :: us)[i].label = label ∧ (u :: us)[i].version = v := fun h => by
      obtain ⟨i, hi, rfl, hlabel, hversion⟩ := exists_of_mem_historyFrom h
      exact ⟨i + 1, by simpa using hi, by omega, hlabel, hversion⟩
    split_ifs at h with hlabel
    · rcases List.mem_cons.1 h with h | h
      · obtain ⟨rfl, rfl⟩ := Prod.mk.inj h
        exact ⟨0, by simp, rfl, hlabel, rfl⟩
      · exact hrest h
    · exact hrest h

theorem updatesOf_split (epochs : List Epoch) (i : ℕ) :
    updatesOf epochs = updatesOf (epochs.take i) ++ updatesOf (epochs.drop i) := by
  rw [updatesOf, updatesOf, updatesOf, ← List.flatMap_append, List.take_append_drop]

/-- The insertions up to an entry come last. -/
theorem insertionsOf_take_suffix (epochs : List Epoch) (i : ℕ) :
    insertionsOf (epochs.take i) <:+ insertionsOf epochs := by
  rw [insertionsOf, insertionsOf, updatesOf_split epochs i, List.map_append, insertionsFrom_append,
    List.reverse_append]
  exact List.suffix_append _ _

theorem WrittenLog.updates_pos (h : WrittenLog P t epochs) (he : e < epochs.length) :
    0 < (updatesOf (epochs.take (e + 1))).length :=
  (Nat.zero_le _).trans_lt
    (updatesOf_take_lt h.run.sound.1.committed (Nat.lt_succ_self e) (Nat.succ_le_of_lt he))

/-- The history up to an entry's pointer is that of the entry. -/
theorem WrittenLog.history_upTo (h : WrittenLog P t epochs) (he : e < epochs.length) :
    (t.store.history label).filter
        (fun x => x.2 ≤ (updatesOf (epochs.take (e + 1))).length - 1) =
      historyOf (epochs.take (e + 1)) label := by
  have hpos := h.updates_pos he
  rw [h.run.sound.1.history, historyOf, historyOf, updatesOf_split epochs (e + 1), historyFrom_append,
    List.filter_append]
  have hfirst : ∀ x ∈ historyFrom label 0 (updatesOf (epochs.take (e + 1))),
      decide (x.2 ≤ (updatesOf (epochs.take (e + 1))).length - 1) = true := fun x hx => by
    have := (mem_historyFrom hx).2
    exact decide_eq_true (by omega)
  rw [List.filter_eq_self.2 hfirst, List.filter_eq_nil_iff.2, List.append_nil]
  intro x hx
  have := (mem_historyFrom hx).1
  simp only [decide_eq_true_eq]
  omega

theorem WrittenLog.getMaxVersionAt_eq (h : WrittenLog P t epochs) (he : e < epochs.length) :
    t.getMaxVersionAt (t.store.history label) e = lastVersion (versionCount epochs label e) := by
  have hversions := (h.run.consecutive.take (e + 1)).labelVersions label
  rw [Tree.getMaxVersionAt, h.run.sound.1.ptr e he, Option.getD_some, h.history_upTo he, historyOf, historyFrom_versions, List.filter_map, List.map_map, versionCount,
    ← max?_range, ← hversions]
  rfl

/-- Searching at an entry proves what its map says of a key. -/
theorem WrittenLog.lookup (h : WrittenLog P t epochs) (gone : ℕ → Bool) (he : e < epochs.length)
    {key : Octets} (hkey : IsKey key) : ∃ r nodes,
      PrefixTree.searchForProof P Tree.dropAll (t.without gone).store
        ((updatesOf (epochs.take (e + 1))).length - 1) key Nodes.cold = .ok (r, nodes) ∧
      r.Proves P (commitmentsOf (insertionsOf (epochs.take (e + 1)))) key := by
  obtain ⟨hs, -⟩ := h.run.sound
  have hsuf := insertionsOf_take_suffix epochs (e + 1)
  have hroot := rootPtr_insertionsOf (epochs.take (e + 1)) (List.length_pos_iff.1 (h.updates_pos he))
  cases hins : insertionsOf (epochs.take (e + 1)) with
  | nil => simp [hins, rootPtr] at hroot
  | cons x before =>
    rw [hins] at hsuf hroot
    have hk := hs.keysValid.of_suffix hsuf
    obtain ⟨searchEnd, r, nodes, hr, hends, hproof⟩ := searchForProof_ends (P := P)
      (s := (t.without gone).store) Tree.dropAll hk hkey (fun y b hy => hs.recorded y b (hy.trans hsuf))
      fun _ _ => hs.leaf
    obtain ⟨r', hproof', hsays, hfold⟩ := hends.proof_eq hk hkey
    obtain rfl := Except.ok.inj (hproof.symm.trans hproof')
    rw [← Option.some.inj hroot]
    exact ⟨r, nodes, hr, hsays, SearchEnd.proof_depth hproof, hfold⟩

theorem WrittenLog.opened (h : WrittenLog P t epochs) {gone : ℕ → Bool} {v : ℕ} {value : UpdateValue}
    {opening : Octets} (hopen : (t.without gone).extractValueAndOpening
      ((t.without gone).store.history label) v = .ok (value, opening)) :
    commit P label v value.value none opening = .ok (commitmentIn epochs label v) := by
  obtain ⟨hs, -⟩ := h.run.sound
  rw [Tree.extractValueAndOpening] at hopen
  split at hopen
  · rename_i p hp
    obtain ⟨⟨v', p'⟩, hfind, hp'⟩ := Option.map_eq_some_iff.1 hp
    obtain rfl : v' = v := by simpa using List.find?_some hfind
    obtain rfl : p' = p := hp'
    have hmem : (v', p') ∈ t.store.history label := List.mem_of_find?_eq_some hfind
    rw [hs.history] at hmem
    obtain ⟨i, hi, hpos, rfl, rfl⟩ := exists_of_mem_historyFrom hmem
    rw [Nat.zero_add] at hpos
    subst hpos
    obtain ⟨-, hcomm⟩ := h.precomputed_eq (List.getElem_mem hi)
    rw [← (h.update_eq (List.getElem_mem hi)).2]
    simp only [Tree.without] at hopen
    cases hgone : gone p' with
    | true => simp [hgone] at hopen
    | false =>
      rw [hgone] at hopen
      simp only [Bool.false_eq_true, if_false, hs.opening p' hi, hs.value p' hi,
        Option.getD_some] at hopen
      obtain ⟨rfl, rfl⟩ := Prod.mk.inj (Except.ok.inj hopen)
      exact hcomm
  · simp at hopen

/-- **An honest server answers for a label** what its log says, whatever values and
openings were deleted. -/
theorem HonestLog.serves (h : HonestLog P t epochs) (hlabel : label.length < 256)
    (hdist : Distinct P t.config epochs label) (gone : ℕ → Bool) :
    (t.without gone).Serves P label (h.labelLog hlabel hdist) where
  size := h.run.sound.1.size
  timestamp e he := by
    have hts := h.run.sound.1.timestamp e he
    simp only [LogTree.getTimestamp, Tree.without, hts, okOr_some, HonestLog.labelLog,
      List.getElem?_eq_getElem he, Option.map_some, Option.getD_some]
  prefixRoot e he := by
    have hroot := h.run.sound.1.root e he
    simp only [LogTree.getPrefixRoot, Tree.without, hroot, okOr_some]
    rfl
  greatest e he := h.getMaxVersionAt_eq he
  lookup e he := by
    have hptr := h.run.sound.1.ptr e he
    refine ⟨(updatesOf (epochs.take (e + 1))).length - 1, ?_, fun v hv => ?_⟩
    · simp only [LogTree.getPrefixPtr, Tree.without, hptr, okOr_some]
    · obtain ⟨hprove, hkey, -⟩ := vrfProve_eq h.vrf hlabel v
      obtain ⟨r, nodes, hr, hproves⟩ := h.lookup gone he hkey
      refine ⟨r, ?_, hproves⟩
      have hprove' : (t.without gone).config.vrfProve P label v = .ok (vrfOf P t.config label v) :=
        hprove
      rw [Tree.ladderLookup, hprove', Result.ok_bind]
      dsimp only
      rw [hr]
      rfl
  vrf v _ := (vrfProve_eq h.vrf hlabel v).1
  log := by
    obtain ⟨hs, -⟩ := h.run.sound
    rw [h.leaves_eq hlabel hdist]
    exact ⟨hs.log.digest, hs.log.chunk, hs.log.high⟩
  opened v _ value opening := h.opened

end

end KeyTransparency
