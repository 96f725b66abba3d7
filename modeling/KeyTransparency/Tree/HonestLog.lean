/-
# The logs of an honest server

A log that a server has filled (`WrittenLog`): its batches hold updates that the batcher
has prepared.  Where its clock never went back, the log is an `HonestLog`: the versions of
a label are the ones up to its greatest, each with one commitment (`HonestLog.labelLog`).
-/

import KeyTransparency.Serial
import KeyTransparency.Tree.LabelLog
import KeyTransparency.Tree.Run

namespace KeyTransparency

open BinaryLadder Values

/-! ### Versions -/

namespace Batcher

/-- The updates of a batch that are committed carry the next versions. -/
theorem next_assigned {s : Store} :
    ∀ {updates : List PreUpdateData} {overlay : Octets → Option ℕ} {m : Values},
      Tracks s overlay m →
        m.Next (((assigned s updates overlay).filterMap Except.toOption).map PreUpdateData.versioned)
  | [], _, _, _ => trivial
  | u :: updates, overlay, m, h => by
    have hver := nextVersion_eq (h u.label)
    unfold assigned
    dsimp only
    rw [hver]
    split_ifs with hne
    · exact next_assigned h
    · have hrest := h.update u.label (show m u.label ++ [u.value] ≠ [] by simp)
      rw [List.length_append, List.length_singleton, Nat.add_sub_cancel] at hrest
      exact ⟨not_not.1 hne, next_assigned hrest⟩

end Batcher

section

variable {P : Primitives} {t : Tree} {epochs : List Epoch}

/-- **The versions of a run** are consecutive. -/
theorem ServerRun.consecutive (run : ServerRun P t epochs) : Consecutive epochs := by
  induction run with
  | start config hsign => exact trivial
  | @batch t epochs run now updates hkeys hsize ih =>
    rw [committedBy]
    split_ifs
    · rwa [List.append_nil]
    · exact Batcher.consecutive_append now run.sound.1 ih
        (Batcher.next_assigned (run.sound.1.tracks ih))
  | tick run now ih => exact ih
  | restart run ih => exact ih
  | auditor run head auditorKeys hset ih => exact ih

end

/-- The updates of a label. -/
def labelUpdates (label : Octets) (updates : List PreUpdateData) : List PreUpdateData :=
  updates.filter fun u => u.label = label

/-- The number of versions of a label up to an entry. -/
def versionCount (epochs : List Epoch) (label : Octets) (e : ℕ) : ℕ :=
  (labelUpdates label (updatesOf (epochs.take (e + 1)))).length

section

variable {epochs : List Epoch} {label : Octets} {u u' : PreUpdateData} {e e' v : ℕ}

theorem Consecutive.take (h : Consecutive epochs) (e : ℕ) : Consecutive (epochs.take e) := by
  have hsplit : updatesOf epochs = updatesOf (epochs.take e) ++ updatesOf (epochs.drop e) := by
    rw [updatesOf, updatesOf, updatesOf, ← List.flatMap_append, List.take_append_drop]
  rw [Consecutive, hsplit, List.map_append, next_append] at h
  exact h.1

theorem Consecutive.labelVersions (h : Consecutive epochs) (label : Octets) :
    (labelUpdates label (updatesOf epochs)).map PreUpdateData.version =
      List.range (labelUpdates label (updatesOf epochs)).length := by
  have hversions := Next.versions label h
  rw [List.filter_map, List.map_map, List.length_map] at hversions
  rw [List.range_eq_range']
  exact hversions

theorem mem_labelUpdates : u ∈ labelUpdates label (updatesOf epochs) ↔
    u ∈ updatesOf epochs ∧ u.label = label := by
  simp [labelUpdates]

/-- A label's version belongs to one update. -/
theorem Consecutive.eq_of_version (h : Consecutive epochs) (hu : u ∈ updatesOf epochs)
    (hu' : u' ∈ updatesOf epochs) (hlabel : u.label = u'.label) (hversion : u.version = u'.version) :
    u = u' := by
  have hnodup : ((labelUpdates u.label (updatesOf epochs)).map PreUpdateData.version).Nodup := by
    rw [h.labelVersions]
    exact List.nodup_range
  exact List.inj_on_of_nodup_map hnodup (mem_labelUpdates.2 ⟨hu, rfl⟩)
    (mem_labelUpdates.2 ⟨hu', hlabel.symm⟩) hversion

theorem updatesOf_beginning (epochs : List Epoch) {i j : ℕ} (hij : i ≤ j) :
    updatesOf (epochs.take i) <+: updatesOf (epochs.take j) := by
  obtain ⟨rest, hrest⟩ : epochs.take i <+: epochs.take j := List.take_prefix_take_left hij
  exact ⟨updatesOf rest, by rw [← hrest, updatesOf, updatesOf, updatesOf, List.flatMap_append]⟩

theorem mem_updatesOf_of_take {i : ℕ} (hu : u ∈ updatesOf (epochs.take i)) : u ∈ updatesOf epochs := by
  obtain ⟨rest, hrest⟩ := updatesOf_beginning epochs (Nat.le_max_left i epochs.length)
  rw [List.take_of_length_le (Nat.le_max_right _ _)] at hrest
  exact hrest ▸ List.mem_append_left rest hu

/-- The versions up to an entry are the ones below their number. -/
theorem Consecutive.exists_version (h : Consecutive epochs) :
    (∃ u ∈ updatesOf (epochs.take (e + 1)), u.label = label ∧ u.version = v) ↔
      v < versionCount epochs label e := by
  have hversions := (h.take (e + 1)).labelVersions label
  constructor
  · rintro ⟨u, hu, hlabel, rfl⟩
    have hmem := List.mem_map_of_mem (f := PreUpdateData.version) (mem_labelUpdates.2 ⟨hu, hlabel⟩)
    rwa [hversions, List.mem_range] at hmem
  · intro hv
    have hmem := List.mem_range.2 hv
    rw [versionCount, ← hversions] at hmem
    obtain ⟨u, hu, rfl⟩ := List.mem_map.1 hmem
    exact ⟨u, (mem_labelUpdates.1 hu).1, (mem_labelUpdates.1 hu).2, rfl⟩

theorem versionCount_mono (hee : e ≤ e') : versionCount epochs label e ≤ versionCount epochs label e' :=
  ((updatesOf_beginning epochs (Nat.add_le_add_right hee 1)).filter _).length_le

end

/-! ### Keys -/

/-- Every VRF output is proved, and the proof verified. -/
def VrfWorks (P : Primitives) (config : PrivateConfig) : Prop :=
  ∀ input, ∃ out proof, P.ecvrfProve config.vrfKey input = .ok (out, proof) ∧
    P.ecvrfVerify config.cipherSuite config.vrfPublicKey input proof = .ok out

/-- What a server has written into its log. -/
structure WrittenLog (P : Primitives) (t : Tree) (epochs : List Epoch) : Prop where
  run : ServerRun P t epochs
  precomputed : ∀ u ∈ updatesOf epochs, ∃ opening,
    Batcher.precompute P t.config opening ⟨u.label, u.value, u.last, u.version⟩ = .ok u
  small : ∀ u ∈ updatesOf epochs, u.version ≤ maxVersion
  vrf : VrfWorks P t.config

/-- What an honest server has put into its log: its clock never went back. -/
structure HonestLog (P : Primitives) (t : Tree) (epochs : List Epoch) : Prop
    extends WrittenLog P t epochs where
  ordered : epochs.Pairwise fun e e' => e.timestamp ≤ e'.timestamp

/-- No key in the log is the key of a version of the label, except for its own. -/
def Distinct (P : Primitives) (config : PrivateConfig) (epochs : List Epoch) (label : Octets) : Prop :=
  ∀ u ∈ updatesOf epochs, ∀ v ≤ maxVersion, ∀ proof,
    config.vrfProve P label v = .ok (u.index, proof) → u.label = label ∧ u.version = v

section

variable {P : Primitives} {config : PrivateConfig} {t : Tree} {epochs : List Epoch} {label : Octets}
  {u : PreUpdateData} {e v : ℕ}

/-- The key of a version and its proof. -/
def vrfOf (P : Primitives) (config : PrivateConfig) (label : Octets) (v : ℕ) : Octets × Octets :=
  (config.vrfProve P label v).toOption.getD ([], [])

/-- The commitment to a version. -/
def commitmentIn (epochs : List Epoch) (label : Octets) (v : ℕ) : Octets :=
  (((updatesOf epochs).find? fun u => u.label = label ∧ u.version = v).map
    PreUpdateData.commitment).getD []

theorem vrfProve_eq (hvrf : VrfWorks P config) (hlabel : label.length < 256) (v : ℕ) :
    config.vrfProve P label v = .ok (vrfOf P config label v) ∧
      IsKey (vrfOf P config label v).1 ∧ ∃ input, constructVrfInput label v = .ok input ∧
        P.ecvrfVerify config.cipherSuite config.vrfPublicKey input (vrfOf P config label v).2 =
          .ok (vrfOf P config label v).1 := by
  obtain ⟨input, hinput⟩ : ∃ input, constructVrfInput label v = .ok input := by
    simp only [constructVrfInput, ensure_of hlabel, Result.ok_bind, opaqueBytes,
      if_pos (show label.length < 256 ^ 1 by omega), Result.pure_eq]
    exact ⟨_, rfl⟩
  obtain ⟨out, proof, hprove, hverify⟩ := hvrf input
  have heq : config.vrfProve P label v = .ok (out, proof) := by
    rw [PrivateConfig.vrfProve, hinput, Result.ok_bind, hprove]
  have hof : vrfOf P config label v = (out, proof) := by
    rw [vrfOf, heq]
    rfl
  obtain ⟨hlen, hbytes⟩ := P.ecvrfProve_bytes hprove
  rw [hof]
  exact ⟨heq, ⟨hlen, hbytes⟩, input, hinput, hverify⟩

theorem exists_mem_insertionsFrom {entry : Octets × Octets} :
    ∀ {entries : List (Octets × Octets)} (version : ℕ), entry ∈ entries →
      ∃ x ∈ insertionsFrom version entries, x.key = entry.1 ∧ x.commitment = entry.2
  | _ :: _, version, h => by
    rcases List.mem_cons.1 h with rfl | h
    · exact ⟨_, List.mem_cons_self, rfl, rfl⟩
    · obtain ⟨x, hx, hkey⟩ := exists_mem_insertionsFrom (version + 1) h
      exact ⟨x, List.mem_cons_of_mem _ hx, hkey⟩

/-- A key that no update has is not held. -/
theorem commitmentsOf_insertionsOf_none {key : Octets}
    (h : ∀ u ∈ updatesOf epochs, u.index ≠ key) : commitmentsOf (insertionsOf epochs) key = none := by
  rw [commitmentsOf, Option.map_eq_none_iff, List.find?_eq_none]
  intro x hx
  obtain ⟨-, u, hu, he⟩ := mem_insertionsOf hx
  simpa [← (Prod.mk.inj he).1] using h u hu

/-- A key that one update has is held with its commitment. -/
theorem commitmentsOf_insertionsOf_some (hu : u ∈ updatesOf epochs)
    (h : ∀ u' ∈ updatesOf epochs, u'.index = u.index → u' = u) :
    commitmentsOf (insertionsOf epochs) u.index = some u.commitment := by
  have hsome : ((insertionsOf epochs).find? fun x => x.key = u.index).isSome := by
    obtain ⟨x, hx, hkey, -⟩ := exists_mem_insertionsFrom 0 (List.mem_map_of_mem (f := PreUpdateData.entry) hu)
    exact List.find?_isSome.2 ⟨x, List.mem_reverse.2 hx, decide_eq_true hkey⟩
  obtain ⟨x, hx⟩ := Option.isSome_iff_exists.1 hsome
  obtain ⟨-, u', hu', he⟩ := mem_insertionsOf (List.mem_of_find?_eq_some hx)
  obtain ⟨hkey, hcomm⟩ := Prod.mk.inj he
  have hindex : x.key = u.index := by simpa using List.find?_some hx
  rw [commitmentsOf, hx, Option.map_some, ← hcomm, h u' hu' (hkey.trans hindex)]

/-! ### The label's log -/

theorem WrittenLog.precomputed_eq (h : WrittenLog P t epochs) (hu : u ∈ updatesOf epochs) :
    t.config.vrfProve P u.label u.version = .ok (u.index, u.vrfProof) ∧
      commit P u.label u.version u.value none u.opening = .ok u.commitment := by
  obtain ⟨opening, hpre⟩ := h.precomputed u hu
  obtain ⟨⟨index, vrfProof⟩, hvrf, hpre⟩ := Result.bind_eq_ok.1 hpre
  obtain ⟨commitment, hcommit, hpre⟩ := Result.bind_eq_ok.1 hpre
  have hpre := Except.ok.inj hpre
  rw [← hpre]
  exact ⟨hvrf, hcommit⟩

/-- The update of a version has its key and its commitment. -/
theorem WrittenLog.update_eq (h : WrittenLog P t epochs) (hu : u ∈ updatesOf epochs) :
    u.index = (vrfOf P t.config u.label u.version).1 ∧
      u.commitment = commitmentIn epochs u.label u.version := by
  obtain ⟨hvrf, -⟩ := h.precomputed_eq hu
  refine ⟨by rw [vrfOf, hvrf]; rfl, ?_⟩
  have hsome : ((updatesOf epochs).find? fun u' =>
      u'.label = u.label ∧ u'.version = u.version).isSome :=
    List.find?_isSome.2 ⟨u, hu, by simp⟩
  obtain ⟨u', hu'⟩ := Option.isSome_iff_exists.1 hsome
  obtain ⟨hlabel, hversion⟩ : u'.label = u.label ∧ u'.version = u.version := by
    simpa using List.find?_some hu'
  rw [commitmentIn, hu', ← h.run.consecutive.eq_of_version (List.mem_of_find?_eq_some hu') hu hlabel
    hversion]
  rfl

/-- The greatest of a number of versions. -/
def lastVersion : ℕ → Option ℕ
  | 0 => none
  | count + 1 => some count

theorem lastVersion_any {count : ℕ} : (lastVersion count).any (v ≤ ·) = decide (v < count) := by
  cases count with
  | zero => simp [lastVersion]
  | succ count => simp [lastVersion, Nat.lt_succ_iff]

theorem WrittenLog.contents_eq (h : WrittenLog P t epochs) (hlabel : label.length < 256)
    (hdist : Distinct P t.config epochs label) (hv : v ≤ maxVersion) :
    commitmentsOf (insertionsOf (epochs.take (e + 1))) (vrfOf P t.config label v).1 =
      if v < versionCount epochs label e then some (commitmentIn epochs label v) else none := by
  obtain ⟨hprove, -, -⟩ := vrfProve_eq h.vrf hlabel v
  have hown : ∀ u ∈ updatesOf (epochs.take (e + 1)), u.index = (vrfOf P t.config label v).1 →
      u.label = label ∧ u.version = v := fun u hu hindex =>
    hdist u (mem_updatesOf_of_take hu) v hv (vrfOf P t.config label v).2
      (by rw [hindex]; exact hprove)
  split_ifs with hcount
  · obtain ⟨u, hu, rfl, rfl⟩ := h.run.consecutive.exists_version.2 hcount
    obtain ⟨hindex, hcomm⟩ := h.update_eq (mem_updatesOf_of_take hu)
    rw [← hindex, ← hcomm]
    refine commitmentsOf_insertionsOf_some hu fun u' hu' hindex' => ?_
    obtain ⟨hl, hver⟩ := hown u' hu' (hindex'.trans hindex)
    exact h.run.consecutive.eq_of_version (mem_updatesOf_of_take hu') (mem_updatesOf_of_take hu) hl hver
  · refine commitmentsOf_insertionsOf_none fun u hu hindex => hcount ?_
    obtain ⟨hl, hver⟩ := hown u hu hindex
    exact h.run.consecutive.exists_version.1 ⟨u, hu, hl, hver⟩

/-- **What an honest log says of a label.** -/
def HonestLog.labelLog (h : HonestLog P t epochs) (hlabel : label.length < 256)
    (hdist : Distinct P t.config epochs label) : LabelLog where
  size := epochs.length
  timestamp e := (epochs[e]?.map Epoch.timestamp).getD 0
  contents e := commitmentsOf (insertionsOf (epochs.take (e + 1)))
  greatest e := lastVersion (versionCount epochs label e)
  key v := (vrfOf P t.config label v).1
  vrfProof v := (vrfOf P t.config label v).2
  commitment := commitmentIn epochs label
  ordered {e e'} hle hlt := by
    rw [List.getElem?_eq_getElem hlt, List.getElem?_eq_getElem (by omega)]
    rcases Nat.lt_or_eq_of_le hle with hlt' | rfl
    · exact List.pairwise_iff_getElem.1 h.ordered e e' (by omega) hlt hlt'
    · exact le_rfl
  growing {e e' g} hle hlt hg := by
    have hmono : versionCount epochs label e ≤ versionCount epochs label e' := versionCount_mono hle
    cases hcount : versionCount epochs label e with
    | zero => simp [hcount, lastVersion] at hg
    | succ count =>
      obtain rfl : count = g := by simpa [hcount, lastVersion] using hg
      obtain ⟨count', hcount'⟩ := Nat.exists_eq_succ_of_ne_zero
        (show versionCount epochs label e' ≠ 0 by omega)
      exact ⟨count', by rw [hcount']; rfl, by omega⟩
  lookup {e v} _ hv := by
    simp only [h.contents_eq hlabel hdist hv, lastVersion_any, decide_eq_true_eq]
  small {e g} _ hg := by
    cases hcount : versionCount epochs label e with
    | zero => simp [hcount, lastVersion] at hg
    | succ count =>
      obtain rfl : count = g := by simpa [hcount, lastVersion] using hg
      obtain ⟨u, hu, -, rfl⟩ := h.run.consecutive.exists_version.2
        (show count < versionCount epochs label e by omega)
      exact h.small u (mem_updatesOf_of_take hu)

/-- The values and openings at some places deleted, which is what `erase` and
`prune_expired_versions` do. -/
def Tree.without (t : Tree) (gone : ℕ → Bool) : Tree :=
  { t with store := { t.store with
    value := fun p => if gone p then none else t.store.value p
    opening := fun p => if gone p then none else t.store.opening p } }

theorem HonestLog.leaves_eq (h : HonestLog P t epochs) (hlabel : label.length < 256)
    (hdist : Distinct P t.config epochs label) :
    (h.labelLog hlabel hdist).leaves P = leavesOf P epochs := by
  refine List.map_congr_left fun i _ => ?_
  simp only [labelLog, LabelLog.root, rootAfter]
  cases epochs[i]? <;> rfl

end

/-! ### Committing -/

section

variable {P : Primitives} {t : Tree} {epochs : List Epoch}

/-- The update of a job that the server can compute. -/
theorem exists_precompute {config : PrivateConfig} {label value opening : Octets} (hvrf : VrfWorks P config)
    (hlabel : label.length < 256) (hvalue : value.length < 2 ^ 32) (hopening : opening.length = 16)
    (last version : ℕ) :
    ∃ u, Batcher.precompute P config opening ⟨label, value, last, version⟩ = .ok u ∧ IsKey u.index ∧
      u.label = label ∧ u.value = value ∧ u.last = last ∧ u.version = version ∧ u.opening = opening := by
  obtain ⟨hprove, hkey, -⟩ := vrfProve_eq hvrf hlabel version
  obtain ⟨c, hcommit⟩ : ∃ c, commit P label version value none opening = .ok c := by
    simp only [commit, opaqueBytes, hopening, ensure_of, Result.ok_bind,
      if_pos (show label.length < 256 ^ 1 by omega), if_pos (show value.length < 256 ^ 4 by omega),
      Result.pure_eq]
    exact ⟨_, rfl⟩
  refine ⟨⟨label, value, last, version, (vrfOf P config label version).1,
    (vrfOf P config label version).2, c, opening⟩, ?_, hkey, rfl, rfl, rfl, rfl, rfl⟩
  simp only [Batcher.precompute, hprove, Result.ok_bind, hcommit, Result.pure_eq]

/-- **A batch of updates with the next versions** is committed. -/
theorem ServerRun.afterBatch_eq (run : ServerRun P t epochs) {now : U64} {updates : List PreUpdateData}
    (hassigned : assigned t.store updates (fun _ => none) = updates.map .ok) (hne : updates ≠ [])
    (hkeys : ∀ u ∈ updates, IsKey u.index) (hsize : epochs.length + 1 ≤ 2 ^ 62) :
    ∃ (th : TreeHead) (t' : Tree) (found : List PrefixSearch), Tree.afterBatch P t none (some now) updates =
        (.ok (found.map fun r => .ok ⟨Tree.getFullTreeHead { t with latest := some th } none, r⟩), t') ∧
      ServerRun P t' (epochs ++ [⟨now, updates⟩]) ∧ t'.config = t.config ∧ t'.auditors = t.auditors ∧
      t'.latest = some th ∧ found.length = updates.length ∧
      Tree.signHead P t.config (epochs.length + 1) now
        (logRoot P (leavesOf P (epochs ++ [⟨now, updates⟩]))) = .ok th := by
  have hvalid : validUpdates t.store updates = updates := by
    rw [validUpdates, hassigned, List.filterMap_map]
    exact List.filterMap_some
  have hcommitted : committedBy t now updates = [⟨now, updates⟩] := by
    rw [committedBy, hvalid, if_neg hne]
  have run' := run.batch now updates hkeys hsize
  obtain ⟨hs, hsign⟩ := run.sound
  obtain ⟨th, store, found, heq, hfound, hsigned, -⟩ := afterBatch_sound hs hsign hsize now hkeys
    (by rwa [hvalid])
  rw [hvalid] at hsigned hfound
  rw [hassigned, Batcher.fillSlots_ok _ hfound, List.map_map] at heq
  rw [hcommitted, heq] at run'
  exact ⟨th, _, found, heq, run', rfl, rfl, rfl, hfound, hsigned⟩

/-- One more epoch of prepared updates. -/
theorem WrittenLog.append (h : WrittenLog P t epochs) {t' : Tree} {now : U64} {updates : List PreUpdateData}
    (run : ServerRun P t' (epochs ++ [⟨now, updates⟩])) (hconfig : t'.config = t.config)
    (hpre : ∀ u ∈ updates, ∃ opening,
      Batcher.precompute P t.config opening ⟨u.label, u.value, u.last, u.version⟩ = .ok u)
    (hsmall : ∀ u ∈ updates, u.version ≤ maxVersion) : WrittenLog P t' (epochs ++ [⟨now, updates⟩]) := by
  have hmem : ∀ u ∈ updatesOf (epochs ++ [⟨now, updates⟩]), u ∈ updatesOf epochs ∨ u ∈ updates :=
    fun u hu => by rwa [updatesOf_append, List.mem_append] at hu
  refine ⟨run, fun u hu => ?_, fun u hu => (hmem u hu).elim (h.small u) (hsmall u), by
    rw [hconfig]
    exact h.vrf⟩
  rw [hconfig]
  exact (hmem u hu).elim (h.precomputed u) (hpre u)

end

end KeyTransparency
