/-
# The entries of a label's versions

`find_log_entry_for_prefix_pos` of `src/tree/write.rs`: the log entry that brought the
update with a given number is found by bisection over the prefix pointers, which never
decrease (`WrittenLog.findLogEntryForPrefixPos_eq`).  A version of a label exists at an
entry just when its update was brought by then (`WrittenLog.position_lt_iff`).
-/

import KeyTransparency.Client.LadderProof
import KeyTransparency.Library.Bisect

namespace KeyTransparency

def Tree.findLogEntryForPrefixPos (t : Tree) (pos treeSize : ℕ) : Result ℕ :=
  if treeSize = 0 then .error (.panic "attempt to subtract with overflow")
  else bisect .diverge (fun mid => do return decide (pos ≤ (← LogTree.getPrefixPtr t.store mid))) 65 0
    (treeSize - 1)

/-- An update's number lies among those that an entry brought. -/
structure BroughtAt (epochs : List Epoch) (pos e : ℕ) : Prop where
  lt : e < epochs.length
  first : (updatesOf (epochs.take e)).length ≤ pos
  last : pos < (updatesOf (epochs.take (e + 1))).length

section

variable {P : Primitives} {t : Tree} {epochs : List Epoch} {label : Octets} {e e' v pos : ℕ}

theorem length_updatesOf_mono (epochs : List Epoch) {i j : ℕ} (hij : i ≤ j) :
    (updatesOf (epochs.take i)).length ≤ (updatesOf (epochs.take j)).length :=
  (updatesOf_beginning epochs hij).length_le

/-- Every update was brought by an entry. -/
theorem exists_broughtAt (hpos : pos < (updatesOf epochs).length) : ∃ e, BroughtAt epochs pos e := by
  have hex : ∃ e, pos < (updatesOf (epochs.take (e + 1))).length := by
    refine ⟨epochs.length, ?_⟩
    rwa [List.take_of_length_le (Nat.le_succ _)]
  refine ⟨Nat.find hex, ?_, ?_, Nat.find_spec hex⟩
  · by_contra hle
    have hlast := Nat.find_spec hex
    obtain ⟨i, hi⟩ := Nat.exists_eq_succ_of_ne_zero (show epochs.length ≠ 0 by
      intro hzero
      rw [List.length_eq_zero_iff.1 hzero] at hpos
      simp [updatesOf] at hpos)
    refine Nat.find_min hex (m := i) (by omega) ?_
    rwa [← Nat.succ_eq_add_one, ← hi, List.take_length]
  · rcases Nat.eq_zero_or_eq_succ_pred (Nat.find hex) with hzero | hsucc
    · rw [hzero, List.take_zero]
      exact Nat.zero_le _
    · have hmin := Nat.find_min hex (Nat.lt_of_lt_of_eq (Nat.lt_succ_self _) hsucc.symm)
      rw [hsucc]
      exact Nat.not_lt.1 hmin

/-- **The update is there** from the entry that brought it on. -/
theorem BroughtAt.le_iff (h : BroughtAt epochs pos e) :
    e ≤ e' ↔ pos < (updatesOf (epochs.take (e' + 1))).length := by
  constructor
  · intro hle
    exact h.last.trans_le (length_updatesOf_mono epochs (by omega))
  · intro hlt
    by_contra hnot
    have hmono := length_updatesOf_mono epochs (show e' + 1 ≤ e by omega)
    have hfirst := h.first
    omega

/-- **The bisection finds the entry** that brought an update. -/
theorem WrittenLog.findLogEntryForPrefixPos_eq (h : WrittenLog P t epochs) (gone : ℕ → Bool)
    (hbrought : BroughtAt epochs pos e) :
    (t.without gone).findLogEntryForPrefixPos pos epochs.length = .ok e := by
  have hsize := h.run.size_le
  have hlt := hbrought.lt
  have hiff : ∀ i, e ≤ i ↔ pos ≤ (updatesOf (epochs.take (i + 1))).length - 1 := fun i => by
    have hmono := length_updatesOf_mono epochs (show 1 ≤ i + 1 by omega)
    have hfirst := h.updates_pos (show 0 < epochs.length by omega)
    rw [hbrought.le_iff]
    rw [Nat.zero_add] at hfirst
    omega
  rw [Tree.findLogEntryForPrefixPos, if_neg (by omega)]
  refine bisect_eq (p := fun i => pos ≤ (updatesOf (epochs.take (i + 1))).length - 1)
    (fun i hi => ?_) (fun i hi => (hiff i).1 hi) ?_ (Nat.zero_le _) (by omega) fun i _ hi => ?_
  · rw [← hiff]
    omega
  · have hpow : (2 : ℕ) ^ 62 < 2 ^ 64 := by decide
    omega
  · have hptr := h.run.sound.1.ptr i (by omega)
    have hget : LogTree.getPrefixPtr (t.without gone).store i =
        .ok ((updatesOf (epochs.take (i + 1))).length - 1) := by
      rw [LogTree.getPrefixPtr, show (t.without gone).store.prefixPtr i = t.store.prefixPtr i from rfl,
        hptr, okOr_some]
    rw [hget]
    rfl

/-! ### A label's versions -/

theorem WrittenLog.position_lt (h : WrittenLog P t epochs) (hmem : (v, pos) ∈ t.store.history label) :
    pos < (updatesOf epochs).length := by
  rw [h.run.sound.1.history] at hmem
  have := (mem_historyFrom hmem).2
  omega

/-- A version is in the history once. -/
theorem WrittenLog.position_unique (h : WrittenLog P t epochs) {pos' : ℕ}
    (hmem : (v, pos) ∈ t.store.history label) (hmem' : (v, pos') ∈ t.store.history label) :
    pos = pos' := by
  have hversions : ((t.store.history label).map Prod.fst).Nodup := by
    have hlabel := h.run.consecutive.labelVersions label
    rw [h.run.sound.1.history, historyOf, historyFrom_versions, List.filter_map, List.map_map]
    exact hlabel ▸ List.nodup_range
  exact (Prod.mk.inj (List.inj_on_of_nodup_map hversions hmem hmem' rfl)).2

/-- **A version exists at an entry** just when its update was there. -/
theorem WrittenLog.position_lt_iff (h : WrittenLog P t epochs) (he : e < epochs.length)
    (hmem : (v, pos) ∈ t.store.history label) :
    pos < (updatesOf (epochs.take (e + 1))).length ↔ v < versionCount epochs label e := by
  have hpos := h.updates_pos he
  have hupTo : (t.store.history label).filter
      (fun x => x.2 ≤ (updatesOf (epochs.take (e + 1))).length - 1) =
        historyOf (epochs.take (e + 1)) label := h.history_upTo he
  have hrange : (historyOf (epochs.take (e + 1)) label).map Prod.fst =
      List.range (versionCount epochs label e) := by
    have hversions := (h.run.consecutive.take (e + 1)).labelVersions label
    rw [versionCount, ← hversions, historyOf, historyFrom_versions, List.filter_map, List.map_map]
    rfl
  constructor
  · intro hlt
    have hmem' : (v, pos) ∈ historyOf (epochs.take (e + 1)) label := by
      rw [← hupTo]
      exact List.mem_filter.2 ⟨hmem, decide_eq_true (by dsimp only; omega)⟩
    have := List.mem_map_of_mem (f := Prod.fst) hmem'
    rwa [hrange, List.mem_range] at this
  · intro hlt
    rw [← List.mem_range, ← hrange] at hlt
    obtain ⟨⟨v', pos'⟩, hmem', hv'⟩ := List.mem_map.1 hlt
    obtain rfl : v' = v := hv'
    rw [← hupTo] at hmem'
    obtain ⟨hmem', hle⟩ := List.mem_filter.1 hmem'
    rw [h.position_unique hmem hmem']
    have := of_decide_eq_true hle
    dsimp only at this
    omega

/-- The labels of a log have keys. -/
theorem WrittenLog.label_lt (h : WrittenLog P t epochs) {pos : ℕ}
    (hmem : (v, pos) ∈ t.store.history label) : label.length < 256 := by
  rw [h.run.sound.1.history] at hmem
  obtain ⟨i, hi, -, rfl, -⟩ := exists_of_mem_historyFrom hmem
  obtain ⟨hprove, -⟩ := h.precomputed_eq (List.getElem_mem hi)
  obtain ⟨input, hinput, -⟩ := Result.bind_eq_ok.1 hprove
  obtain ⟨⟨⟩, hlabel, -⟩ := Result.bind_eq_ok.1 hinput
  exact ensure_eq_ok.1 hlabel

/-- A version at an entry is in the history. -/
theorem WrittenLog.exists_position (h : WrittenLog P t epochs)
    (hv : v < versionCount epochs label e) : ∃ p, (v, p) ∈ t.store.history label := by
  obtain ⟨u, hu, rfl, rfl⟩ := h.run.consecutive.exists_version.2 hv
  obtain ⟨i, hi, rfl⟩ := List.mem_iff_getElem.1 (mem_updatesOf_of_take hu)
  refine ⟨0 + i, ?_⟩
  rw [h.run.sound.1.history]
  exact mem_historyFrom_getElem hi

end

end KeyTransparency
