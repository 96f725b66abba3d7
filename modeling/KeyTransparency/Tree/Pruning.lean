/-
# Pruning an honest log

What `prune_expired_versions` deletes of an honest log, and which searches it ends.  A
version that was superseded and whose own log entry is expired loses its data
(`HonestLog.pruneExpiredVersions_eq`).  A search may still come to it: at a later entry
that is not expired the version may be the greatest one.  Just these searches fail after
the pruning (`prune_keeps_unserved`).
-/

import KeyTransparency.Client.HonestServer
import KeyTransparency.Tree.PrunedSearch

namespace KeyTransparency

open BinaryLadder InOrder LogMath

/-! ### What pruning deletes -/

section

variable {P : Primitives} {t : Tree} {epochs : List Epoch} {label : Octets} {v e : ℕ}

open Tree

/-- When an entry brought an update. -/
theorem HonestLog.broughtLongAgo_iff (h : HonestLog P t epochs) {maxLife pos e : ℕ} {rightmostTs : U64}
    (hlife : t.config.maximumLifetime = some maxLife)
    (hright : LogTree.getTimestamp t.store (epochs.length - 1) = .ok rightmostTs)
    (hbrought : BroughtAt epochs pos e) :
    t.BroughtLongAgo pos ↔
      maxLife ≤ rightmostTs.val - (epochs.get ⟨e, hbrought.lt⟩).timestamp.val := by
  have hsize : t.treeSize = epochs.length := h.run.sound.1.size
  have hfind : t.findLogEntryForPrefixPos pos epochs.length = .ok e :=
    h.findLogEntryForPrefixPos_eq (fun _ => false) hbrought
  have hts : LogTree.getTimestamp t.store e = .ok (epochs.get ⟨e, hbrought.lt⟩).timestamp := by
    rw [LogTree.getTimestamp, h.run.sound.1.timestamp e hbrought.lt, okOr_some, List.get_eq_getElem]
  rw [← hsize] at hfind hright
  constructor
  · rintro ⟨e', hfind', ts, rightmostTs', hts', hright', hexp⟩
    obtain rfl := Except.ok.inj (hfind.symm.trans hfind')
    obtain rfl := Except.ok.inj (hts.symm.trans hts')
    obtain rfl := Except.ok.inj (hright.symm.trans hright')
    simpa [isExpired, hlife] using hexp
  · exact fun hold => ⟨e, hfind, _, _, hts, hright, by simpa [isExpired, hlife] using hold⟩

/-- **The loop deletes** the data of the versions that are not the greatest one and whose
entries are expired. -/
theorem HonestLog.pruneLoop_eq (h : HonestLog P t epochs) {greatest maxLife : ℕ} {rightmostTs : U64}
    (hlife : t.config.maximumLifetime = some maxLife)
    (hright : LogTree.getTimestamp t.store (epochs.length - 1) = .ok rightmostTs) :
    ∀ {history : List (ℕ × ℕ)} {pruned : ℕ} {gone : ℕ → Bool},
      (∀ x ∈ history, x.2 < (updatesOf epochs).length) →
      ∃ pruned' lost, pruneLoop epochs.length greatest maxLife rightmostTs history pruned
          (t.without gone) = .ok (pruned', (t.without gone).without lost) ∧
        ∀ p, lost p = true ↔ (∃ v, (v, p) ∈ history ∧ v ≠ greatest) ∧ t.BroughtLongAgo p
  | [], pruned, gone, _ => ⟨pruned, fun _ => false, by simp [pruneLoop], by simp⟩
  | (version, pos) :: history, pruned, gone, hhistory => by
    have hrest : ∀ x ∈ history, x.2 < (updatesOf epochs).length := fun x hx =>
      hhistory x (List.mem_cons_of_mem _ hx)
    rw [pruneLoop]
    split_ifs with hver
    · obtain ⟨pruned', lost, hrun, hlost⟩ := h.pruneLoop_eq hlife
        hright hrest
      refine ⟨pruned', lost, hrun, fun p => (hlost p).trans (and_congr_left fun _ => ?_)⟩
      constructor
      · rintro ⟨v, hmem, hne⟩
        exact ⟨v, List.mem_cons_of_mem _ hmem, hne⟩
      · rintro ⟨v, hmem, hne⟩
        refine ⟨v, (List.mem_cons.1 hmem).resolve_left fun heq => hne ?_, hne⟩
        rw [(Prod.mk.inj heq).1, hver]
    · obtain ⟨e, hbrought⟩ := exists_broughtAt (hhistory _ List.mem_cons_self)
      have hiff := h.broughtLongAgo_iff hlife hright hbrought
      have hfind : t.findLogEntryForPrefixPos pos epochs.length = .ok e :=
        h.findLogEntryForPrefixPos_eq (fun _ => false) hbrought
      have hts : LogTree.getTimestamp t.store e = .ok (epochs.get ⟨e, hbrought.lt⟩).timestamp := by
        rw [LogTree.getTimestamp, h.run.sound.1.timestamp e hbrought.lt, okOr_some, List.get_eq_getElem]
      rw [findLogEntryForPrefixPos_without, hfind, Result.ok_bind, getTimestamp_without, hts,
        Result.ok_bind]
      split_ifs with hold
      · rw [without_without]
        obtain ⟨pruned', lost, hrun, hlost⟩ := h.pruneLoop_eq
          hlife hright hrest
        refine ⟨pruned', fun p => lost p || decide (p = pos), ?_, fun p => ?_⟩
        · rw [hrun, without_without, without_without]
          congr 3
          funext p
          exact (Bool.or_assoc ..).symm
        · rw [Bool.or_eq_true, hlost, decide_eq_true_eq]
          constructor
          · rintro (⟨⟨v, hmem, hne⟩, hp⟩ | rfl)
            · exact ⟨⟨v, List.mem_cons_of_mem _ hmem, hne⟩, hp⟩
            · exact ⟨⟨version, List.mem_cons_self, hver⟩, hiff.2 hold⟩
          · rintro ⟨⟨v, hmem, hne⟩, hp⟩
            rcases List.mem_cons.1 hmem with heq | hmem
            · exact .inr (Prod.mk.inj heq).2
            · exact .inl ⟨⟨v, hmem, hne⟩, hp⟩
      · obtain ⟨pruned', lost, hrun, hlost⟩ := h.pruneLoop_eq hlife
          hright hrest
        refine ⟨pruned', lost, hrun, fun p => (hlost p).trans (and_congr_left fun hp => ?_)⟩
        constructor
        · rintro ⟨v, hmem, hne⟩
          exact ⟨v, List.mem_cons_of_mem _ hmem, hne⟩
        · rintro ⟨v, hmem, hne⟩
          refine ⟨v, (List.mem_cons.1 hmem).resolve_left fun heq => hold (hiff.1 ?_), hne⟩
          rw [show (version, pos).2 = p from (Prod.mk.inj heq).2.symm]
          exact hp

/-- **Pruning succeeds**, and deletes the data of the versions of the label that were
superseded and whose entries are expired. -/
theorem HonestLog.pruneExpiredVersions_eq (h : HonestLog P t epochs) (gone : ℕ → Bool) :
    ∃ pruned lost, (t.without gone).pruneExpiredVersions label =
        .ok (pruned, (t.without gone).without lost) ∧
      ∀ p, lost p = true ↔ ∃ v, (v, p) ∈ t.store.history label ∧ t.Outlived label v := by
  have hsize : t.treeSize = epochs.length := h.run.sound.1.size
  have hnothing : (t.without gone).without (fun _ => false) = t.without gone := by
    simp
  rw [pruneExpiredVersions, config_without, treeSize_without]
  cases hlife : t.config.maximumLifetime with
  | none =>
    refine ⟨0, fun _ => false, by rw [hnothing], fun p => ?_⟩
    simp only [Bool.false_eq_true, false_iff]
    rintro ⟨v, -, -, pos, -, e, -, ts, rightmostTs, -, -, hexp⟩
    simp [isExpired, hlife] at hexp
  | some maxLife =>
    dsimp only
    split_ifs with hzero
    · have hempty : epochs = [] := List.length_eq_zero_iff.1 (hsize.symm.trans hzero)
      refine ⟨0, fun _ => false, by rw [hnothing], fun p => ?_⟩
      simp only [Bool.false_eq_true, false_iff]
      rintro ⟨v, hmem, -⟩
      have := h.position_lt hmem
      simp [hempty, updatesOf] at this
    · have hlt : epochs.length - 1 < epochs.length := by omega
      have hright : LogTree.getTimestamp t.store (epochs.length - 1) =
          .ok epochs[epochs.length - 1].timestamp := by
        rw [LogTree.getTimestamp, h.run.sound.1.timestamp _ hlt, okOr_some]
      rw [hsize, getTimestamp_without, hright, Result.ok_bind, history_without]
      cases hlast : (t.store.history label).getLast? with
      | none =>
        refine ⟨0, fun _ => false, by rw [hnothing]; rfl, fun p => ?_⟩
        simp only [Bool.false_eq_true, false_iff]
        rintro ⟨v, -, ⟨g, pos, hg, -⟩, -⟩
        rw [hlast] at hg
        cases hg
      | some x =>
        obtain ⟨g, pos⟩ := x
        obtain ⟨pruned, lost, hrun, hlost⟩ := h.pruneLoop_eq
          hlife hright fun x (hx : x ∈ t.store.history label) => h.position_lt hx
        refine ⟨pruned, lost, hrun, fun p => (hlost p).trans ?_⟩
        constructor
        · rintro ⟨⟨v, hmem, hne⟩, hp⟩
          exact ⟨v, hmem, ⟨g, pos, hlast, hne⟩, p, hmem, hp⟩
        · rintro ⟨v, hmem, ⟨g', pos', hlast', hne⟩, p', hmem', hp'⟩
          rw [hlast] at hlast'
          obtain rfl := (Prod.mk.inj (Option.some.inj hlast')).1
          rw [h.position_unique hmem hmem']
          exact ⟨⟨v, hmem', hne⟩, hp'⟩

end

/-! ### The searches that pruning ends -/

namespace Tree

/-- **A search still comes to the version**: at an unexpired entry it is the greatest one,
at no unexpired ancestor of the entry it is, and no ancestor is expired unless the entry is
distinguished. -/
def StillShown (t : Tree) (label : Octets) (v : ℕ) : Prop :=
  ∃ s < t.treeSize, t.getMaxVersionAt (t.store.history label) s = some v ∧ ¬ t.ExpiredAt s ∧
    (∀ a ∈ ibstDirectPath s t.treeSize,
      t.getMaxVersionAt (t.store.history label) a = some v → t.ExpiredAt a) ∧
    ((∀ a ∈ ibstDirectPath s t.treeSize, ¬ t.ExpiredAt a) ∨
      ∃ dset, t.findDistinguishedNodes t.treeSize = .ok dset ∧ s ∈ dset)

/-- The value and the opening of a version are stored. -/
def Stored (t : Tree) (label : Octets) (v : ℕ) : Prop :=
  ∃ data, t.extractValueAndOpening (t.store.history label) v = .ok data

theorem stillShown_without (t : Tree) (gone : ℕ → Bool) (label : Octets) (v : ℕ) :
    (t.without gone).StillShown label v ↔ t.StillShown label v := by
  simp only [StillShown, treeSize_without, findDistinguishedNodes_without]
  rfl

theorem search_fixed {P : Primitives} {t : Tree} (h : t.treeSize ≠ 0) (last : Option ℕ)
    (label : Octets) (v : ℕ) : t.search P ⟨last, label, some v⟩ = (do
      let data ← traverseFixedSearch P t t.treeSize label v (last.getD 0)
      return ⟨some (t.getFullTreeHead last), none, data.opening, data.value, data.binaryLadder,
        some data.combinedProof⟩) := by
  rw [search, if_neg h]
  rfl

theorem search_greatest {P : Primitives} {t : Tree} (h : t.treeSize ≠ 0) (last : Option ℕ)
    (label : Octets) : t.search P ⟨last, label, none⟩ = (do
      let data ← traverseGreatestSearch P t t.treeSize label (last.getD 0)
      return ⟨some (t.getFullTreeHead last), some data.greatestVersion, data.opening, data.value,
        data.binaryLadder, some data.combinedProof⟩) := by
  rw [search, if_neg h]
  rfl

/-- **Searches for a version go on succeeding**, with the same value. -/
def KeepsSearches (P : Primitives) (t t' : Tree) (label : Octets) (v : ℕ) : Prop :=
  ∀ last r, t.search P ⟨last, label, some v⟩ = .ok r →
    ∃ r', t'.search P ⟨last, label, some v⟩ = .ok r' ∧ r'.value = r.value

end Tree

section

variable {P : Primitives} {t : Tree} {epochs : List Epoch} {label : Octets} {v e : ℕ}

open Tree

theorem HonestLog.expiredAt_iff (h : HonestLog P t epochs) (he : e < epochs.length) :
    t.ExpiredAt e ↔
      t.isExpired (timestampsOf epochs (epochs.length - 1)) (timestampsOf epochs e) = true := by
  have hsize : t.treeSize = epochs.length := h.run.sound.1.size
  have hts := h.getTimestamp_eq he
  have hright := h.getTimestamp_eq (show epochs.length - 1 < epochs.length by omega)
  rw [← hsize] at hright
  constructor
  · rintro ⟨ts, rightmostTs, hts', hright', hexp⟩
    obtain rfl := Except.ok.inj (hts.symm.trans hts')
    obtain rfl := Except.ok.inj (hright.symm.trans hright')
    rwa [hsize] at hexp
  · exact fun hexp => ⟨_, _, hts, hright, by rwa [hsize]⟩

/-- **A version whose entry is expired** has aged. -/
theorem HonestLog.aged (h : HonestLog P t epochs) (hold : t.Outlived label v) :
    t.Aged (t.store.history label) epochs.length v (timestampsOf epochs (epochs.length - 1))
      (timestampsOf epochs) := by
  have hsize : t.treeSize = epochs.length := h.run.sound.1.size
  have holder : ∀ {e e' : ℕ}, e ≤ e' → e' < epochs.length →
      t.isExpired (timestampsOf epochs (epochs.length - 1)) (timestampsOf epochs e') = true →
      t.isExpired (timestampsOf epochs (epochs.length - 1)) (timestampsOf epochs e) = true := by
    intro e e' hle hlt hexp
    have hmono : (timestampsOf epochs e).val ≤ (timestampsOf epochs e').val :=
      h.timestampsOf_mono hle hlt
    cases hlife : t.config.maximumLifetime with
    | none => simp [isExpired, hlife] at hexp
    | some maxLife =>
      simp only [isExpired, hlife, Option.any_some, decide_eq_true_eq] at hexp ⊢
      omega
  obtain ⟨pos, hmem, e, hfind, hexp⟩ := hold.expired
  obtain ⟨e', hbrought⟩ := exists_broughtAt (h.position_lt hmem)
  have hfind' : t.findLogEntryForPrefixPos pos epochs.length = .ok e' :=
    h.findLogEntryForPrefixPos_eq (fun _ => false) hbrought
  rw [hsize] at hfind
  obtain rfl := Except.ok.inj (hfind.symm.trans hfind')
  rw [h.expiredAt_iff hbrought.lt] at hexp
  refine ⟨holder, holder (Nat.zero_le _) hbrought.lt hexp, fun {e₁ e₂ m} hle hlt hm => ?_,
    fun e' he' hfresh => ?_⟩
  · rw [h.getMaxVersionAt_eq (by omega)] at hm
    have hmono : versionCount epochs label e₁ ≤ versionCount epochs label e₂ := versionCount_mono hle
    cases hcount : versionCount epochs label e₁ with
    | zero => simp [hcount, lastVersion] at hm
    | succ count =>
      obtain rfl : count = m := by simpa [hcount, lastVersion] using hm
      obtain ⟨count', hcount'⟩ := Nat.exists_eq_succ_of_ne_zero
        (show versionCount epochs label e₂ ≠ 0 by omega)
      exact ⟨count', by rw [h.getMaxVersionAt_eq hlt, hcount']; rfl, by omega⟩
  · have hlater : e ≤ e' := by
      by_contra hle
      have := holder (show e' ≤ e by omega) hbrought.lt hexp
      rw [hfresh] at this
      cases this
    have hv := (h.position_lt_iff he' hmem).1 (hbrought.le_iff.1 hlater)
    obtain ⟨count, hcount⟩ := Nat.exists_eq_succ_of_ne_zero
      (show versionCount epochs label e' ≠ 0 by omega)
    exact ⟨count, by rw [h.getMaxVersionAt_eq he', hcount]; rfl, by omega⟩

/-- Where a search still comes to a version. -/
theorem HonestLog.stillShown_iff (h : HonestLog P t epochs) {dset : List ℕ}
    (hdset : t.findDistinguishedNodes epochs.length = .ok dset) :
    t.StillShown label v ↔ t.Shows (t.store.history label) v
      (timestampsOf epochs (epochs.length - 1)) (timestampsOf epochs) dset false 65 epochs.length 0 := by
  have hsize : t.treeSize = epochs.length := h.run.sound.1.size
  have hn : epochs.length < 2 ^ 64 := h.run.size_le.trans_lt (by decide)
  have hpath : ∀ s a, a ∈ ibstDirectPathLoop s 65 epochs.length 0 → a < epochs.length := fun s a ha => by
    have := ibstDirectPathLoop_lt hn ha
    omega
  rw [StillShown, Shows, hsize]
  simp only [ibstDirectPath, List.mem_reverse, hdset]
  refine exists_congr fun s => ?_
  constructor
  · rintro ⟨hlt, hshown, hfresh, htop, hok⟩
    rw [h.expiredAt_iff hlt, Bool.not_eq_true] at hfresh
    refine ⟨Nat.zero_le _, by omega, hshown, hfresh, fun a ha hm =>
      (h.expiredAt_iff (hpath s a ha)).1 (htop a ha hm), ?_⟩
    rcases hok with hok | ⟨dset', hdset', hmem⟩
    · refine .inl ⟨trivial, fun a ha => ?_⟩
      rw [← Bool.not_eq_true, ← h.expiredAt_iff (hpath s a ha)]
      exact hok a ha
    · obtain rfl := Except.ok.inj hdset'
      exact .inr hmem
  · rintro ⟨-, hlt, hshown, hfresh, htop, hok⟩
    rw [Nat.zero_add] at hlt
    rw [← Bool.not_eq_true, ← h.expiredAt_iff hlt] at hfresh
    refine ⟨hlt, hshown, hfresh, fun a ha hm =>
      (h.expiredAt_iff (hpath s a ha)).2 (htop a ha hm), ?_⟩
    refine hok.imp (fun hok a ha => ?_) fun hmem => ⟨dset, rfl, hmem⟩
    rw [h.expiredAt_iff (hpath s a ha), Bool.not_eq_true]
    exact hok.2 a ha

/-- An update belongs to one version. -/
theorem WrittenLog.version_unique (h : WrittenLog P t epochs) {v' pos : ℕ}
    (hmem : (v, pos) ∈ t.store.history label) (hmem' : (v', pos) ∈ t.store.history label) : v = v' := by
  rw [h.run.sound.1.history] at hmem hmem'
  obtain ⟨i, hi, hpos, -, rfl⟩ := exists_of_mem_historyFrom hmem
  obtain ⟨i', hi', hpos', -, rfl⟩ := exists_of_mem_historyFrom hmem'
  obtain rfl : i = i' := by omega
  rfl

/-- The last entry of a history is the greatest version at the end of the log. -/
theorem HonestLog.getLast?_history (h : HonestLog P t epochs) {g pos m : ℕ}
    (hlast : (t.store.history label).getLast? = some (g, pos))
    (hm : t.getMaxVersionAt (t.store.history label) (epochs.length - 1) = some m)
    (hpos : 0 < epochs.length) : g = m := by
  have hversions := h.run.consecutive.labelVersions label
  have hall : epochs.take (epochs.length - 1 + 1) = epochs := by
    rw [Nat.sub_add_cancel hpos, List.take_length]
  have hfst : (t.store.history label).map Prod.fst =
      List.range (versionCount epochs label (epochs.length - 1)) := by
    rw [versionCount, hall, ← hversions, h.run.sound.1.history, historyOf, historyFrom_versions,
      List.filter_map, List.map_map]
    rfl
  rw [h.getMaxVersionAt_eq (by omega)] at hm
  cases hcount : versionCount epochs label (epochs.length - 1) with
  | zero => simp [hcount, lastVersion] at hm
  | succ count =>
    obtain rfl : count = m := by simpa [hcount, lastVersion] using hm
    have hlast' := congrArg List.getLast? hfst
    rw [List.getLast?_map, hlast, hcount, List.getLast?_range] at hlast'
    simpa using hlast'

/-- The deleted data of a version cannot be extracted. -/
theorem Tree.extractValueAndOpening_lost {lost : ℕ → Bool} {history : List (ℕ × ℕ)}
    (h : ∀ p, (v, p) ∈ history → lost p = true) :
    (t.without lost).extractValueAndOpening history v = .error (.kt .unavailable) := by
  rw [extractValueAndOpening]
  cases hfind : history.find? fun h => h.1 = v with
  | none => rfl
  | some x =>
    have hv : x.1 = v := by simpa using List.find?_some hfind
    have hgone := h x.2 (hv ▸ List.mem_of_find?_eq_some hfind)
    simp [without, hgone]

theorem WrittenLog.length_pos (h : WrittenLog P t epochs) {pos : ℕ}
    (hmem : (v, pos) ∈ t.store.history label) : 0 < epochs.length := by
  have hpos := h.position_lt hmem
  by_contra hzero
  rw [List.length_eq_zero_iff.1 (Nat.eq_zero_of_not_pos hzero)] at hpos
  exact absurd hpos (Nat.not_lt_zero _)

/-- **The search for an outlived version** succeeds just when the version is still shown. -/
theorem HonestLog.search_outlived (h : HonestLog P t epochs) (gone : ℕ → Bool)
    (hold : t.Outlived label v) (hstored : (t.without gone).Stored label v) :
    (t.StillShown label v →
      ∃ r, traverseFixedSearch P (t.without gone) epochs.length label v 0 = .ok r) ∧
    ∀ last r, traverseFixedSearch P (t.without gone) epochs.length label v last = .ok r →
      t.StillShown label v := by
  have haged := h.aged hold
  have hn := h.run.size_le
  obtain ⟨pos, hmem, -⟩ := hold.expired
  have hpos := h.length_pos hmem
  obtain ⟨dset, hdset⟩ : ∃ dset, t.findDistinguishedNodes epochs.length = .ok dset :=
    ⟨_, @findDistinguishedNodes_eq _ _ (timestampsOf epochs) _ hpos (hn.trans_lt (by decide))
      Nat.lt_log2_self fun e he => by
        rw [h.run.sound.1.timestamp e he, timestampsOf, List.getElem?_eq_getElem he]
        rfl⟩
  rw [h.stillShown_iff hdset]
  exact Aged.search (t := t.without gone) (h.readable (h.label_lt hmem) hpos gone)
    ⟨haged.older, haged.first, haged.growing, haged.later⟩ hstored hpos hn
    ((findDistinguishedNodes_without ..).trans hdset)

/-- **A search that pruning ends**: it succeeds as long as the data is there, and never
without. -/
theorem HonestLog.search_ends (h : HonestLog P t epochs) (gone : ℕ → Bool)
    (hold : t.Outlived label v) (hstored : (t.without gone).Stored label v)
    (hshown : t.StillShown label v) {lost : ℕ → Bool}
    (hlost : ∀ p, (v, p) ∈ t.store.history label → lost p = true) :
    ∃ r, (t.without gone).search P ⟨none, label, some v⟩ = .ok r ∧
      ∀ last r', ((t.without gone).without lost).search P ⟨last, label, some v⟩ ≠ .ok r' := by
  have hsize : t.treeSize = epochs.length := h.run.sound.1.size
  obtain ⟨pos, hmem, -⟩ := hold.expired
  have hpos := h.length_pos hmem
  obtain ⟨data, hdata⟩ := (h.search_outlived gone hold hstored).1 hshown
  have hne : (t.without gone).treeSize ≠ 0 := by
    rw [treeSize_without, hsize]
    omega
  have hne' : ((t.without gone).without lost).treeSize ≠ 0 := hne
  have hsearch : ∃ r, (t.without gone).search P ⟨none, label, some v⟩ = .ok r := by
    rw [search_fixed hne, treeSize_without, hsize, Option.getD_none, hdata]
    exact ⟨_, rfl⟩
  obtain ⟨r, hr⟩ := hsearch
  refine ⟨r, hr, fun last r' hr' => ?_⟩
  rw [search_fixed hne'] at hr'
  obtain ⟨data', hdata', -⟩ := Result.bind_eq_ok.1 hr'
  obtain ⟨x, hx⟩ := traverseFixedSearch_extracts hdata'
  rw [history_without, history_without, extractValueAndOpening_lost hlost] at hx
  cases hx

end

/-! ### A version that is still shown -/

section

variable {P : Primitives} {t : Tree} {epochs : List Epoch} {label : Octets} {v e : ℕ}

theorem timestampsOf_planned (epochs : List Epoch) (e : ℕ) :
    timestampsOf epochs e = ((epochs.map Epoch.planned)[e]?.map Prod.fst).getD 0 := by
  rw [timestampsOf, List.getElem?_map, Option.map_map]
  rfl

/-- What an honest log has not lost is stored. -/
theorem WrittenLog.stored (h : WrittenLog P t epochs) {p : ℕ} (hmem : (v, p) ∈ t.store.history label) :
    t.Stored label v := by
  rw [Tree.Stored, Tree.extractValueAndOpening]
  cases hfind : (t.store.history label).find? fun h => h.1 = v with
  | none =>
    have := List.find?_eq_none.1 hfind _ hmem
    simp at this
  | some x =>
    have hlt := h.position_lt (v := x.1) (List.mem_of_find?_eq_some hfind)
    simp only [Option.map_some, h.run.sound.1.opening x.2 hlt]
    exact ⟨_, rfl⟩

end

/-- A sample server that lets versions expire after fifty milliseconds. -/
def expiringConfig : PrivateConfig := { sampleServerConfig 1000 with maximumLifetime := some 50 }

/-- A plan in which the first version of a label is replaced long after it, by the last of
two entries of the same time. -/
def replacedPlan : List (U64 × List Octets) := [(0, [[]]), (100, [[0]]), (100, [[]])]

/-- A run of the plan, and its pruning. -/
theorem exists_replaced : ∃ t epochs, HonestLog Primitives.ideal t epochs ∧
    epochs.map Epoch.planned = replacedPlan ∧ t.config = expiringConfig := by
  obtain ⟨t, epochs, h, hconfig, -, hplan, -⟩ := @exists_honestLog Primitives.ideal expiringConfig
    ⟨_, rfl⟩ (vrfWorks_ideal _) replacedPlan (by decide) (by decide) (by decide) (by decide) (by decide)
  exact ⟨t, epochs, h, hplan, hconfig⟩

/-- **The first version of the plan** is outlived, stored, and still shown; the second one
is the greatest. -/
theorem HonestLog.replaced {P : Primitives} {t : Tree} {epochs : List Epoch} (h : HonestLog P t epochs)
    (hplan : epochs.map Epoch.planned = replacedPlan) (hlife : t.config.maximumLifetime = some 50) :
    (t.Outlived [] 0 ∧ t.Stored [] 0 ∧ t.StillShown [] 0) ∧ ¬ t.Outlived [] 1 := by
  have hlen : epochs.length = 3 := by
    rw [← List.length_map (f := Epoch.planned), hplan]
    rfl
  have hsize : t.treeSize = 3 := h.run.sound.1.size.trans hlen
  have hcount : ∀ e, versionCount epochs [] e =
      ((replacedPlan.take (e + 1)).flatMap Prod.snd).count [] := fun e => by
    rw [versionCount_planned, hplan]
  have hts : ∀ e, timestampsOf epochs e = (replacedPlan[e]?.map Prod.fst).getD 0 := fun e => by
    rw [timestampsOf_planned, hplan]
  have hexpired : ∀ e < 3, t.ExpiredAt e ↔ e = 0 := by
    intro e he
    rw [h.expiredAt_iff (by omega), hlen, hts, hts, Tree.isExpired, hlife, Option.any_some,
      decide_eq_true_eq]
    obtain rfl | rfl | rfl : e = 0 ∨ e = 1 ∨ e = 2 := by omega
    all_goals decide
  have hgreatest : ∀ e < 3, t.getMaxVersionAt (t.store.history []) e =
      lastVersion (((replacedPlan.take (e + 1)).flatMap Prod.snd).count []) := fun e he => by
    rw [h.getMaxVersionAt_eq (by omega), hcount]
  have hpath : ibstDirectPath 1 3 = [] := by decide
  have hlast : ∀ g pos, (t.store.history []).getLast? = some (g, pos) → g = 1 := fun g pos hlast =>
    h.getLast?_history hlast (by rw [hlen]; exact (hgreatest 2 (by omega)).trans rfl) (by omega)
  obtain ⟨pos, hmem⟩ : ∃ pos, (0, pos) ∈ t.store.history [] :=
    h.exists_position (e := 0) (by rw [hcount]; decide)
  refine ⟨⟨⟨?_, pos, hmem, 0, ?_, (hexpired 0 (by omega)).2 rfl⟩, h.stored hmem, 1, by omega,
    (hgreatest 1 (by omega)).trans rfl, by rw [hexpired 1 (by omega)]; omega, ?_, .inl ?_⟩, ?_⟩
  · cases hx : (t.store.history []).getLast? with
    | none =>
      rw [List.getLast?_eq_none_iff.1 hx] at hmem
      cases hmem
    | some x =>
      have := hlast x.1 x.2 hx
      exact ⟨x.1, x.2, rfl, by omega⟩
  · have hfirst := (h.position_lt_iff (e := 0) (by omega) hmem).2 (by rw [hcount]; decide)
    rw [hsize, ← hlen]
    exact h.findLogEntryForPrefixPos_eq (fun _ => false) ⟨by omega, by simp [updatesOf], hfirst⟩
  · rw [hsize, hpath]
    exact fun a ha => by cases ha
  · rw [hsize, hpath]
    exact fun a ha => by cases ha
  · rintro ⟨⟨g, pos, hx, hne⟩, -⟩
    exact hne (hlast g pos hx).symm

/-! ### The searches that pruning keeps -/

open Tree

/-- **Pruning keeps every search but those for a version that is still shown.**  Searches
for the greatest version stay as they are.  A search for a fixed version goes on succeeding
with its value unless the version was superseded, its own entry is expired and its data is
stored, and a later unexpired entry still shows it. -/
theorem prune_keeps_unserved {P : Primitives} {t : Tree} {epochs : List Epoch}
    (h : HonestLog P t epochs) (gone : ℕ → Bool) (label : Octets) :
    ∃ pruned t', (t.without gone).pruneExpiredVersions label = .ok (pruned, t') ∧
      (∀ v, Tree.KeepsSearches P (t.without gone) t' label v ↔
        ¬ ((t.without gone).Outlived label v ∧ (t.without gone).Stored label v ∧
          (t.without gone).StillShown label v)) ∧
      ∀ last, t'.search P ⟨last, label, none⟩ = (t.without gone).search P ⟨last, label, none⟩ := by
  obtain ⟨pruned, lost, hrun, hlost⟩ := h.pruneExpiredVersions_eq gone
  have hsize : t.treeSize = epochs.length := h.run.sound.1.size
  have hn := h.run.size_le
  refine ⟨pruned, _, hrun, fun v => ⟨?_, fun hnot last r hr => ?_⟩, fun last => ?_⟩
  · rintro hkeeps ⟨hold, hstored, hshown⟩
    have hold' : t.Outlived label v := ⟨hold.superseded, hold.expired⟩
    obtain ⟨r, hr, hnever⟩ := h.search_ends gone hold' hstored ((stillShown_without ..).1 hshown)
      (fun p hp => (hlost p).2 ⟨v, hp, hold'⟩)
    obtain ⟨r', hr', -⟩ := hkeeps none r hr
    exact hnever none r' hr'
  · by_cases hzero : (t.without gone).treeSize = 0
    · rw [search, if_pos hzero] at hr
      refine ⟨r, ?_, rfl⟩
      rw [search, treeSize_without, if_pos hzero]
      exact hr
    rw [search_fixed hzero] at hr
    obtain ⟨data, hdata, hr⟩ := Result.bind_eq_ok.1 hr
    obtain ⟨x, hx⟩ := traverseFixedSearch_extracts hdata
    have hkept : ∀ p, (v, p) ∈ t.store.history label → lost p = false := by
      intro p hp
      by_contra hne
      obtain ⟨v', hmem, hold⟩ := (hlost p).1 (Bool.eq_true_of_not_eq_false hne)
      obtain rfl := h.version_unique hp hmem
      rw [treeSize_without, hsize] at hdata
      exact hnot ⟨⟨hold.superseded, hold.expired⟩, ⟨x, hx⟩,
        (stillShown_without ..).2 ((h.search_outlived gone hold ⟨x, hx⟩).2 _ _ hdata)⟩
    refine ⟨r, ?_, rfl⟩
    have hne : ((t.without gone).without lost).treeSize ≠ 0 := hzero
    rw [search_fixed hne,
      traverseFixedSearch_without (t := t.without gone) (extractValueAndOpening_without hkept)]
    exact Result.bind_eq_ok.2 ⟨data, hdata, hr⟩
  · by_cases hzero : (t.without gone).treeSize = 0
    · rw [search, search, treeSize_without, if_pos hzero, if_pos hzero]
      rfl
    have hne : ((t.without gone).without lost).treeSize ≠ 0 := hzero
    have hpos : 0 < epochs.length := by
      rw [treeSize_without, hsize] at hzero
      omega
    rw [search_greatest hne, search_greatest hzero, traverseGreatestSearch_without (t := t.without gone)]
    · rfl
    · intro rightmost hright g hg
      refine extractValueAndOpening_without fun p hp => ?_
      by_contra hne
      obtain ⟨v', hmem, ⟨g', pos, hlast, hother⟩, -⟩ := (hlost p).1 (Bool.eq_true_of_not_eq_false hne)
      obtain rfl := h.version_unique hp hmem
      rw [treeSize_without, treeSize_without, hsize, getLast?_getFrontier hpos hn] at hright
      obtain rfl := Option.some.inj hright
      exact hother (h.getLast?_history hlast hg hpos).symm

theorem prune_keeps_unserved_replaced : ∃ t epochs pruned t', HonestLog Primitives.ideal t epochs ∧
    (t.without fun _ => false).pruneExpiredVersions [] = .ok (pruned, t') ∧
    ¬ Tree.KeepsSearches Primitives.ideal (t.without fun _ => false) t' [] 0 ∧
    Tree.KeepsSearches Primitives.ideal (t.without fun _ => false) t' [] 1 := by
  obtain ⟨t, epochs, h, hplan, hconfig⟩ := exists_replaced
  have hgone : t.without (fun _ => false) = t := by simp [Tree.without]
  obtain ⟨pruned, t', hrun, hkeeps, -⟩ := prune_keeps_unserved h (fun _ => false) []
  obtain ⟨hlost, hkept⟩ := h.replaced hplan (by rw [hconfig]; rfl)
  refine ⟨t, epochs, pruned, t', h, hrun, ?_, ?_⟩
  · rw [hkeeps, hgone]
    exact not_not.2 hlost
  · rw [hkeeps, hgone]
    exact fun hall => hkept hall.1

/-- **A search that pruning ends**: the version's entry is expired, but the last two entries
are not, and at the first of them it is still the greatest version. -/
theorem prune_ends_shown : ∃ t epochs pruned t' r, HonestLog Primitives.ideal t epochs ∧
    epochs.map Epoch.planned = replacedPlan ∧ t.config = expiringConfig ∧
    t.pruneExpiredVersions [] = .ok (pruned, t') ∧
    t.search Primitives.ideal ⟨none, [], some 0⟩ = .ok r ∧
    ∀ last r', t'.search Primitives.ideal ⟨last, [], some 0⟩ ≠ .ok r' := by
  obtain ⟨t, epochs, h, hplan, hconfig⟩ := exists_replaced
  have hgone : t.without (fun _ => false) = t := by simp [Tree.without]
  obtain ⟨⟨hold, hstored, hshown⟩, -⟩ := h.replaced hplan (by rw [hconfig]; rfl)
  obtain ⟨pruned, lost, hrun, hlost⟩ := h.pruneExpiredVersions_eq fun _ => false
  rw [hgone] at hrun
  obtain ⟨r, hr, hnever⟩ := h.search_ends (fun _ => false) hold (hgone.symm ▸ hstored) hshown
    fun p hp => (hlost p).2 ⟨0, hp, hold⟩
  rw [hgone] at hr hnever
  exact ⟨t, epochs, pruned, _, r, h, hplan, hconfig, hrun, hr, hnever⟩

end KeyTransparency
