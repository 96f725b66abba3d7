/-
# Catching up

What the server tells an updater.  `catch_up_update` of `src/tree/write.rs` answers a
request whose greatest version is behind with the versions that the log entry right after
that version brought; `post_update` tells of versions that were inserted.  Both prove the
entry (`traverse_update_verification` of `src/tree/traversal.rs`).

The answer is exact (`WrittenLog.catchUpUpdate_exact`): it has all versions of the label
that the entry brought and that the client lacks, and no other.
-/

import KeyTransparency.Batcher
import KeyTransparency.Tree.LabelEntry
import KeyTransparency.Tree.Readable

namespace KeyTransparency

open BinaryLadder InOrder LogMath

namespace Tree

variable (P : Primitives) (t : Tree)

/-! ### The model -/

/-- The loop over the frontier. -/
def visitLadders (versions : List ℕ) : List ℕ → TraversalSession → Result TraversalSession
  | [], session => .ok session
  | node :: nodes, session => do
    let session ← session.visit P t node versions none
    visitLadders versions nodes session

def traverseUpdateVerification (currentTreeSize insertionLogIndex : ℕ) (label : Octets)
    (newVersion consistencyLast : ℕ) : Result CombinedTreeProof := do
  let targetVerFrontier := if 0 < newVersion then newVersion - 1 else 0
  let session ← visitLadders P t (baseBinaryLadder targetVerFrontier) (getFrontier insertionLogIndex)
    (.new label)
  let versionsNew := if newVersion ∈ baseBinaryLadder newVersion then baseBinaryLadder newVersion
    else baseBinaryLadder newVersion ++ [newVersion]
  let session ← session.visit P t insertionLogIndex versionsNew none
  session.finalize P t currentTreeSize consistencyLast

/-- What an updater is told of a version. -/
structure Told where
  value : LabelValue
  info : UpdateInfo
  step : BinaryLadderStep

/-- One turn of the loop over the versions that the entry brought. -/
def tellVersion (label : Octets) (h : ℕ × ℕ) : Result Told := do
  let value ← okOr (t.store.value h.2) s!"Value for v={h.1} was pruned"
  let opening ← okOr (t.store.opening h.2) s!"Opening for v={h.1} was pruned"
  let (_, vrfProof) ← t.config.vrfProve P label h.1
  return ⟨⟨value⟩, ⟨opening, none⟩, ⟨vrfProof, none⟩⟩

def catchUpUpdate (req : UpdateRequest) : Result UpdateResponse := do
  let treeSize ← okOr (t.latest.map TreeHead.treeSize) "Empty tree"
  let history := t.store.history req.label
  let firstMissing := req.greatestVersion.elim 0 (· + 1)
  let firstPos ← okOr ((history.find? fun h => h.1 = firstMissing).map Prod.snd)
    s!"Version {firstMissing} missing from label history"
  let position ← t.findLogEntryForPrefixPos firstPos treeSize
  let entryHi ← LogTree.getPrefixPtr t.store position
  let missing := history.filter fun h => firstMissing ≤ h.1 ∧ h.2 ≤ entryHi
  let told ← missing.mapM (t.tellVersion P req.label)
  let newGreatest := (missing.getLast?.map Prod.fst).getD firstMissing
  let combinedProof ← traverseUpdateVerification P t treeSize position req.label newGreatest
    (req.last.getD 0)
  return ⟨some (t.getFullTreeHead none), position, told.map Told.value, told.map Told.info,
    told.map Told.step, some combinedProof⟩

/-- The versions created for one label by one request, all in the last log entry. -/
def postUpdate (pres : List PreUpdateData) (post : PostUpdateData) : Result UpdateResponse := do
  let newest ← okOr pres.getLast? "Empty update group"
  let th ← post.treeHead.treeHead.elim
    (.error (.panic "called `Option::unwrap()` on a `None` value")) .ok
  let insertionLogIndex := th.treeSize - 1
  let combinedProof ← traverseUpdateVerification P t th.treeSize insertionLogIndex newest.label
    newest.version newest.last
  return ⟨some post.treeHead, insertionLogIndex, [], pres.map fun p => ⟨p.opening, none⟩,
    pres.map fun p => ⟨p.vrfProof, none⟩, some combinedProof⟩

end Tree

/-- What an updater is told of an update. -/
def PreUpdateData.told (u : PreUpdateData) : Tree.Told :=
  ⟨⟨u.value⟩, ⟨u.opening, none⟩, ⟨u.vrfProof, none⟩⟩

/-- The updates of a label that an entry brought, from a version on. -/
def broughtFrom (epochs : List Epoch) (label : Octets) (start e : ℕ) : List PreUpdateData :=
  (labelUpdates label ((epochs[e]?.map Epoch.updates).getD [])).filter fun u => start ≤ u.version

/-! ### The proof of an entry -/

namespace Tree

variable {P : Primitives} {t : Tree} {label : Octets} {n e v m : ℕ} {ts : ℕ → U64}

theorem le_of_mem_baseBinaryLadder {x : ℕ} (h : x ∈ baseBinaryLadder v) : x ≤ maxVersion := by
  rw [baseBinaryLadder_eq] at h
  exact mem_ladder_path h

theorem Readable.visitLadders_ok (h : t.Readable P label n ts) {versions : List ℕ}
    (hv : ∀ v ∈ versions, v ≤ maxVersion) : ∀ {nodes : List ℕ} {s : TraversalSession},
      Within label n s → (∀ e ∈ nodes, e < n) →
      ∃ s', visitLadders P t versions nodes s = .ok s' ∧ Within label n s'
  | [], s, hs, _ => ⟨s, rfl, hs⟩
  | e :: nodes, s, hs, hlt => by
    obtain ⟨s₁, h₁, hs₁⟩ := h.visit_eq hs (hlt e List.mem_cons_self) hv none
    obtain ⟨s₂, h₂, hs₂⟩ := h.visitLadders_ok hv hs₁ fun e' he' => hlt e' (List.mem_cons_of_mem _ he')
    refine ⟨s₂, ?_, hs₂⟩
    rw [visitLadders, h₁, TraversalSession.extracted, Result.ok_bind, h₂]

/-- **An entry can be proved**, and the proof has a prefix proof. -/
theorem Readable.traverseUpdateVerification_ok (h : t.Readable P label n ts) (hn : n ≤ 2 ^ 62)
    (he : e < n) (hv : v ≤ maxVersion) (m : ℕ) :
    ∃ proof, traverseUpdateVerification P t n e label v m = .ok proof ∧ proof.prefixProofs ≠ [] := by
  have hnew : Within label n (.new label) := ⟨rfl, fun e he => (by cases he)⟩
  obtain ⟨s₁, h₁, hs₁⟩ := h.visitLadders_ok
   
    (fun x hx => le_of_mem_baseBinaryLadder hx) hnew fun x (hx : x ∈ getFrontier e) =>
      (mem_getFrontier_lt (by omega) hx).trans he
  have hversions : ∀ x ∈ (if v ∈ baseBinaryLadder v then baseBinaryLadder v
      else baseBinaryLadder v ++ [v]), x ≤ maxVersion := by
    intro x hx
    split_ifs at hx
    · exact le_of_mem_baseBinaryLadder hx
    · rcases List.mem_append.1 hx with hx | hx
      · exact le_of_mem_baseBinaryLadder hx
      · rwa [List.mem_singleton.1 hx]
  obtain ⟨s₂, h₂, hs₂⟩ := h.visit_eq hs₁ he hversions none
  obtain ⟨proof, hproof, hproofs⟩ := h.finalize_ok hs₂ m
  refine ⟨proof, ?_, ?_⟩
  · rw [traverseUpdateVerification]
    dsimp only
    rw [h₁, Result.ok_bind, h₂, TraversalSession.extracted, Result.ok_bind, hproof]
  · obtain ⟨-, last, hlast⟩ := visit_eq_ok (h₂.trans rfl)
    rw [hproofs, hlast]
    simp

end Tree

/-! ### The versions of an entry -/

section

variable {P : Primitives} {t : Tree} {epochs : List Epoch} {label : Octets} {start e : ℕ}

/-- The versions of a label before an entry. -/
def versionsBefore (epochs : List Epoch) (label : Octets) (e : ℕ) : ℕ :=
  (labelUpdates label (updatesOf (epochs.take e))).length

theorem versionsBefore_mono {e' : ℕ} (hee : e ≤ e') :
    versionsBefore epochs label e ≤ versionsBefore epochs label e' :=
  ((updatesOf_beginning epochs hee).filter _).length_le

theorem Consecutive.lt_versionsBefore (h : Consecutive epochs) {u : PreUpdateData}
    (hu : u ∈ updatesOf (epochs.take e)) : u.version < versionsBefore epochs u.label e := by
  have hmem := List.mem_map_of_mem (f := PreUpdateData.version) (mem_labelUpdates.2 ⟨hu, rfl⟩)
  rwa [(h.take e).labelVersions, List.mem_range] at hmem

theorem ServerRun.length_labelUpdates (run : ServerRun P t epochs) (label : Octets) :
    (labelUpdates label (updatesOf epochs)).length = (t.store.history label).length := by
  have hlen := congrArg List.length (historyFrom_versions label 0 (updatesOf epochs))
  rw [List.length_map, List.length_map, List.filter_map, List.length_map] at hlen
  rw [run.sound.1.history]
  exact hlen.symm

theorem labelUpdates_append (label : Octets) (us us' : List PreUpdateData) :
    labelUpdates label (us ++ us') = labelUpdates label us ++ labelUpdates label us' :=
  List.filter_append ..

theorem updatesOf_take_succ (epochs : List Epoch) (e : ℕ) :
    updatesOf (epochs.take (e + 1)) =
      updatesOf (epochs.take e) ++ (epochs[e]?.map Epoch.updates).getD [] := by
  rw [List.take_add_one, updatesOf, updatesOf, List.flatMap_append]
  cases epochs[e]? <;> simp

theorem filter_le_range (start : ℕ) : ∀ count : ℕ,
    ((List.range count).filter fun v => start ≤ v) = List.range' start (count - start)
  | 0 => by simp
  | count + 1 => by
    rw [List.range_succ, List.filter_append, filter_le_range start count, List.filter_singleton]
    by_cases hle : start ≤ count
    · rw [show count + 1 - start = count - start + 1 by omega, List.range'_concat, decide_eq_true hle,
        Nat.one_mul, Nat.add_sub_cancel' hle]
      rfl
    · rw [show count + 1 - start = 0 by omega, show count - start = 0 by omega]
      simp [hle]

/-- **The versions that an entry brought**, from one on that it brought: they are the next
ones up to its greatest. -/
theorem Consecutive.broughtFrom_eq (h : Consecutive epochs) (hfirst : versionsBefore epochs label e ≤ start) :
    broughtFrom epochs label start e =
        (labelUpdates label (updatesOf (epochs.take (e + 1)))).filter (fun u => start ≤ u.version) ∧
      (broughtFrom epochs label start e).map PreUpdateData.version =
        List.range' start (versionCount epochs label e - start) := by
  have hversions := (h.take (e + 1)).labelVersions label
  have heq : broughtFrom epochs label start e =
      (labelUpdates label (updatesOf (epochs.take (e + 1)))).filter (fun u => start ≤ u.version) := by
    have hnone : (labelUpdates label (updatesOf (epochs.take e))).filter
        (fun u => start ≤ u.version) = [] := by
      refine List.filter_eq_nil_iff.2 fun u hu => ?_
      obtain ⟨hu, hlabel⟩ := List.mem_filter.1 hu
      have hlt := h.lt_versionsBefore hu
      rw [of_decide_eq_true hlabel] at hlt
      simp only [decide_eq_true_eq]
      omega
    rw [broughtFrom, updatesOf_take_succ, labelUpdates_append, List.filter_append, hnone,
      List.nil_append]
  refine ⟨heq, ?_⟩
  have hfilter : (broughtFrom epochs label start e).map PreUpdateData.version =
      (List.range (versionCount epochs label e)).filter fun v => start ≤ v := by
    rw [heq, versionCount, ← hversions, List.filter_map]
    rfl
  rw [hfilter, filter_le_range]

/-- A history beside the updates it is made of. -/
theorem historyFrom_stored : ∀ {position : ℕ} {us : List PreUpdateData},
    (∀ i (h : i < us.length), t.store.value (position + i) = some us[i].value ∧
      t.store.opening (position + i) = some us[i].opening) →
    List.Forall₂ (fun (x : ℕ × ℕ) u => x.1 = u.version ∧ (u ∈ us ∧ u.label = label) ∧
        t.store.value x.2 = some u.value ∧ t.store.opening x.2 = some u.opening)
      (historyFrom label position us) (labelUpdates label us)
  | _, [], _ => .nil
  | position, u :: us, hstored => by
    have ih := @historyFrom_stored (position + 1) us fun i hi => by
      have h := hstored (i + 1) (by simpa using hi)
      rwa [show position + 1 + i = position + (i + 1) by omega]
    have hrest : List.Forall₂ (fun (x : ℕ × ℕ) u' => x.1 = u'.version ∧ (u' ∈ u :: us ∧ u'.label = label) ∧
        t.store.value x.2 = some u'.value ∧ t.store.opening x.2 = some u'.opening)
        (historyFrom label (position + 1) us) (labelUpdates label us) :=
      ih.imp fun x u' h => ⟨h.1, ⟨List.mem_cons_of_mem u h.2.1.1, h.2.1.2⟩, h.2.2⟩
    obtain ⟨hvalue, hopening⟩ := hstored 0 (by simp)
    rw [historyFrom, labelUpdates, List.filter_cons]
    by_cases hlabel : u.label = label
    · rw [if_pos hlabel, if_pos (decide_eq_true hlabel)]
      exact .cons ⟨rfl, ⟨List.mem_cons_self, hlabel⟩, hvalue, hopening⟩ hrest
    · rw [if_neg hlabel, if_neg (by simpa using hlabel)]
      exact hrest

/-- What the server tells of places beside their updates. -/
theorem Result.mapM_of_forall₂ {α β γ : Type} {f : α → Result β} {g : γ → β} {xs : List α} {us : List γ}
    (h : List.Forall₂ (fun x u => f x = .ok (g u)) xs us) : xs.mapM f = .ok (us.map g) := by
  induction h with
  | nil => rfl
  | cons hx _ ih =>
    rw [List.mapM_cons, hx, Result.ok_bind, ih]
    rfl

/-- **The versions that an entry brought**, as the history has them. -/
theorem WrittenLog.missing_stored (h : WrittenLog P t epochs) (he : e < epochs.length)
    (hbefore : versionsBefore epochs label e ≤ start) :
    List.Forall₂ (fun (x : ℕ × ℕ) u => x.1 = u.version ∧ (u ∈ updatesOf epochs ∧ u.label = label) ∧
        t.store.value x.2 = some u.value ∧ t.store.opening x.2 = some u.opening)
      ((t.store.history label).filter fun x => start ≤ x.1 ∧
        x.2 ≤ (updatesOf (epochs.take (e + 1))).length - 1) (broughtFrom epochs label start e) := by
  obtain ⟨hs, -⟩ := h.run.sound
  have hmissing : ((t.store.history label).filter fun x => start ≤ x.1 ∧
      x.2 ≤ (updatesOf (epochs.take (e + 1))).length - 1) =
        (historyFrom label 0 (updatesOf (epochs.take (e + 1)))).filter fun x => start ≤ x.1 := by
    rw [← historyOf, ← h.history_upTo he, List.filter_filter]
    simp only [Bool.decide_and]
  have hstored := @historyFrom_stored t label 0 (updatesOf (epochs.take (e + 1))) fun i hi => by
    have hbeginning := updatesOf_beginning epochs (Nat.le_max_left (e + 1) epochs.length)
    rw [List.take_of_length_le (Nat.le_max_right _ _)] at hbeginning
    have hlt := hi.trans_le hbeginning.length_le
    rw [Nat.zero_add, hs.value i hlt, hs.opening i hlt, hbeginning.getElem hi]
    exact ⟨rfl, rfl⟩
  rw [hmissing, (h.run.consecutive.broughtFrom_eq hbefore).1]
  refine (List.rel_filter ?_ hstored).imp fun x u hx =>
    ⟨hx.1, ⟨mem_updatesOf_of_take hx.2.1.1, hx.2.1.2⟩, hx.2.2⟩
  intro x u hx
  dsimp only
  rw [hx.1]

theorem tellVersion_eq (hvalue : t.store.value p = some value) (hopening : t.store.opening p = some opening)
    (hkey : t.config.vrfProve P label v = .ok (index, vrfProof)) :
    t.tellVersion P label (v, p) = .ok ⟨⟨value⟩, ⟨opening, none⟩, ⟨vrfProof, none⟩⟩ := by
  rw [Tree.tellVersion, hvalue, hopening, okOr_some, Result.ok_bind, okOr_some, Result.ok_bind, hkey]
  rfl

/-- **The answer is exact.**  A request that lacks a version is told the versions from that
one on that one entry brought, the one that brought it: ascending, each with its value and
its opening, and the position of the entry. -/
theorem WrittenLog.catchUpUpdate_eq (h : WrittenLog P t epochs) (req : UpdateRequest)
    (hstart : req.greatestVersion.elim 0 (· + 1) = start)
    (hstale : start < (t.store.history req.label).length) :
    ∃ e proof, e < epochs.length ∧ versionsBefore epochs req.label e ≤ start ∧
      start < versionCount epochs req.label e ∧ proof.prefixProofs ≠ [] ∧
      t.catchUpUpdate P req = .ok ⟨some (t.getFullTreeHead none), e,
        (broughtFrom epochs req.label start e).map (LabelValue.mk ∘ PreUpdateData.value),
        (broughtFrom epochs req.label start e).map fun u => ⟨u.opening, none⟩,
        (broughtFrom epochs req.label start e).map fun u => ⟨u.vrfProof, none⟩, some proof⟩ := by
  obtain ⟨hs, -⟩ := h.run.sound
  have hn := h.run.size_le
  have hlength : versionCount epochs req.label epochs.length = (t.store.history req.label).length := by
    rw [versionCount, List.take_of_length_le (Nat.le_succ _), h.run.length_labelUpdates]
  obtain ⟨p, hmem⟩ : ∃ p, (start, p) ∈ t.store.history req.label :=
    h.exists_position (hstale.trans_eq hlength.symm)
  have hlabel := h.label_lt hmem
  obtain ⟨e, hbrought⟩ := exists_broughtAt (h.position_lt hmem)
  have he := hbrought.lt
  have hcount : start < versionCount epochs req.label e := (h.position_lt_iff he hmem).1 hbrought.last
  have hbefore : versionsBefore epochs req.label e ≤ start := by
    cases e with
    | zero => simp [versionsBefore, updatesOf, labelUpdates]
    | succ e =>
      by_contra hlt
      have hlast := (h.position_lt_iff (by omega) hmem).2 (not_le.1 hlt)
      have hfirst := hbrought.first
      omega
  have hlatest : t.latest.map TreeHead.treeSize = some epochs.length := by
    have hsize := hs.size
    rw [Tree.treeSize] at hsize
    cases hhead : t.latest with
    | none =>
      rw [hhead] at hsize
      simp at hsize
      omega
    | some th =>
      rw [hhead] at hsize
      simpa using hsize
  have hfind : ((t.store.history req.label).find? fun x => x.1 = start).map Prod.snd = some p := by
    cases hfind : (t.store.history req.label).find? fun x => x.1 = start with
    | none => simpa using List.find?_eq_none.1 hfind _ hmem
    | some x =>
      obtain ⟨v, q⟩ := x
      obtain rfl : v = start := by simpa using List.find?_some hfind
      rw [Option.map_some, h.position_unique (List.mem_of_find?_eq_some hfind) hmem]
  have hentry : t.findLogEntryForPrefixPos p epochs.length = .ok e :=
    h.findLogEntryForPrefixPos_eq (fun _ => false) hbrought
  have hptr : LogTree.getPrefixPtr t.store e =
      .ok ((updatesOf (epochs.take (e + 1))).length - 1) := by
    rw [LogTree.getPrefixPtr, hs.ptr e he, okOr_some]
  have hstored := h.missing_stored he hbefore
  have htold : ((t.store.history req.label).filter fun x => start ≤ x.1 ∧
      x.2 ≤ (updatesOf (epochs.take (e + 1))).length - 1).mapM (t.tellVersion P req.label) =
        .ok ((broughtFrom epochs req.label start e).map PreUpdateData.told) := by
    refine Result.mapM_of_forall₂ (hstored.imp fun x u hx => ?_)
    obtain ⟨hversion, ⟨hu, hulabel⟩, hvalue, hopening⟩ := hx
    have hkey := (h.precomputed_eq hu).1
    rw [hulabel, ← hversion] at hkey
    exact tellVersion_eq hvalue hopening hkey
  have hnewest : ((((t.store.history req.label).filter fun x => start ≤ x.1 ∧
      x.2 ≤ (updatesOf (epochs.take (e + 1))).length - 1).getLast?).map Prod.fst).getD start ≤ maxVersion := by
    cases hlast : ((t.store.history req.label).filter fun x => start ≤ x.1 ∧
        x.2 ≤ (updatesOf (epochs.take (e + 1))).length - 1).getLast? with
    | none =>
      obtain ⟨u, hu, -, rfl⟩ := h.run.consecutive.exists_version.2 hcount
      exact h.small u (mem_updatesOf_of_take hu)
    | some x =>
      have hx := (List.mem_filter.1 (List.mem_of_getLast? hlast)).1
      rw [hs.history] at hx
      obtain ⟨i, hi, -, -, hx⟩ := exists_of_mem_historyFrom hx
      rw [Option.map_some, Option.getD_some, ← hx]
      exact h.small _ (List.getElem_mem hi)
  obtain ⟨proof, hproof, hproofs⟩ := (h.readable hlabel (by omega) fun _ => false).traverseUpdateVerification_ok
    hn he hnewest (req.last.getD 0)
  refine ⟨e, proof, he, hbefore, hcount, hproofs, ?_⟩
  rw [Tree.catchUpUpdate, hlatest, okOr_some, Result.ok_bind]
  dsimp only
  rw [hstart, hfind, okOr_some, Result.ok_bind, hentry, Result.ok_bind, hptr, Result.ok_bind]
  rw [htold, Result.ok_bind]
  change (Tree.traverseUpdateVerification P (t.without fun _ => false) epochs.length e req.label _ _ >>=
    fun _ => _) = _
  rw [hproof, Result.ok_bind, List.map_map, List.map_map, List.map_map]
  rfl

theorem map_eq_of_forall₂ {α β γ : Type} {f : α → γ} {g : β → γ} {xs : List α} {ys : List β}
    (h : List.Forall₂ (fun x y => f x = g y) xs ys) : xs.map f = ys.map g := by
  rwa [← List.forall₂_eq_eq_eq, List.forall₂_map_left_iff, List.forall₂_map_right_iff]

/-- The place of a version that is not of an earlier entry. -/
theorem WrittenLog.inEntry_iff (h : WrittenLog P t epochs) (he : e < epochs.length) {x : ℕ × ℕ}
    (hmem : x ∈ t.store.history label) (hbefore : versionsBefore epochs label e ≤ x.1) :
    Batcher.InEntry t.store e x.2 ↔ x.2 ≤ (updatesOf (epochs.take (e + 1))).length - 1 := by
  obtain ⟨hs, -⟩ := h.run.sound
  constructor
  · rintro ⟨⟨q, hq, hle⟩, -⟩
    rw [hs.ptr e he] at hq
    exact hle.trans_eq (Option.some.inj hq).symm
  · refine fun hle => ⟨⟨_, hs.ptr e he, hle⟩, fun i hi q hq => ?_⟩
    rw [hs.ptr i (hi.trans he)] at hq
    obtain rfl := Option.some.inj hq
    have hearlier : versionCount epochs label i ≤ versionsBefore epochs label e :=
      versionsBefore_mono (show i + 1 ≤ e from hi)
    have hnot := (h.position_lt_iff (hi.trans he) hmem).not
    have hpos := h.updates_pos (hi.trans he)
    omega

/-- **The exact answer** to a request that lacks the versions of a label from `start` on:
the versions from there that one log entry brought, which begin with `start`. -/
structure Tree.TellsExactly (P : Primitives) (t : Tree) (label : Octets) (start : ℕ) (told : List (ℕ × ℕ))
    (resp : UpdateResponse) : Prop where
  position : resp.position < t.treeSize
  mem_iff : ∀ x, x ∈ told ↔
    x ∈ t.store.history label ∧ start ≤ x.1 ∧ Batcher.InEntry t.store resp.position x.2
  nonempty : told ≠ []
  versions : told.map Prod.fst = List.range' start told.length
  values : resp.values.map (fun v => some v.value) = told.map fun x => t.store.value x.2
  openings : resp.info.map (fun i => some i.opening) = told.map fun x => t.store.opening x.2
  proofs : List.Forall₂ (fun x step => ∃ index, t.config.vrfProve P label x.1 = .ok (index, step.proof))
    told resp.binaryLadder

/-- **Catching up is exact.** -/
theorem WrittenLog.catchUpUpdate_exact (h : WrittenLog P t epochs) (req : UpdateRequest)
    (hstart : req.greatestVersion.elim 0 (· + 1) = start)
    (hstale : start < (t.store.history req.label).length) :
    ∃ resp told, t.catchUpUpdate P req = .ok resp ∧ t.TellsExactly P req.label start told resp := by
  obtain ⟨e, proof, he, hbefore, hcount, -, hcatch⟩ := h.catchUpUpdate_eq req hstart hstale
  have hstored := h.missing_stored he hbefore
  obtain ⟨hs, -⟩ := h.run.sound
  obtain ⟨-, hversions⟩ := h.run.consecutive.broughtFrom_eq hbefore
  have hlen := congrArg List.length hversions
  rw [List.length_map, List.length_range'] at hlen
  have hne : broughtFrom epochs req.label start e ≠ [] := List.ne_nil_of_length_pos (by omega)
  refine ⟨_, (t.store.history req.label).filter fun x => start ≤ x.1 ∧
    x.2 ≤ (updatesOf (epochs.take (e + 1))).length - 1, hcatch, he.trans_eq hs.size.symm, fun x => ?_, ?_, ?_, ?_, ?_, ?_⟩
  · rw [List.mem_filter, decide_eq_true_eq]
    refine and_congr_right fun hmem => and_congr_right fun hle => ?_
    exact (h.inEntry_iff he hmem (hbefore.trans hle)).symm
  · exact fun hnil => hne (List.forall₂_nil_left_iff.1 (hnil ▸ hstored))
  · rw [map_eq_of_forall₂ (hstored.imp fun x u hx => hx.1), hstored.length_eq, hlen, hversions]
  · rw [List.map_map]
    exact (map_eq_of_forall₂ (hstored.imp fun x u hx => hx.2.2.1)).symm
  · rw [List.map_map]
    exact (map_eq_of_forall₂ (hstored.imp fun x u hx => hx.2.2.2)).symm
  · refine List.forall₂_map_right_iff.2 (hstored.imp fun x u hx => ?_)
    obtain ⟨hversion, ⟨hu, hulabel⟩, -⟩ := hx
    have hkey := (h.precomputed_eq hu).1
    rw [hulabel, ← hversion] at hkey
    exact ⟨_, hkey⟩

end

end KeyTransparency
