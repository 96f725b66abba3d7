/-
# What an owner is shown later

The owner of a label that goes on monitoring is shown the ladders of the distinguished
entries right of its start.  An honest server's answer is accepted exactly when none of
these holds a version beyond those that the owner allows for, or beyond those that a
ladder of which the target is not told can stand for (`owner_monitor_accepted_iff`).
-/

import KeyTransparency.Client.DistinguishedTests
import KeyTransparency.Client.OwnerAgreement
import KeyTransparency.Client.OwnerBelief

namespace KeyTransparency

open BinaryLadder InOrder LogMath

section

variable {P : Primitives} {env : Env} {t : Tree} {c : KtClient} {label : Octets} {L : LabelLog}
  {visits before done : List Visit} {m rmw start bound : ℕ} {proof : CombinedTreeProof} {order : List ℕ}
  {binaryLadder : List BinaryLadderStep}

/-! ### The server's walk -/

/-- The visit of an action. -/
def LabelLog.actionVisit (L : LabelLog) : ℕ × Option ℕ → Visit
  | (node, none) => .stamp node
  | (node, some _) => .ladder node (L.ladderAt node)

/-- **The server's actions** are the visits of the walk. -/
theorem Tree.ownerWalkActions_honest (hs : t.Serves P label L) (hn : L.size ≤ 2 ^ 62)
    {history : List (ℕ × ℕ)} : ∀ {fuel k i : ℕ} {leftTs rightTs : U64}, k < fuel → k < 64 →
    node k i < L.size → ∃ out, t.ownerWalkActions history start L.size rmw fuel (node k i) leftTs rightTs =
      .ok out ∧ out.map L.actionVisit = L.ownerVisits start rmw fuel (node k i) leftTs rightTs ∧
        ∀ a ∈ out, a.1 < L.size
  | 0, k, i, leftTs, rightTs, hk, _, _ => absurd hk (Nat.not_lt_zero k)
  | fuel + 1, k, i, leftTs, rightTs, hk, hk64, hlt => by
    rw [ownerWalkActions, LabelLog.ownerVisits]
    by_cases hw : rightTs.val - leftTs.val < rmw
    · rw [if_pos hw, if_pos hw]
      exact ⟨[], rfl, rfl, fun a ha => by cases ha⟩
    rw [if_neg hw, if_neg hw, hs.timestamp _ hlt, Result.ok_bind]
    dsimp only
    -- what is right of the node
    obtain ⟨right, hright, hrightVisits, hrightLt⟩ : ∃ right,
        (if isLeaf (node k i) then none else ibstRightChild (node k i) L.size).elim (.ok [])
          (fun rc => t.ownerWalkActions history start L.size rmw fuel rc (L.timestamp (node k i)) rightTs) =
            .ok right ∧
        right.map L.actionVisit =
          (if isLeaf (node k i) then none else ibstRightChild (node k i) L.size).elim []
            (fun rc => L.ownerVisits start rmw fuel rc (L.timestamp (node k i)) rightTs) ∧
        ∀ a ∈ right, a.1 < L.size := by
      rcases @rightChild_cases k i L.size hk64 with hchild | ⟨k', j', hk', hlt', hchild⟩
      · rw [hchild]
        exact ⟨[], rfl, rfl, fun a ha => by cases ha⟩
      · rw [hchild]
        exact ownerWalkActions_honest hs hn (show k' < fuel by omega) (by omega) hlt'
    rw [hright, Result.ok_bind, ← hrightVisits]
    by_cases hstart : node k i ≤ start
    · rw [if_pos hstart, if_pos hstart]
      refine ⟨_, rfl, rfl, fun a ha => ?_⟩
      rcases List.mem_cons.1 ha with rfl | ha
      · exact hlt
      · exact hrightLt a ha
    · rw [if_neg hstart, if_neg hstart]
      -- what is left of it
      obtain ⟨left, hleft, hleftVisits, hleftLt⟩ : ∃ left, (if isLeaf (node k i) then .ok []
            else t.ownerWalkActions history start L.size rmw fuel (leftChild (node k i)) leftTs
              (L.timestamp (node k i))) = .ok left ∧
          left.map L.actionVisit = (if isLeaf (node k i) then [] else
            L.ownerVisits start rmw fuel (leftChild (node k i)) leftTs (L.timestamp (node k i))) ∧
          ∀ a ∈ left, a.1 < L.size := by
        rcases @leftChild_cases k i L.size hk64 hn hlt with hleaf | ⟨j, rfl, hleaf, hchild, hlt'⟩
        · rw [if_pos hleaf, if_pos hleaf]
          exact ⟨[], rfl, rfl, fun a ha => by cases ha⟩
        · simp only [hleaf, Bool.false_eq_true, if_false, hchild]
          exact ownerWalkActions_honest hs hn (show j < fuel by omega) (by omega) hlt'
      rw [hleft, Result.ok_bind, Result.ok_bind, ← hleftVisits]
      refine ⟨_, rfl, ?_, fun a ha => ?_⟩
      · rw [List.map_append, List.map_cons, List.map_cons]
        rfl
      · rcases List.mem_append.1 ha with ha | ha
        · rcases List.mem_cons.1 ha with rfl | ha
          · exact hlt
          · exact hleftLt a ha
        · rcases List.mem_cons.1 ha with rfl | ha
          · exact hlt
          · exact hrightLt a ha

/-- **The server gathers** what its actions visit. -/
theorem Tree.ownerActionsLoop_honest (hs : t.Serves P label L) {actions : List (ℕ × Option ℕ)} :
    ∀ {visits : List Visit} {s : TraversalSession}, (∀ a ∈ actions, a.1 < L.size) →
    s.Gathered P label L none visits →
    ∃ s', ownerActionsLoop P t (t.store.history label) actions s = .ok s' ∧
      s'.Gathered P label L none (visits ++ actions.map L.actionVisit) := by
  induction actions with
  | nil =>
    intro visits s _ h
    exact ⟨s, rfl, by rwa [List.map_nil, List.append_nil]⟩
  | cons action actions ih =>
    intro visits s hlt h
    have hnode := hlt action List.mem_cons_self
    have hrest : ∀ a ∈ actions, a.1 < L.size := fun a ha => hlt a (List.mem_cons_of_mem _ ha)
    obtain ⟨node, target⟩ := action
    cases target with
    | none =>
      obtain ⟨s₁, hvisit, h₁, -⟩ := h.visitTimestampOnly hs.servesLog hnode
      obtain ⟨s', hrun, h'⟩ := ih hrest h₁
      refine ⟨s', ?_, by rwa [List.map_cons, List.append_cons]⟩
      rw [ownerActionsLoop, hvisit, Result.ok_bind, hrun]
    | some v =>
      obtain ⟨s₁, hvisit, h₁⟩ : ∃ s₁, s.visit P t node (L.ladderAt node) none = .ok s₁ ∧
          s₁.Gathered P label L none (visits ++ [.ladder node (L.ladderAt node)]) := by
        obtain ⟨s₁, hvisit, h₁, -, -⟩ := h.visit_eq hs hnode (fun v hv => mem_ladder_path hv) (.inl rfl)
        exact ⟨s₁, hvisit, h₁⟩
      obtain ⟨s', hrun, h'⟩ := ih hrest h₁
      refine ⟨s', ?_, by rwa [List.map_cons, List.append_cons]⟩
      rw [ownerActionsLoop, hs.greatest node hnode, L.ownerLadder_eq, hvisit, Result.ok_bind, hrun]

/-- The ladders of a walk are those of its actions. -/
theorem LabelLog.mem_laddersOf_actions {actions : List (ℕ × Option ℕ)} {l : ℕ × List ℕ} :
    l ∈ laddersOf (actions.map L.actionVisit) ↔ (∃ v, (l.1, some v) ∈ actions) ∧ l.2 = L.ladderAt l.1 := by
  constructor
  · intro hl
    obtain ⟨visit, hvisit, hladder⟩ := List.mem_filterMap.1 hl
    obtain ⟨⟨node, target⟩, ha, rfl⟩ := List.mem_map.1 hvisit
    cases target with
    | none => cases hladder
    | some v =>
      obtain rfl := Option.some.inj hladder
      exact ⟨⟨v, ha⟩, rfl⟩
  · rintro ⟨⟨v, ha⟩, hladder⟩
    obtain ⟨e, versions⟩ := l
    obtain rfl : versions = L.ladderAt e := hladder
    exact List.mem_filterMap.2 ⟨_, List.mem_map_of_mem ha, rfl⟩

/-- The ladders of an owner's walk are those of the distinguished entries right of its start. -/
def LabelLog.OwnerLadders (L : LabelLog) (start rmw : ℕ) (visits : List Visit) : Prop :=
  ∀ l, l ∈ laddersOf visits ↔
    (l.1 ∈ L.contiguous.distinguished rmw ∧ start < l.1) ∧ l.2 = L.ladderAt l.1

/-- **What the server answers** to an owner that goes on monitoring. -/
theorem Tree.traverseOwnerMonitor_honest (hs : t.Serves P label L) (hauditors : t.auditors = [])
    (h₀ : 0 < L.size) (hn : L.size ≤ 2 ^ 62) (hm : m ≤ L.size)
    (hrmw : t.config.reasonableMonitoringWindow = rmw) :
    ∃ proof steps, traverseOwnerMonitor P t L.size label [] start m = .ok (proof, steps) ∧
      Transcript P L (frontierVisits L.size ++ L.ownerWalk start rmw) m proof ∧
      L.Wire none (laddersOf (frontierVisits L.size ++ L.ownerWalk start rmw))
        (versionsOf (L.ownerWalk start rmw)) steps ∧
      steps.length = (versionsOf (L.ownerWalk start rmw)).length ∧
      L.OwnerLadders start rmw (L.ownerWalk start rmw) := by
  have hlevel : Nat.log2 L.size < 64 := (Nat.log2_lt (by omega)).2 (by omega)
  have hroot : root L.size = node (Nat.log2 L.size) 0 := root_eq h₀ (by omega)
  have hrootLt := root_lt h₀ (show L.size < 2 ^ 64 by omega)
  have hladders : laddersOf (frontierVisits L.size ++ L.ownerWalk start rmw) =
      laddersOf (L.ownerWalk start rmw) := by
    rw [laddersOf_append, frontierVisits, laddersOf_stamps, List.nil_append]
  obtain ⟨actions, hactions, hvisits, hlt⟩ : ∃ actions, t.ownerWalkActions (t.store.history label) start
      L.size rmw 65 (root L.size) 0 (L.timestamp (L.size - 1)) = .ok actions ∧
      actions.map L.actionVisit = L.ownerWalk start rmw ∧ ∀ a ∈ actions, a.1 < L.size := by
    rw [hroot] at hrootLt
    rw [LabelLog.ownerWalk, hroot]
    exact ownerWalkActions_honest hs hn (by omega) hlevel hrootLt
  obtain ⟨s₁, hrun₁, h₁, -, -⟩ := (TraversalSession.gathered_new P label L none).visitAll
    hs.servesLog fun e (he : e ∈ getFrontier L.size) => mem_getFrontier_lt hn he
  obtain ⟨s₂, hrun₂, h₂⟩ := ownerActionsLoop_honest hs hlt h₁
  rw [hvisits] at h₂
  obtain ⟨proof, hfinal, htranscript⟩ := h₂.finalize hs hauditors h₀ hn hm
  have hwire := h₂.steps.wire
  have hversions := h₂.steps.versions
  rw [show [] ++ (getFrontier L.size).map Visit.stamp = frontierVisits L.size from rfl] at hwire hversions
  rw [hladders] at hwire hversions
  refine ⟨proof, s₂.ladder, ?_, htranscript, by rw [hladders]; exact hwire, ?_, fun l => ?_⟩
  · unfold traverseOwnerMonitor
    dsimp only
    rw [hs.timestamp _ (by omega), Result.ok_bind, TraversalSession.visitFrontier, hrun₁, Result.ok_bind,
      List.reverse_nil, visitContactEntries, Result.ok_bind, hrmw, hactions, Result.ok_bind, hrun₂,
      Result.ok_bind, hfinal]
    rfl
  · rw [versionsOf, ← hversions, List.length_map]
    exact List.length_map _
  · -- the actions with a ladder are the server's distinguished entries
    have hstore : ∀ x < L.size, t.store.timestamp x = some (L.timestamp x) := fun x hx =>
      okOr_eq_ok.1 (hs.timestamp x hx)
    obtain ⟨actions', hactions', hmem⟩ := @KtClient.ownerWalkActions_emits _ start _ _ t (t.store.history label) _
      (show L.size < 2 ^ 64 by omega) hstore _ _ _ _ _ _
      (Bounds.whole h₀ L.timestamp rmw (L.timestamp (L.size - 1))) (show Nat.log2 L.size < 65 by omega)
    rw [← hroot] at hactions'
    obtain rfl := Except.ok.inj (hactions'.symm.trans hactions)
    rw [← hvisits, LabelLog.mem_laddersOf_actions, hmem, Nat.zero_mul, Nat.zero_add]
    refine and_congr_left' ⟨fun h => ⟨h.2.2.2, h.2.2.1⟩, fun h => ⟨Nat.zero_le _, ?_, h.2, h.1⟩⟩
    exact (mem_distinguishedIn h.1).1

/-! ### The client's walk -/

/-- **A walk that the owner follows** shows it versions that it can check. -/
theorem KtClient.replayOwnerWalk_accepted (hn : L.size ≤ 2 ^ 62) (ht : Transcript P L visits m proof)
    (hwire : L.Wire none (laddersOf visits) order binaryLadder) (hverify : c.CanVerify P label L) :
    ∀ {fuel k i : ℕ} {leftTs rightTs : U64} {done : List Visit} {s s' : SearchState}, k < fuel → k < 64 →
      node k i < L.size → s.At P L proof order before done →
      before ++ (done ++ L.ownerVisits start rmw fuel (node k i) leftTs rightTs) <+: visits →
      versionsOf (done ++ L.ownerVisits start rmw fuel (node k i) leftTs rightTs) <+: order →
      c.replayOwnerWalk P label start L.size rmw bound binaryLadder fuel (node k i) leftTs rightTs s = .ok s' →
      L.Checkable bound (L.ownerVisits start rmw fuel (node k i) leftTs rightTs) ∧
        s'.At P L proof order before (done ++ L.ownerVisits start rmw fuel (node k i) leftTs rightTs)
  | 0, k, i, leftTs, rightTs, done, s, s', hk, _, _, _, _, _, _ => absurd hk (Nat.not_lt_zero k)
  | fuel + 1, k, i, leftTs, rightTs, done, s, s', hk, hk64, hlt, hs, hvisits, horder, h => by
    rw [LabelLog.ownerVisits] at hvisits horder ⊢
    rcases replayOwnerWalk_cases h with ⟨hw, rfl⟩ | ⟨hw, nodeTs, reader, s₁, hts, hentry, hright⟩
    · rw [if_pos hw, List.append_nil]
      exact ⟨fun l hl => (by cases hl), hs⟩
    rw [if_neg (by omega)] at hvisits horder ⊢
    dsimp only at hvisits horder ⊢
    -- what is right of the node is followed from wherever its walk begins
    have walkRight : ∀ {done₁ : List Visit}, s₁.At P L proof order before done₁ → nodeTs = L.timestamp (node k i) →
        ∀ right, right = (if isLeaf (node k i) then none else ibstRightChild (node k i) L.size).elim []
          (fun rc => L.ownerVisits start rmw fuel rc (L.timestamp (node k i)) rightTs) →
        before ++ (done₁ ++ right) <+: visits → versionsOf (done₁ ++ right) <+: order →
        L.Checkable bound right ∧ s'.At P L proof order before (done₁ ++ right) := by
      intro done₁ h₁ hnodeTs right hrightEq hvisits horder
      subst hnodeTs
      rcases @rightChild_cases k i L.size hk64 with hchild | ⟨k', j', hk', hlt', hchild⟩
      · rw [hchild] at hrightEq hright
        obtain rfl := Except.ok.inj hright
        rw [hrightEq, Option.elim, List.append_nil]
        exact ⟨fun l hl => (by cases hl), h₁⟩
      · rw [hchild] at hrightEq hright
        rw [Option.elim] at hrightEq
        subst hrightEq
        exact replayOwnerWalk_accepted hn ht hwire hverify (by omega) (by omega) hlt' h₁ hvisits horder hright
    generalize hr : (if isLeaf (node k i) then none else ibstRightChild (node k i) L.size).elim []
      (fun rc => L.ownerVisits start rmw fuel rc (L.timestamp (node k i)) rightTs) = right
      at hvisits horder walkRight ⊢
    rcases hentry with ⟨hstart, rfl⟩ | ⟨hstart, s₂, pp, reader', root, found, ladders, entryRoots, hleft,
      hpp, hladder, hbound, hrecord, rfl⟩
    · rw [if_pos hstart] at hvisits horder ⊢
      rw [List.append_cons] at hvisits horder ⊢
      obtain ⟨reader₁, hts₁, h₁⟩ := hs.stamp ht ((beginning_append_left before _ right).trans hvisits)
      obtain ⟨rfl, rfl⟩ := Prod.mk.inj (Except.ok.inj (hts₁.symm.trans hts))
      obtain ⟨hcheck, h'⟩ := walkRight h₁ rfl right rfl hvisits horder
      exact ⟨hcheck, h'⟩
    · rw [if_neg (by omega)] at hvisits horder ⊢
      generalize hleftEq : (if isLeaf (node k i) then [] else L.ownerVisits start rmw fuel
        (leftChild (node k i)) leftTs (L.timestamp (node k i))) = left at hvisits horder ⊢
      have hsplit : done ++ Visit.stamp (node k i) :: (left ++ Visit.ladder (node k i)
          (L.ladderAt (node k i)) :: right) = done ++ [Visit.stamp (node k i)] ++ left ++
            [Visit.ladder (node k i) (L.ladderAt (node k i))] ++ right := by simp
      rw [hsplit] at hvisits horder ⊢
      have hvisits₃ := (beginning_append_left before _ right).trans hvisits
      have hvisits₂ := (beginning_append_left before _ _).trans hvisits₃
      have hvisits₁ := (beginning_append_left before _ left).trans hvisits₂
      have horder₃ := (versionsOf_beginning (List.prefix_append _ right)).trans horder
      have horder₂ := (versionsOf_beginning (List.prefix_append _ _)).trans horder₃
      obtain ⟨reader₁, hts₁, h₁⟩ := hs.stamp ht hvisits₁
      obtain ⟨rfl, rfl⟩ := Prod.mk.inj (Except.ok.inj (hts₁.symm.trans hts))
      obtain ⟨hcheckLeft, h₂⟩ : L.Checkable bound left ∧
          s₂.At P L proof order before (done ++ [Visit.stamp (node k i)] ++ left) := by
        rcases @leftChild_cases k i L.size hk64 hn hlt with hleaf | ⟨j, rfl, hleaf, hchild, hlt'⟩
        · rw [if_pos hleaf] at hleft hleftEq
          obtain rfl := Except.ok.inj hleft
          rw [← hleftEq, List.append_nil]
          exact ⟨fun l hl => (by cases hl), h₁⟩
        · simp only [hleaf, Bool.false_eq_true, if_false, hchild] at hleft hleftEq
          subst hleftEq
          exact replayOwnerWalk_accepted hn ht hwire hverify (by omega) (by omega) hlt' h₁ hvisits₂ horder₂
            hleft
      have hstamped : node k i ∈ entriesOf (before ++ (done ++ [Visit.stamp (node k i)] ++ left)) :=
        mem_entriesOf.2 ⟨.stamp _, List.mem_append_right _ (List.mem_append_left _
          (List.mem_append_right _ List.mem_cons_self)), rfl⟩
      -- the ladder reveals its target, since it has verified
      have hsmall : ∀ g ∈ L.greatest (node k i), g ≤ 8 := by
        intro g hg
        by_contra hlarge
        have hvisits₃' := hvisits₃
        rw [← List.append_assoc] at hvisits₃'
        obtain ⟨pp', reader₂, hpp', -, hproves⟩ := h₂.reader.prefixProof ht (laddersOf_getElem? hvisits₃')
        obtain ⟨rfl, -⟩ := Prod.mk.inj (Except.ok.inj (hpp'.symm.trans hpp))
        exact verifyOwnerLadder_large hlt hg (by omega) hproves _ hladder
      obtain ⟨pp', reader₂, ladders', entryRoots', hpp', hladder', hrecord', h₃⟩ := h₂.ownerLadder ht hwire
        hverify hvisits₃ hstamped hsmall horder₃
      obtain ⟨rfl, rfl⟩ := Prod.mk.inj (Except.ok.inj (hpp'.symm.trans hpp))
      obtain ⟨hroot, hsame⟩ := Prod.mk.inj (Except.ok.inj (hladder'.symm.trans hladder))
      obtain ⟨hfound, hladders⟩ := Prod.mk.inj hsame
      rw [← hroot] at hrecord
      have hroots := Except.ok.inj (hrecord'.symm.trans hrecord)
      rw [hladders, hroots] at h₃
      obtain ⟨hcheckRight, h'⟩ := walkRight h₃ rfl right rfl hvisits horder
      refine ⟨fun l hl => ?_, h'⟩
      rw [show Visit.stamp (node k i) :: (left ++ Visit.ladder (node k i) (L.ladderAt (node k i)) :: right) =
        [Visit.stamp (node k i)] ++ left ++ [Visit.ladder (node k i) (L.ladderAt (node k i))] ++ right by simp,
        laddersOf_append, laddersOf_append, laddersOf_append] at hl
      rcases List.mem_append.1 hl with hl | hl
      · rcases List.mem_append.1 hl with hl | hl
        · rcases List.mem_append.1 hl with hl | hl
          · cases hl
          · exact hcheckLeft l hl
        · obtain rfl := List.mem_singleton.1 hl
          exact fun g hg => ⟨hsmall g hg, hbound g (hfound ▸ hg)⟩
      · exact hcheckRight l hl

/-! ### The answer -/

section

variable {H : U64} {greatestVersion : Option ℕ} {steps : List BinaryLadderStep}

/-- What an owner without obligations is answered when it goes on monitoring. -/
def Tree.ownerMonitorAnswer (t : Tree) (last : Option ℕ) (steps : List BinaryLadderStep)
    (proof : CombinedTreeProof) : OwnerMonitorResponse := ⟨some (t.getFullTreeHead last), some proof, steps⟩

/-- **What an owner accepts** of the answers: ladders that it can check. -/
theorem KtClient.verifyOwnerMonitor_returns (hmeets : c.Meets P env t L m H) (hsize : t.treeSize = L.size)
    (h₀ : 0 < L.size) (hn : L.size ≤ 2 ^ 62) (hverify : c.CanVerify P label L)
    (ht : Transcript P L (frontierVisits L.size ++ L.ownerWalk start c.config.reasonableMonitoringWindow) m proof)
    (hwire : L.Wire none (laddersOf (frontierVisits L.size ++
        L.ownerWalk start c.config.reasonableMonitoringWindow))
      (versionsOf (L.ownerWalk start c.config.reasonableMonitoringWindow)) steps) {r : List LeafData × KtClient}
    (h : c.verifyOwnerMonitor P env label .empty start greatestVersion
      (t.ownerMonitorAnswer (c.state.map TrustedState.treeSize) steps proof) = .ok r) :
    L.Checkable (greatestVersion.getD maxVersion) (L.ownerWalk start c.config.reasonableMonitoringWindow) := by
  have hfrontier := List.prefix_append (frontierVisits L.size)
    (L.ownerWalk start c.config.reasonableMonitoringWindow)
  have hlast := last_mem_entriesOf h₀ hn (List.prefix_refl (frontierVisits L.size))
  obtain ⟨reader, hreader, hat⟩ := ProofReader.frontier_honest ht hfrontier
  obtain ⟨reader', hrightmost, hat'⟩ := hat.timestamp ht (e := L.size - 1) (by
    rw [appendNew_of_mem hlast]
    exact entriesOf_beginning hfrontier)
  rw [appendNew_of_mem hlast] at hat'
  obtain ⟨w, hw, hs⟩ := @replayContactLadders_empty P L _ m proof
    (versionsOf (L.ownerWalk start c.config.reasonableMonitoringWindow)) reader' (c.versionMaterial label)
    c.config.reasonableMonitoringWindow h₀ hn ht hfrontier hat'
  unfold verifyOwnerMonitor Tree.ownerMonitorAnswer at h
  dsimp only at h
  rw [okOr_some, Result.ok_bind, okOr_some, Result.ok_bind, hmeets.treeSizeForFth_eq hsize h₀,
    Result.ok_bind] at h
  dsimp only at h
  rw [ensure_of h₀.ne', Result.ok_bind, hmeets.checkUpdatedBounds_eq, Result.ok_bind, hreader, Result.ok_bind,
    hrightmost, Result.ok_bind] at h
  dsimp only at h
  rw [hw, Result.ok_bind] at h
  obtain ⟨s, hwalk, -⟩ := Result.bind_eq_ok.1 h
  have hlevel : Nat.log2 L.size < 64 := (Nat.log2_lt (by omega)).2 (by omega)
  have hroot : root L.size = node (Nat.log2 L.size) 0 := root_eq h₀ (by omega)
  have hlt := root_lt h₀ (show L.size < 2 ^ 64 by omega)
  rw [LabelLog.ownerWalk] at ht hwire hs ⊢
  rw [hroot] at hlt hwalk ht hwire hs ⊢
  exact (replayOwnerWalk_accepted hn ht hwire hverify (by omega) hlevel hlt hs List.prefix_rfl List.prefix_rfl
    hwalk).1

/-- **Such an answer is accepted**, and its head is the log's. -/
theorem KtClient.verifyOwnerMonitor_accepts (hmeets : c.Meets P env t L m H)
    (hmode : c.config.mode ≠ deploymentModeThirdPartyAuditing) (hsize : t.treeSize = L.size) (h₀ : 0 < L.size)
    (hn : L.size ≤ 2 ^ 62) (hverify : c.CanVerify P label L)
    (ht : Transcript P L (frontierVisits L.size ++ L.ownerWalk start c.config.reasonableMonitoringWindow) m proof)
    (hwire : L.Wire none (laddersOf (frontierVisits L.size ++
        L.ownerWalk start c.config.reasonableMonitoringWindow))
      (versionsOf (L.ownerWalk start c.config.reasonableMonitoringWindow)) steps)
    (hlength : steps.length = (versionsOf (L.ownerWalk start c.config.reasonableMonitoringWindow)).length)
    (hcheck : L.Checkable (greatestVersion.getD maxVersion)
      (L.ownerWalk start c.config.reasonableMonitoringWindow)) :
    ∃ data c' head, c.verifyOwnerMonitor P env label .empty start greatestVersion
        (t.ownerMonitorAnswer (c.state.map TrustedState.treeSize) steps proof) = .ok (data, c') ∧
      c'.state = some head ∧ head.treeSize = L.size ∧ head.rootHash = logRoot P (L.leaves P) := by
  have hfrontier := List.prefix_append (frontierVisits L.size)
    (L.ownerWalk start c.config.reasonableMonitoringWindow)
  have hvisits : frontierVisits L.size ++ [] ++ L.ownerWalk start c.config.reasonableMonitoringWindow =
      frontierVisits L.size ++ L.ownerWalk start c.config.reasonableMonitoringWindow := by
    rw [List.append_nil]
  obtain ⟨head, th, retained, hverified, hheadSize, hheadRoot, -⟩ :=
    @verifyOwnerMonitor_honest P L m proof (versionsOf (L.ownerWalk start c.config.reasonableMonitoringWindow))
      c label env .empty start greatestVersion
      (t.ownerMonitorAnswer (c.state.map TrustedState.treeSize) steps proof) _ _ _ [] h₀ hn rfl rfl
      (hmeets.treeSizeForFth_eq hsize h₀) (hmeets.checkUpdatedBounds_eq _) (hmeets.headOf hmode hsize h₀)
      hverify (hvisits ▸ ht)
      (fun reader hreader => by
        rw [List.append_nil]
        exact replayContactLadders_empty h₀ hn ht hfrontier hreader)
      (hvisits ▸ hwire) hcheck List.prefix_rfl (.inl hlength)
  exact ⟨_, _, head, hverified, rfl, hheadSize, hheadRoot⟩

end

/-- The server knows of no later version than the label's last one. -/
theorem HonestLog.claimed_le {epochs : List Epoch} (h : HonestLog P t epochs) (h₀ : 0 < epochs.length)
    {greatestVersion : Option ℕ}
    (hclaimed : ∀ v ∈ greatestVersion, v < versionCount epochs label (epochs.length - 1)) :
    ¬greatestVersion.any (fun claimed =>
      ((t.store.history label).getLast?.map Prod.fst).all (· < claimed)) = true := by
  cases greatestVersion with
  | none => simp
  | some claimed =>
    have hversions := congrArg List.getLast? (show (t.store.history label).map Prod.fst = _ from h.history_versions h₀)
    have hlt := hclaimed claimed rfl
    rw [List.getLast?_map, List.getLast?_range, if_neg (by omega)] at hversions
    rw [Option.any_some, hversions, Option.all_some, decide_eq_true_eq]
    omega

/-- **When an owner can go on monitoring.**  An honest server answers the request of a
client of its log which names no obligations, and no version that the label has not got.
The client accepts this exactly when no distinguished entry right of its start holds a
version beyond 8, or beyond the one that it has named. -/
theorem owner_monitor_accepted_iff {epochs : List Epoch} (hP : Function.Injective P.sha256)
    (h : HonestLog P t epochs) (hmode : t.config.mode = deploymentModeContactMonitoring)
    (hauditors : t.auditors = []) (hlabel : label.length < 256)
    (hdist : Distinct P t.config epochs label) (hc : c.ClientOf P t.config (leavesOf P epochs))
    (hclock : c.checkTimestampBounds env (c.headTimestamp t) = .ok ()) (hstart : start < epochs.length)
    {greatestVersion : Option ℕ}
    (hclaimed : ∀ v ∈ greatestVersion, v < versionCount epochs label (epochs.length - 1)) :
    ∃ resp, t.ownerMonitor P ⟨c.state.map TrustedState.treeSize, label, [], start, greatestVersion⟩ = .ok resp ∧
      ((∃ data c', Accepted P env c (.ownerMonitor label .empty start greatestVersion resp) data c') ↔
        ∀ e ∈ (h.labelLog hlabel hdist).contiguous.distinguished t.config.reasonableMonitoringWindow, start < e →
          ∀ g ∈ (h.labelLog hlabel hdist).greatest e, g ≤ 8 ∧ g ≤ greatestVersion.getD maxVersion) ∧
      ∀ data c', Accepted P env c (.ownerMonitor label .empty start greatestVersion resp) data c' →
        c'.ClientOf P t.config (leavesOf P epochs) := by
  have h₀ : 0 < epochs.length := by omega
  have hn := h.run.size_le
  have hs := h.serves hlabel hdist fun _ => false
  rw [Tree.without_none] at hs
  have hmode' : t.config.mode ≠ deploymentModeThirdPartyAuditing := by rw [hmode]; decide
  have hmeets := hc.meets hP h hauditors hmode' hlabel hdist h₀ hclock
  have hconfig : c.config.mode ≠ deploymentModeThirdPartyAuditing := by
    rw [hc.knows.config]
    exact hmode'
  have hwindow : t.config.reasonableMonitoringWindow = c.config.reasonableMonitoringWindow := by
    rw [hc.knows.config]
    rfl
  have hverify := hc.knows.canVerify h hlabel hdist
  have hlen := (h.labelLog hlabel hdist).length_leaves P
  have hleaves := h.leaves_eq hlabel hdist
  obtain ⟨proof, steps, htraverse, ht, hwire, hlength, hladders⟩ := @Tree.traverseOwnerMonitor_honest P t label _
    _ _ start hs hauditors h₀ hn hmeets.known hwindow
  have haccepts := @KtClient.verifyOwnerMonitor_accepts P env t c label _ _ start proof _ greatestVersion steps
    hmeets hconfig hs.size h₀ hn hverify ht hwire hlength
  have hreturns := fun {r} => @KtClient.verifyOwnerMonitor_returns P env t c label _ _ _ proof _ greatestVersion
    steps hmeets hs.size h₀ hn hverify ht hwire r
  -- the ladders of the walk are those of the distinguished entries
  have hcheckable : (h.labelLog hlabel hdist).Checkable (greatestVersion.getD maxVersion)
        ((h.labelLog hlabel hdist).ownerWalk start c.config.reasonableMonitoringWindow) ↔
      ∀ e ∈ (h.labelLog hlabel hdist).contiguous.distinguished t.config.reasonableMonitoringWindow, start < e →
        ∀ g ∈ (h.labelLog hlabel hdist).greatest e, g ≤ 8 ∧ g ≤ greatestVersion.getD maxVersion := by
    rw [hwindow]
    constructor
    · intro hcheck e he hlt
      exact hcheck (e, (h.labelLog hlabel hdist).ladderAt e) ((hladders _).2 ⟨⟨he, hlt⟩, rfl⟩)
    · intro hall l hl
      obtain ⟨⟨hdist', hlt⟩, -⟩ := (hladders l).1 hl
      exact hall l.1 hdist' hlt
  refine ⟨t.ownerMonitorAnswer (c.state.map TrustedState.treeSize) steps proof, ?_, ⟨?_, ?_⟩, ?_⟩
  · have hmonitored : t.monitoredTreeSize = .ok epochs.length := by
      rw [Tree.monitoredTreeSize, if_neg (show ¬t.treeSize = 0 from hs.size.trans_ne h₀.ne')]
      exact congrArg _ hs.size
    have hlast : Tree.traverseOwnerMonitor P t epochs.length label [] start
      ((c.state.map TrustedState.treeSize).getD 0) = _ := htraverse
    rw [Tree.ownerMonitor, hmonitored, Result.ok_bind]
    dsimp only
    rw [Tree.validateMonitorEntries, Result.ok_bind, if_neg (by omega), if_neg (h.claimed_le h₀ hclaimed), hlast,
      Result.ok_bind]
    rfl
  · rintro ⟨data, c', haccepted⟩
    cases haccepted with
    | ownerMonitor h' => exact hcheckable.1 (hreturns h')
  · intro hall
    obtain ⟨data, c', head, hverified, -⟩ := haccepts (hcheckable.2 hall)
    exact ⟨data, c', .ownerMonitor hverified⟩
  · intro data c' haccepted
    cases haccepted with
    | ownerMonitor h' =>
      obtain ⟨data', c'', head, hverified, hstate, hheadSize, hheadRoot⟩ := haccepts (hreturns h')
      obtain ⟨rfl, rfl⟩ := Prod.mk.inj (Except.ok.inj (hverified.symm.trans h'))
      rw [hleaves] at hheadRoot hlen
      exact hc.next (.ownerMonitor h') hstate (hheadSize.trans hlen.symm) hheadRoot

end

/-- A client without a head monitors a label of two versions. -/
theorem owner_monitor_accepted_renewed : ∃ (t : Tree) (env : Env) (resp : OwnerMonitorResponse)
    (data : List LeafData) (c' : KtClient),
    t.ownerMonitor Primitives.ideal ⟨none, [], [], 0, some 1⟩ = .ok resp ∧
      Accepted Primitives.ideal env (sampleClient 15) (.ownerMonitor [] .empty 0 (some 1) resp) data c' := by
  obtain ⟨t, epochs, h, hconfig, hauditors, hplan, hdist, -⟩ := exists_plannedLog 15 renewedPlan
    (by decide) (by decide) (by decide) (by decide) (by decide)
  have hlength : epochs.length = 2 := by
    have hplanned := congrArg List.length hplan
    rwa [List.length_map] at hplanned
  have hcount : versionCount epochs [] (epochs.length - 1) = 2 := by
    rw [versionCount_planned, hplan, hlength]
    rfl
  have hlabel : ([] : Octets).length < 256 := by decide
  have hclaimed : ∀ v ∈ some 1, v < versionCount epochs [] (epochs.length - 1) := fun v hv => by
    obtain rfl := Option.some.inj hv
    rw [hcount]
    decide
  obtain ⟨resp, hmonitor, hiff, -⟩ := owner_monitor_accepted_iff
    Primitives.ideal_sha256_injective h (by rw [hconfig]; rfl) hauditors hlabel hdist
    (sampleClient_clientOf hconfig _) (KtClient.checkTimestampBounds_clockless _ _)
    (show 0 < epochs.length by omega) hclaimed
  obtain ⟨data, c', haccepted⟩ := hiff.2 fun e he hlt g hg => by
    have hsize : e < epochs.length := (mem_distinguishedIn he).1
    obtain ⟨g', hg', hle⟩ := (h.labelLog hlabel hdist).growing (show e ≤ epochs.length - 1 by omega)
      (show epochs.length - 1 < epochs.length by omega) hg
    have hlast : lastVersion (versionCount epochs [] (epochs.length - 1)) = some g' := hg'
    rw [hcount] at hlast
    obtain rfl : 1 = g' := Option.some.inj hlast
    rw [Option.getD_some]
    omega
  exact ⟨t, _, resp, data, c', hmonitor, haccepted⟩

end KeyTransparency
