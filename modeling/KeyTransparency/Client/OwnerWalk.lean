/-
# Following an owner's walk

The visits of the two walks of an owner, as a server makes them, and that a client
follows them (`replayOwnerWalk_honest`): it reads every timestamp and ladder where the
server put it, and numbers the versions as the ladders of its own phase do.
-/

import KeyTransparency.Client.HonestLadder
import KeyTransparency.Client.Monitor
import KeyTransparency.Client.Reads
import KeyTransparency.Client.WalkReader
import KeyTransparency.Tree.Distinguished

namespace KeyTransparency

open BinaryLadder InOrder LogMath LogVerifier MerkleLog

section

variable {P : Primitives} {L : LabelLog} {visits before done : List Visit} {m : ℕ}
  {proof : CombinedTreeProof} {order : List ℕ} {c : KtClient} {label : Octets}
  {binaryLadder : List BinaryLadderStep} {e : ℕ}

/-- **A verifier has followed the visits** of an earlier phase and of its own one, whose
versions it numbers. -/
structure SearchState.At (P : Primitives) (L : LabelLog) (proof : CombinedTreeProof)
    (order : List ℕ) (before done : List Visit) (s : SearchState) : Prop where
  reader : s.reader.At L proof (entriesOf (before ++ done)) (laddersOf (before ++ done)).length
  roots : ∀ e, s.entryRoots e =
    if e ∈ (laddersOf (before ++ done)).map Prod.fst then some (L.root P e) else none
  slots : s.ladders.wireIndex = versionsOf done
  ladders : s.ladders.Honest L order

theorem laddersOf_append (visits visits' : List Visit) :
    laddersOf (visits ++ visits') = laddersOf visits ++ laddersOf visits' := List.filterMap_append

theorem entriesOf_append (visits visits' : List Visit) :
    entriesOf (visits ++ visits') = firstSeenAfter (entriesOf visits) (visits'.map Visit.entry) := by
  rw [entriesOf, List.map_append, firstSeen_append]
  rfl

theorem entriesOf_beginning {visits' : List Visit} (h : visits' <+: visits) :
    entriesOf visits' <+: entriesOf visits := by
  obtain ⟨rest, rfl⟩ := h
  rw [entriesOf, entriesOf, List.map_append, firstSeen_append]
  exact prefix_firstSeenAfter _ _

theorem versionsOf_beginning {visits' : List Visit} (h : visits' <+: visits) :
    versionsOf visits' <+: versionsOf visits := by
  obtain ⟨rest, rfl⟩ := h
  rw [versionsOf, versionsOf, laddersOf, laddersOf, List.filterMap_append, List.flatMap_append,
    firstSeen_append]
  exact prefix_firstSeenAfter _ _

theorem beginning_append_left {α : Type} (before l l' : List α) : before ++ l <+: before ++ (l ++ l') := by
  rw [← List.append_assoc]
  exact List.prefix_append _ _

theorem laddersOf_getElem? {versions : List ℕ} (h : done ++ [.ladder e versions] <+: visits) :
    (laddersOf visits)[(laddersOf done).length]? = some (e, versions) := by
  obtain ⟨rest, rfl⟩ := h
  simp [laddersOf, List.filterMap_append, Visit.asLadder]

/-- **Following a visit to a timestamp.** -/
theorem SearchState.At.stamp {s : SearchState} (h : s.At P L proof order before done)
    (ht : Transcript P L visits m proof) (hvisits : before ++ (done ++ [Visit.stamp e]) <+: visits) :
    ∃ reader, s.reader.timestamp e = .ok (L.timestamp e, reader) ∧
      ({ s with reader := reader } : SearchState).At P L proof order before (done ++ [.stamp e]) := by
  rw [← List.append_assoc] at hvisits
  have hentries := entriesOf_beginning hvisits
  rw [entriesOf_stamp] at hentries
  obtain ⟨reader, hts, hreader⟩ := h.reader.timestamp ht hentries
  refine ⟨reader, hts, ?_, ?_, by rw [versionsOf_stamp]; exact h.slots, h.ladders⟩
  · rw [← List.append_assoc, entriesOf_stamp, laddersOf_stamp]
    exact hreader
  · rw [← List.append_assoc, laddersOf_stamp]
    exact h.roots

/-- **Following a visit with an owner ladder.** -/
theorem SearchState.At.ownerLadder {s : SearchState} (h : s.At P L proof order before done)
    (ht : Transcript P L visits m proof)
    (hwire : L.Wire none (laddersOf visits) order binaryLadder) (hverify : c.CanVerify P label L)
    (hvisits : before ++ (done ++ [Visit.ladder e (L.ladderAt e)]) <+: visits)
    (hstamped : e ∈ entriesOf (before ++ done)) (hsmall : ∀ g ∈ L.greatest e, g ≤ 8)
    (horder : versionsOf (done ++ [.ladder e (L.ladderAt e)]) <+: order) :
    ∃ pp reader ladders entryRoots, s.reader.prefixProof = .ok (pp, reader) ∧
      c.verifyOwnerLadder P label pp binaryLadder s.ladders = .ok (L.root P e, L.greatest e, ladders) ∧
      ProofReader.recordEntryRoot s.entryRoots e (L.root P e) = .ok entryRoots ∧
      (SearchState.mk reader ladders entryRoots).At P L proof order before
        (done ++ [.ladder e (L.ladderAt e)]) := by
  rw [← List.append_assoc] at hvisits
  have hget := laddersOf_getElem? hvisits
  obtain ⟨pp, reader, hpp, hreader, hproves⟩ := h.reader.prefixProof ht hget
  have hlt : e < L.size := ht.bound e ((entriesOf_beginning
    ((List.prefix_append _ _).trans hvisits)).subset hstamped)
  rw [versionsOf_ladder, ← h.slots] at horder
  obtain ⟨ladders, hladder, hslots, hladders⟩ := KtClient.verifyOwnerLadder_honest hwire hverify hlt
    hsmall (List.mem_of_getElem? hget) hproves h.ladders horder
  have hsame : ∀ prev ∈ s.entryRoots e, prev = L.root P e := fun prev hprev => by
    rw [h.roots] at hprev
    split_ifs at hprev with hmem
    · exact (Option.some.inj hprev).symm
    · cases hprev
  refine ⟨pp, reader, ladders, Function.update s.entryRoots e (some (L.root P e)), hpp, hladder,
    by rw [ProofReader.recordEntryRoot, ensure_of hsame]; rfl, ?_, fun e' => ?_, ?_, hladders⟩
  · rw [← List.append_assoc, entriesOf_ladder, appendNew_of_mem hstamped, laddersOf_ladder,
      List.length_append]
    exact hreader
  · rw [← List.append_assoc, laddersOf_ladder, List.map_append, List.map_singleton]
    by_cases he : e' = e
    · subst he
      simp
    · change Function.update s.entryRoots e (some (L.root P e)) e' = _
      have hiff : e' ∈ (laddersOf (before ++ done)).map Prod.fst ++ [e] ↔
          e' ∈ (laddersOf (before ++ done)).map Prod.fst := by
        simp only [List.mem_append, List.mem_singleton, he, or_false]
      rw [Function.update_of_ne he, h.roots]
      simp only [hiff]
  · rw [versionsOf_ladder, hslots, h.slots]

/-! ### Owner monitoring -/

/-- The visits of an owner's walk below a node, between the timestamps on both sides. -/
def LabelLog.ownerVisits (L : LabelLog) (start rmw : ℕ) : ℕ → ℕ → U64 → U64 → List Visit
  | 0, _, _, _ => []
  | fuel + 1, node, leftTs, rightTs =>
    if rightTs.val - leftTs.val < rmw then []
    else
      let right := (if isLeaf node then none else ibstRightChild node L.size).elim []
        fun rc => ownerVisits L start rmw fuel rc (L.timestamp node) rightTs
      if node ≤ start then .stamp node :: right
      else .stamp node :: ((if isLeaf node then [] else
        ownerVisits L start rmw fuel (leftChild node) leftTs (L.timestamp node)) ++
          .ladder node (L.ladderAt node) :: right)

/-- An owner can check the ladders of the given visits: they reveal their versions, and
none of these is beyond the bound. -/
def LabelLog.Checkable (L : LabelLog) (bound : ℕ) (visits : List Visit) : Prop :=
  ∀ l ∈ laddersOf visits, ∀ g ∈ L.greatest l.1, g ≤ 8 ∧ g ≤ bound

theorem LabelLog.Checkable.of_subset {bound : ℕ} {visits' : List Visit} (h : L.Checkable bound visits)
    (hsub : ∀ v ∈ visits', v ∈ visits) : L.Checkable bound visits' := by
  intro l hl
  obtain ⟨v, hv, hladder⟩ := List.mem_filterMap.1 hl
  exact h l (List.mem_filterMap.2 ⟨v, hsub v hv, hladder⟩)

/-- The children of a node: none, or nodes of the log below it. -/
theorem rightChild_cases {k i n : ℕ} (hk : k < 64) :
    (if isLeaf (node k i) then none else ibstRightChild (node k i) n) = none ∨
      ∃ k' j', k' < k ∧ node k' j' < n ∧
        (if isLeaf (node k i) then none else ibstRightChild (node k i) n) = some (node k' j') := by
  rw [isLeaf_node]
  cases k with
  | zero => exact .inl rfl
  | succ k =>
    have hk64 : k < 64 := by omega
    rw [if_neg (by simp), ibstRightChild, level_node hk, if_neg (Nat.succ_ne_zero k),
      Nat.add_sub_cancel, node_xor_right]
    rcases @ibstRightLoop_cases (fun _ => 0) 0 n k (2 * i + 1) 64 hk64 hk64 with
      ⟨k', j', hk', hloop, hlt', -⟩ | ⟨hloop, -⟩
    · exact .inr ⟨k', j', by omega, hlt', hloop⟩
    · exact .inl hloop

theorem leftChild_cases {k i n : ℕ} (hk : k < 64) (hn : n ≤ 2 ^ 62) (hlt : node k i < n) :
    isLeaf (node k i) = true ∨ ∃ j, k = j + 1 ∧ isLeaf (node k i) = false ∧
      leftChild (node k i) = node j (2 * i) ∧ node j (2 * i) < n := by
  cases k with
  | zero => exact .inl (by rw [isLeaf_node]; rfl)
  | succ k =>
    have hchild : leftChild (node (k + 1) i) = node k (2 * i) := leftChild_node (by omega) i
    have hle := leftChild_le (show node (k + 1) i + 1 < 2 ^ 64 by omega)
    exact .inr ⟨k, rfl, by simp [isLeaf_node], hchild, by omega⟩

/-- **The client follows the owner's walk.** -/
theorem KtClient.replayOwnerWalk_honest {start rmw bound : ℕ} (hn : L.size ≤ 2 ^ 62)
    (ht : Transcript P L visits m proof)
    (hwire : L.Wire none (laddersOf visits) order binaryLadder) (hverify : c.CanVerify P label L) :
    ∀ {fuel k i : ℕ} {leftTs rightTs : U64} {done : List Visit} {s : SearchState}, k < fuel → k < 64 →
      node k i < L.size → s.At P L proof order before done →
      before ++ (done ++ L.ownerVisits start rmw fuel (node k i) leftTs rightTs) <+: visits →
      versionsOf (done ++ L.ownerVisits start rmw fuel (node k i) leftTs rightTs) <+: order →
      L.Checkable bound (L.ownerVisits start rmw fuel (node k i) leftTs rightTs) →
      ∃ s', c.replayOwnerWalk P label start L.size rmw bound binaryLadder fuel (node k i) leftTs rightTs
          s = .ok s' ∧ s'.At P L proof order before
            (done ++ L.ownerVisits start rmw fuel (node k i) leftTs rightTs)
  | 0, k, i, leftTs, rightTs, done, s, hk, _, _, _, _, _, _ => absurd hk (Nat.not_lt_zero k)
  | fuel + 1, k, i, leftTs, rightTs, done, s, hk, hk64, hlt, hs, hvisits, horder, hcheck => by
    rw [LabelLog.ownerVisits] at hvisits horder hcheck ⊢
    rw [replayOwnerWalk]
    by_cases hw : rightTs.val - leftTs.val < rmw
    · rw [if_pos hw, if_pos hw, List.append_nil]
      exact ⟨s, rfl, hs⟩
    rw [if_neg hw] at hvisits horder hcheck ⊢
    rw [if_neg hw]
    dsimp only at hvisits horder hcheck ⊢
    -- what is right of the node is followed from wherever its walk begins
    have walkRight : ∀ {done₁ : List Visit} {s₁ : SearchState}, s₁.At P L proof order before done₁ →
        ∀ right, right = (if isLeaf (node k i) then none else ibstRightChild (node k i) L.size).elim []
          (fun rc => L.ownerVisits start rmw fuel rc (L.timestamp (node k i)) rightTs) →
        before ++ (done₁ ++ right) <+: visits → versionsOf (done₁ ++ right) <+: order →
        L.Checkable bound right →
        ∃ s', (if isLeaf (node k i) then none else ibstRightChild (node k i) L.size).elim (.ok s₁)
            (fun rc => c.replayOwnerWalk P label start L.size rmw bound binaryLadder fuel rc
              (L.timestamp (node k i)) rightTs s₁) = .ok s' ∧
          s'.At P L proof order before (done₁ ++ right) := by
      intro done₁ s₁ h₁ right hright hvisits horder hcheck
      rcases @rightChild_cases k i L.size hk64 with hchild | ⟨k', j', hk', hlt', hchild⟩
      · rw [hchild] at hright ⊢
        rw [hright]
        exact ⟨s₁, rfl, by rwa [Option.elim, List.append_nil]⟩
      · rw [hchild] at hright ⊢
        rw [Option.elim] at hright ⊢
        subst hright
        exact replayOwnerWalk_honest hn ht hwire hverify (by omega) (by omega) hlt' h₁ hvisits horder
          hcheck
    generalize hr : (if isLeaf (node k i) then none else ibstRightChild (node k i) L.size).elim []
      (fun rc => L.ownerVisits start rmw fuel rc (L.timestamp (node k i)) rightTs) = right
      at hvisits horder hcheck walkRight ⊢
    by_cases hstart : node k i ≤ start
    · rw [if_pos hstart] at hvisits horder hcheck ⊢
      rw [List.append_cons] at hvisits horder ⊢
      obtain ⟨reader, hts, h₁⟩ := hs.stamp ht ((beginning_append_left before _ right).trans hvisits)
      rw [hts, Result.ok_bind]
      dsimp only
      rw [if_pos hstart]
      exact walkRight h₁ right rfl hvisits horder
        (hcheck.of_subset fun v hv => List.mem_cons_of_mem _ hv)
    · rw [if_neg hstart] at hvisits horder hcheck ⊢
      generalize hleft : (if isLeaf (node k i) then [] else L.ownerVisits start rmw fuel
        (leftChild (node k i)) leftTs (L.timestamp (node k i))) = left at hvisits horder hcheck ⊢
      have hsplit : done ++ Visit.stamp (node k i) :: (left ++ Visit.ladder (node k i)
          (L.ladderAt (node k i)) :: right) = done ++ [Visit.stamp (node k i)] ++ left ++
            [Visit.ladder (node k i) (L.ladderAt (node k i))] ++ right := by simp
      rw [hsplit] at hvisits horder ⊢
      have hvisits₃ := (beginning_append_left before _ right).trans hvisits
      have hvisits₂ := (beginning_append_left before _ _).trans hvisits₃
      have hvisits₁ := (beginning_append_left before _ left).trans hvisits₂
      have horder₃ := (versionsOf_beginning (List.prefix_append _ right)).trans horder
      have horder₂ := (versionsOf_beginning (List.prefix_append _ _)).trans horder₃
      obtain ⟨reader, hts, h₁⟩ := hs.stamp ht hvisits₁
      obtain ⟨s₂, hrun₂, h₂⟩ : ∃ s₂, (if isLeaf (node k i) then Except.ok { s with reader := reader }
          else c.replayOwnerWalk P label start L.size rmw bound binaryLadder fuel (leftChild (node k i))
            leftTs (L.timestamp (node k i)) { s with reader := reader }) = .ok s₂ ∧
          s₂.At P L proof order before (done ++ [Visit.stamp (node k i)] ++ left) := by
        rcases @leftChild_cases k i L.size hk64 hn hlt with hleaf | ⟨j, rfl, hleaf, hchild, hlt'⟩
        · rw [if_pos hleaf] at hleft
          rw [if_pos hleaf, ← hleft, List.append_nil]
          exact ⟨_, rfl, h₁⟩
        · simp only [hleaf, Bool.false_eq_true, if_false, hchild] at hleft ⊢
          subst hleft
          exact replayOwnerWalk_honest hn ht hwire hverify (by omega) (by omega) hlt' h₁ hvisits₂ horder₂
            (hcheck.of_subset fun v hv => List.mem_cons_of_mem _ (List.mem_append_left _ hv))
      have hmem : (node k i, L.ladderAt (node k i)) ∈ laddersOf (Visit.stamp (node k i) :: (left ++
          Visit.ladder (node k i) (L.ladderAt (node k i)) :: right)) :=
        List.mem_filterMap.2 ⟨.ladder _ _, by simp, rfl⟩
      have hstamped : node k i ∈ entriesOf (before ++ (done ++ [Visit.stamp (node k i)] ++ left)) :=
        mem_entriesOf.2 ⟨.stamp _, List.mem_append_right _ (List.mem_append_left _
          (List.mem_append_right _ List.mem_cons_self)), rfl⟩
      obtain ⟨pp, reader', ladders, entryRoots, hpp, hladder, hrecord, h₃⟩ := h₂.ownerLadder ht hwire
        hverify hvisits₃ hstamped (fun g hg => (hcheck _ hmem g hg).1) horder₃
      obtain ⟨s', hrun, h'⟩ := walkRight h₃ right rfl hvisits horder
        (hcheck.of_subset fun v hv => List.mem_cons_of_mem _ (List.mem_append_right _
          (List.mem_cons_of_mem _ hv)))
      refine ⟨s', ?_, h'⟩
      rw [hts, Result.ok_bind]
      dsimp only
      rw [if_neg hstart, hrun₂, Result.ok_bind, hpp, Result.ok_bind]
      dsimp only
      rw [hladder, Result.context_ok, Result.ok_bind]
      dsimp only
      rw [ensure_of fun g hg => (hcheck _ hmem g hg).2, Result.ok_bind, hrecord, Result.ok_bind]
      exact hrun

/-- The visits that every walk begins with. -/
def frontierVisits (n : ℕ) : List Visit := (getFrontier n).map .stamp

theorem entriesOf_stamps (entries : List ℕ) : entriesOf (entries.map .stamp) = firstSeen entries := by
  rw [entriesOf, List.map_map]
  exact congrArg firstSeen (List.map_id' _)

@[simp] theorem laddersOf_stamps (entries : List ℕ) : laddersOf (entries.map .stamp) = [] := by
  rw [laddersOf, List.filterMap_map]
  exact List.filterMap_eq_nil_iff.2 fun _ _ => rfl

/-- **A verifier begins with the frontier.** -/
theorem ProofReader.frontier_honest (ht : Transcript P L visits m proof)
    (hvisits : frontierVisits L.size <+: visits) :
    ∃ reader, (ProofReader.new proof).timestamps (getFrontier L.size) = .ok reader ∧
      reader.At L proof (entriesOf (frontierVisits L.size)) 0 := by
  have hentries := entriesOf_beginning hvisits
  rw [frontierVisits, entriesOf_stamps] at hentries ⊢
  exact (ProofReader.at_new L proof).timestamps ht hentries

/-- The visits of an owner's walk over the whole log. -/
def LabelLog.ownerWalk (L : LabelLog) (start rmw : ℕ) : List Visit :=
  L.ownerVisits start rmw 65 (LogMath.root L.size) 0 (L.timestamp (L.size - 1))

theorem last_mem_entriesOf (h₀ : 0 < L.size) (hn : L.size ≤ 2 ^ 62)
    (hvisits : frontierVisits L.size <+: visits) : L.size - 1 ∈ entriesOf visits := by
  refine (entriesOf_beginning hvisits).subset ?_
  rw [frontierVisits, entriesOf_stamps]
  exact mem_firstSeen.2 (last_mem_getFrontier h₀ hn)

/-- **An owner accepts** the proof of its walk, when it can follow the contact ladders
before it and check the ladders of the walk, and the steps are in the order of its
own lookups. -/
theorem KtClient.verifyOwnerMonitor_honest {env : Env} {map : OrderedMap ℕ} {start : ℕ}
    {greatestVersion : Option ℕ} {resp : OwnerMonitorResponse} {fth : FullTreeHead}
    {timestamp : Option U64} {updated : Bool} {contact : List Visit} (h₀ : 0 < L.size)
    (hn : L.size ≤ 2 ^ 62) (hfth : resp.fullTreeHead = some fth) (hproof : resp.monitor = some proof)
    (hsize : c.treeSizeForFth env fth = .ok (L.size, timestamp, updated))
    (hbounds : c.checkUpdatedBounds env updated timestamp = .ok ())
    (hhead : c.HeadOf P L m fth updated) (hverify : c.CanVerify P label L)
    (ht : Transcript P L (frontierVisits L.size ++ contact ++
      L.ownerWalk start c.config.reasonableMonitoringWindow) m proof)
    (hcontact : ∀ reader, reader.At L proof (entriesOf (frontierVisits L.size)) 0 →
      ∃ w, replayContactLadders P (c.versionMaterial label) map L.size
          c.config.reasonableMonitoringWindow reader (fun _ => none) = .ok w ∧
        (SearchState.mk w.reader (.new []) w.entryRoots).At P L proof order
          (frontierVisits L.size ++ contact) [])
    (hwire : L.Wire none (laddersOf (frontierVisits L.size ++ contact ++
      L.ownerWalk start c.config.reasonableMonitoringWindow)) order resp.binaryLadder)
    (hcheck : L.Checkable (greatestVersion.getD maxVersion)
      (L.ownerWalk start c.config.reasonableMonitoringWindow))
    (horder : versionsOf (L.ownerWalk start c.config.reasonableMonitoringWindow) <+: order)
    (hcount : resp.binaryLadder.length =
        (versionsOf (L.ownerWalk start c.config.reasonableMonitoringWindow)).length ∨
      versionsOf (L.ownerWalk start c.config.reasonableMonitoringWindow) = []) :
    ∃ head th retained, c.verifyOwnerMonitor P env label map start greatestVersion resp =
        .ok (L.data P (frontierVisits L.size ++ contact ++
          L.ownerWalk start c.config.reasonableMonitoringWindow),
          { c with retainedHead := th, state := some head, retainedSubtrees := retained }) ∧
      head.treeSize = L.size ∧ head.rootHash = logRoot P (L.leaves P) ∧
      RetainsPeaks P retained (L.leaves P) L.size := by
  have hfrontier : frontierVisits L.size <+: frontierVisits L.size ++ contact ++
      L.ownerWalk start c.config.reasonableMonitoringWindow := by
    rw [List.append_assoc]
    exact List.prefix_append _ _
  have hlast := last_mem_entriesOf h₀ hn hfrontier
  have hlastFrontier : L.size - 1 ∈ entriesOf (frontierVisits L.size) := by
    rw [frontierVisits, entriesOf_stamps]
    exact mem_firstSeen.2 (last_mem_getFrontier h₀ hn)
  obtain ⟨reader, hreader, hat⟩ := ProofReader.frontier_honest ht hfrontier
  obtain ⟨reader', hrightmost, hat'⟩ := hat.timestamp ht (e := L.size - 1)
    (by rw [appendNew_of_mem hlastFrontier]; exact entriesOf_beginning hfrontier)
  rw [appendNew_of_mem hlastFrontier] at hat'
  obtain ⟨w, hw, hwat⟩ := hcontact reader' hat'
  have hlog : Nat.log2 L.size < 64 := (Nat.log2_lt (by omega)).2 (by omega)
  have hroot : root L.size = node (Nat.log2 L.size) 0 := root_eq h₀ (by omega)
  have hwalk : ∃ s, c.replayOwnerWalk P label start L.size c.config.reasonableMonitoringWindow
      (greatestVersion.getD maxVersion) resp.binaryLadder 65 (root L.size) 0
        (L.timestamp (L.size - 1)) ⟨w.reader, .new [], w.entryRoots⟩ = .ok s ∧
      s.At P L proof order (frontierVisits L.size ++ contact)
        (L.ownerWalk start c.config.reasonableMonitoringWindow) := by
    have hlt := root_lt h₀ (by omega)
    rw [LabelLog.ownerWalk] at ht hwire hcheck horder ⊢
    rw [hroot] at hlt ht hwire hcheck horder ⊢
    exact replayOwnerWalk_honest hn ht hwire hverify (by omega) hlog hlt hwat List.prefix_rfl horder
      hcheck
  obtain ⟨s, hrun, hsat⟩ := hwalk
  obtain ⟨captured, head, th, retained, hcommit, hheadSize, hheadRoot, hretained⟩ :=
    finishAndCommit_honest hhead hn h₀ ht hlast hsat.reader hsat.roots []
  refine ⟨head, th, retained, ?_, hheadSize, hheadRoot, hretained⟩
  have hcount' : resp.binaryLadder.length = s.ladders.wireIndex.length ∨ s.ladders.wireIndex = [] := by
    rw [hsat.slots]
    exact hcount
  rw [verifyOwnerMonitor, hfth, okOr_some, Result.ok_bind, hproof, okOr_some, Result.ok_bind, hsize,
    Result.ok_bind]
  dsimp only
  rw [ensure_of (show L.size ≠ 0 by omega), Result.ok_bind, hbounds, Result.ok_bind, hreader,
    Result.ok_bind, hrightmost, Result.ok_bind]
  dsimp only
  rw [hw, Result.ok_bind, hrun, Result.ok_bind, ensure_of hcount', Result.ok_bind, hcommit,
    Result.ok_bind]
  rfl

end

end KeyTransparency
