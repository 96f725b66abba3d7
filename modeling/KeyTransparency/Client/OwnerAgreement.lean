/-
# An owner begins to monitor

A server answers an owner's first request with the ladders of the unexpired entries of a
walk (`Tree.traverseOwnerInit`).  The client follows this walk to the first expired entry
and asks for the timestamp of this one too (`LabelLog.initVisits`), which the server does
not visit: so it is accepted exactly when the frontier holds that entry already
(`owner_init_accepted_iff`).
-/

import KeyTransparency.Client.FixedSearch
import KeyTransparency.Client.HonestSearch
import KeyTransparency.Client.OwnerInit
import KeyTransparency.Client.OwnerLadder
import KeyTransparency.Tree.LabelEntry
import KeyTransparency.Tree.OwnerTraversal
import Mathlib.Data.List.Flatten

namespace KeyTransparency

open BinaryLadder InOrder LogMath MerkleLog

/-! ### What the server visits -/

namespace LabelLog

variable (L : LabelLog) (maximumLifetime : Option ℕ)

/-- The entries of a first walk over the given ones, up to the first expired one. -/
def walked (nodes : List ℕ) : List ℕ := nodes.takeWhile fun e => !L.expired maximumLifetime e

/-- The ladders that the server shows of these entries. -/
def shownVisits (nodes : List ℕ) : List Visit :=
  (L.walked maximumLifetime nodes).map fun e => .ladder e (L.ladderAt e)

/-- The visits of the client to the same entries, each to its timestamp first. -/
def walkedVisits (nodes : List ℕ) : List Visit :=
  (L.walked maximumLifetime nodes).flatMap fun e => [.stamp e, .ladder e (L.ladderAt e)]

variable {L maximumLifetime} {node e : ℕ} {nodes : List ℕ}

theorem walked_cons_of_expired (h : L.expired maximumLifetime node = true) :
    L.walked maximumLifetime (node :: nodes) = [] := List.takeWhile_cons_of_neg (by simp [h])

theorem walked_cons_of_unexpired (h : L.expired maximumLifetime node = false) :
    L.walked maximumLifetime (node :: nodes) = node :: L.walked maximumLifetime nodes :=
  List.takeWhile_cons_of_pos (by simp [h])

theorem mem_of_mem_walked (h : e ∈ L.walked maximumLifetime nodes) : e ∈ nodes :=
  (List.takeWhile_prefix _).subset h

/-- The client visits what was walked, and the expired entry at which this ended. -/
theorem initVisits_eq : ∀ nodes : List ℕ, L.initVisits maximumLifetime nodes =
    L.walkedVisits maximumLifetime nodes ++ ((nodes.find? (L.expired maximumLifetime)).toList.map .stamp)
  | [] => rfl
  | node :: nodes => by
    rw [initVisits, ← expired]
    by_cases h : L.expired maximumLifetime node = true
    · rw [if_pos h, walkedVisits, walked_cons_of_expired h, List.find?_cons_of_pos h]
      rfl
    · have h' : L.expired maximumLifetime node = false := by simpa using h
      rw [if_neg h, walkedVisits, walked_cons_of_unexpired h', List.find?_cons_of_neg h, initVisits_eq nodes]
      rfl

end LabelLog

section

variable {P : Primitives} {env : Env} {t : Tree} {c : KtClient} {label : Octets} {L : LabelLog} {m : ℕ}
  {proof : CombinedTreeProof} {order : List ℕ} {binaryLadder : List BinaryLadderStep}
  {visits visits' before done : List Visit} {maximumLifetime : Option ℕ}

/-- A combined proof depends on the entries and on the ladders of a walk. -/
theorem Transcript.congr (ht : Transcript P L visits m proof)
    (hentries : entriesOf visits' = entriesOf visits) (hladders : laddersOf visits' = laddersOf visits) :
    Transcript P L visits' m proof := by
  have hsorted : sortedEntries visits' = sortedEntries visits := by
    rw [sortedEntries, sortedEntries, hentries]
  constructor
  · rw [hentries]
    exact ht.bound
  · rw [hentries]
    exact ht.timestamps
  · rw [hladders]
    exact ht.proofs
  · rw [hsorted, hladders]
    exact ht.roots
  · rw [hsorted]
    exact ht.inclusion

theorem LabelLog.laddersOf_walkedVisits (nodes : List ℕ) :
    laddersOf (L.walkedVisits maximumLifetime nodes) = laddersOf (L.shownVisits maximumLifetime nodes) := by
  rw [walkedVisits, shownVisits]
  induction L.walked maximumLifetime nodes with
  | nil => rfl
  | cons e entries ih =>
    rw [List.flatMap_cons, List.map_cons, laddersOf_append, ih]
    rfl

/-- To read a timestamp first adds no entry. -/
theorem LabelLog.entriesOf_walkedVisits (before : List Visit) (nodes : List ℕ) :
    entriesOf (before ++ L.walkedVisits maximumLifetime nodes) =
      entriesOf (before ++ L.shownVisits maximumLifetime nodes) := by
  rw [entriesOf_append, entriesOf_append, walkedVisits, shownVisits]
  generalize entriesOf before = seen
  induction L.walked maximumLifetime nodes generalizing seen with
  | nil => rfl
  | cons e entries ih =>
    have htwice : firstSeenAfter seen ([Visit.stamp e, .ladder e (L.ladderAt e)].map Visit.entry) =
        appendNew seen e := appendNew_of_mem (mem_appendNew.2 (.inr rfl))
    rw [List.flatMap_cons, List.map_append, firstSeenAfter_append, htwice, ih]
    rfl

theorem LabelLog.laddersOf_initVisits (nodes : List ℕ) :
    laddersOf (L.initVisits maximumLifetime nodes) = laddersOf (L.shownVisits maximumLifetime nodes) := by
  rw [initVisits_eq, laddersOf_append, laddersOf_stamps, List.append_nil, laddersOf_walkedVisits]

/-- The expired entry adds nothing where it was visited before. -/
theorem LabelLog.entriesOf_initVisits {nodes : List ℕ}
    (hend : ∀ e ∈ nodes.find? (L.expired maximumLifetime), e ∈ entriesOf before) :
    entriesOf (before ++ L.initVisits maximumLifetime nodes) =
      entriesOf (before ++ L.shownVisits maximumLifetime nodes) := by
  rw [initVisits_eq, ← List.append_assoc, entriesOf_append, ← entriesOf_walkedVisits]
  refine firstSeenAfter_of_subset fun e he => ?_
  obtain ⟨visit, hvisit, rfl⟩ := List.mem_map.1 he
  obtain ⟨x, hx, rfl⟩ := List.mem_map.1 hvisit
  rw [entriesOf_append]
  exact (prefix_firstSeenAfter _ _).subset (hend x (Option.mem_toList.1 hx))

/-! ### The server's walk -/

/-- **The server's first walk** gathers the ladders of the unexpired entries. -/
theorem Tree.ownerInitLoop_honest (hs : t.Serves P label L) : ∀ {nodes : List ℕ}
    {versions : List (Option ℕ)} {visits : List Visit} {s : TraversalSession},
    nodes.Pairwise (· > ·) → (∀ e ∈ nodes, e < L.size) →
    (∀ prev ∈ versions.getLast?.join, ∀ e ∈ nodes, ∀ v ∈ L.greatest e, v ≤ prev) →
    s.Gathered P label L none visits →
    ∃ s', ownerInitLoop P t (t.store.history label) (L.timestamp (L.size - 1)) nodes versions s =
        .ok (versions ++ (L.walked t.config.maximumLifetime nodes).map L.greatest, s') ∧
      s'.Gathered P label L none (visits ++ L.shownVisits t.config.maximumLifetime nodes)
  | [], versions, visits, s, _, _, _, h => by
    refine ⟨s, ?_, ?_⟩
    · rw [LabelLog.walked, List.takeWhile_nil, List.map_nil, List.append_nil]
      rfl
    · rw [LabelLog.shownVisits, LabelLog.walked, List.takeWhile_nil, List.map_nil, List.append_nil]
      exact h
  | node :: nodes, versions, visits, s, hpair, hlt, hprev, h => by
    obtain ⟨hleft, hpair⟩ := List.pairwise_cons.1 hpair
    have hnode := hlt node List.mem_cons_self
    rw [ownerInitLoop, hs.timestamp node hnode, Result.ok_bind]
    by_cases hexpired : L.expired t.config.maximumLifetime node = true
    · refine ⟨s, ?_, ?_⟩
      · rw [if_pos (show t.isExpired (L.timestamp (L.size - 1)) (L.timestamp node) = true from hexpired),
          LabelLog.walked_cons_of_expired hexpired, List.map_nil, List.append_nil]
        rfl
      · rw [LabelLog.shownVisits, LabelLog.walked_cons_of_expired hexpired, List.map_nil, List.append_nil]
        exact h
    · have hexpired' : L.expired t.config.maximumLifetime node = false := by simpa using hexpired
      obtain ⟨s₁, hvisit, h₁⟩ : ∃ s₁, s.visit P t node (L.ladderAt node) none = .ok s₁ ∧
          s₁.Gathered P label L none (visits ++ [.ladder node (L.ladderAt node)]) := by
        obtain ⟨s₁, hvisit, h₁, -, -⟩ := h.visit_eq hs hnode (fun v hv => mem_ladder_path hv) (.inl rfl)
        exact ⟨s₁, hvisit, h₁⟩
      have hmono : ∀ prev ∈ versions.getLast?.join, ∀ v ∈ L.greatest node, v ≤ prev :=
        fun prev hp => hprev prev hp node List.mem_cons_self
      -- an entry further left holds no later version
      have hnext : ∀ prev ∈ (versions ++ [L.greatest node]).getLast?.join, ∀ e ∈ nodes,
          ∀ v ∈ L.greatest e, v ≤ prev := by
        intro prev hp e he v hv
        rw [List.getLast?_concat, Option.join_some] at hp
        obtain ⟨g', hg', hle⟩ := L.growing (hleft e he).le hnode hv
        rw [hg'] at hp
        exact hle.trans (Option.some.inj hp).le
      obtain ⟨s', hrun, h'⟩ := ownerInitLoop_honest hs hpair (fun e he => hlt e (List.mem_cons_of_mem _ he))
        hnext h₁
      refine ⟨s', ?_, ?_⟩
      · rw [if_neg (show ¬t.isExpired (L.timestamp (L.size - 1)) (L.timestamp node) = true from hexpired)]
        dsimp only
        rw [hs.greatest node hnode, ensure_of hmono, Result.ok_bind, L.ownerLadder_eq, hvisit,
          Result.ok_bind, hrun, LabelLog.walked_cons_of_unexpired hexpired',
          List.map_cons, List.append_assoc]
        rfl
      · rw [LabelLog.shownVisits, LabelLog.walked_cons_of_unexpired hexpired', List.map_cons,
          List.append_cons]
        exact h'

/-! ### The client's walk -/

/-- **A proof is used up** when every entry of its walk is read. -/
theorem ProofReader.At.exhausted {r : ProofReader} {k e : ℕ} (h : r.At L proof (entriesOf visits) k)
    (ht : Transcript P L visits m proof) {out : U64 × ProofReader} (hread : r.timestamp e = .ok out) :
    e ∈ entriesOf visits := by
  by_contra hmem
  have hget : r.assignedTs.get e = none := by rw [h.assigned, if_neg hmem]
  have hnext : r.proof.timestamps[r.tsIdx]? = none := by
    rw [h.proof, h.tsIdx, ht.timestamps, List.getElem?_eq_none]
    rw [List.length_map]
  rw [ProofReader.timestamp, hget] at hread
  dsimp only at hread
  rw [hnext] at hread
  cases hread

/-- **A first walk that the client follows** reveals its versions, and the entry that ends
it was read with the others. -/
theorem KtClient.ownerInitWalk_accepted (ht : Transcript P L visits m proof)
    (hwire : L.Wire none (laddersOf visits) order binaryLadder) (hverify : c.CanVerify P label L) :
    ∀ {nodes : List ℕ} {prevVer : Option ℕ} {count : ℕ} {done : List Visit} {s : SearchState}
      {r : ℕ × SearchState}, (∀ e ∈ nodes, e < L.size) → s.At P L proof order before done →
      visits = before ++ (done ++ L.walkedVisits c.config.maximumLifetime nodes) →
      versionsOf (done ++ L.walkedVisits c.config.maximumLifetime nodes) <+: order →
      c.ownerInitWalk P label binaryLadder (L.timestamp (L.size - 1)) nodes prevVer count s = .ok r →
      (∀ e ∈ L.walked c.config.maximumLifetime nodes, ∀ g ∈ L.greatest e, g ≤ 8) ∧
        ∀ e ∈ nodes.find? (L.expired c.config.maximumLifetime), e ∈ entriesOf visits
  | [], prevVer, count, done, s, r, _, _, _, _, _ => ⟨fun e he => (by cases he), fun e he => (by cases he)⟩
  | node :: nodes, prevVer, count, done, s, r, hlt, hs, hvisits, horder, h => by
    have hnode := hlt node List.mem_cons_self
    obtain ⟨⟨ts, reader⟩, hts, h⟩ := Result.bind_eq_ok.1 h
    by_cases hexpired : L.expired c.config.maximumLifetime node = true
    · rw [LabelLog.walked_cons_of_expired hexpired, List.find?_cons_of_pos hexpired]
      refine ⟨fun e he => (by cases he), fun e he => ?_⟩
      obtain rfl := Option.some.inj he
      rw [LabelLog.walkedVisits, LabelLog.walked_cons_of_expired hexpired, List.flatMap_nil,
        List.append_nil] at hvisits
      subst hvisits
      exact hs.reader.exhausted ht hts
    · have hexpired' : L.expired c.config.maximumLifetime node = false := by simpa using hexpired
      rw [LabelLog.walked_cons_of_unexpired hexpired', List.find?_cons_of_neg hexpired]
      have hsplit : done ++ L.walkedVisits c.config.maximumLifetime (node :: nodes) =
          done ++ [Visit.stamp node] ++ [Visit.ladder node (L.ladderAt node)] ++
            L.walkedVisits c.config.maximumLifetime nodes := by
        rw [LabelLog.walkedVisits, LabelLog.walked_cons_of_unexpired hexpired', List.flatMap_cons,
          List.append_assoc, List.append_assoc]
        rfl
      rw [hsplit] at hvisits horder
      have hvisits₂ : before ++ (done ++ [Visit.stamp node] ++ [Visit.ladder node (L.ladderAt node)]) <+:
          visits := hvisits ▸ beginning_append_left before _ _
      have hvisits₁ := (beginning_append_left before _ _).trans hvisits₂
      have horder₂ := (versionsOf_beginning (List.prefix_append _ _)).trans horder
      obtain ⟨reader₁, hts₁, h₁⟩ := hs.stamp ht hvisits₁
      obtain ⟨rfl, rfl⟩ := Prod.mk.inj (Except.ok.inj (hts₁.symm.trans hts))
      dsimp only at h
      rw [if_neg (show ¬isExpired c.config.maximumLifetime (L.timestamp (L.size - 1))
        (L.timestamp node) = true from hexpired)] at h
      have hstamped : node ∈ entriesOf (before ++ (done ++ [Visit.stamp node])) :=
        mem_entriesOf.2 ⟨.stamp node, by simp, rfl⟩
      have hsmall : ∀ g ∈ L.greatest node, g ≤ 8 := by
        intro g hg
        by_contra hlarge
        rw [← List.append_assoc] at hvisits₂
        have hget := laddersOf_getElem? hvisits₂
        obtain ⟨pp, reader₂, hpp, -, hproves⟩ := h₁.reader.prefixProof ht hget
        rw [hpp, Result.ok_bind] at h
        obtain ⟨out, hladder, -⟩ := Result.bind_eq_ok.1 h
        exact verifyOwnerLadder_large hnode hg (by omega) hproves out (Result.context_eq_ok.1 hladder)
      obtain ⟨pp, reader₂, ladders, entryRoots, hpp, hladder, hrecord, h₂⟩ := h₁.ownerLadder ht hwire
        hverify hvisits₂ hstamped hsmall horder₂
      dsimp only at hpp
      rw [hpp, Result.ok_bind] at h
      dsimp only at h
      rw [hladder, Result.context_ok, Result.ok_bind] at h
      dsimp only at h
      obtain ⟨⟨⟩, -, h⟩ := Result.bind_eq_ok.1 h
      rw [hrecord, Result.ok_bind] at h
      obtain ⟨hrest, hend⟩ := ownerInitWalk_accepted ht hwire hverify
        (fun e he => hlt e (List.mem_cons_of_mem _ he)) h₂ hvisits horder h
      refine ⟨fun e he => ?_, hend⟩
      rcases List.mem_cons.1 he with rfl | he
      · exact hsmall
      · exact hrest e he

/-! ### The first walk -/

/-- What the versions of a walk are: descending. -/
theorem LabelLog.isChain_walked {nodes : List ℕ} (hpair : nodes.Pairwise (· > ·))
    (hlt : ∀ e ∈ nodes, e < L.size) :
    ((L.walked maximumLifetime nodes).filterMap L.greatest).IsChain (· ≥ ·) := by
  have hwalked := hpair.sublist (List.takeWhile_sublist fun e => !L.expired maximumLifetime e)
  refine List.Pairwise.isChain (List.pairwise_filterMap.2 (hwalked.imp_of_mem ?_))
  intro e e' he he' hlt' g hg g' hg'
  obtain ⟨g'', hg'', hle⟩ := L.growing (le_of_lt hlt') (hlt e (LabelLog.mem_of_mem_walked he)) hg'
  obtain rfl := Option.some.inj (hg''.symm.trans hg)
  exact hle

/-- **What the server answers** to an owner that begins to monitor. -/
theorem Tree.traverseOwnerInit_honest (hs : t.Serves P label L) (hauditors : t.auditors = [])
    (hn : L.size ≤ 2 ^ 62) (hm : m ≤ L.size) {start : ℕ} (hstart : start < L.size) :
    ∃ proof steps, traverseOwnerInit P t L.size label start m = .ok (proof, steps,
        (L.walked t.config.maximumLifetime (ownerInitList start L.size)).filterMap L.greatest) ∧
      Transcript P L (frontierVisits L.size ++
        L.shownVisits t.config.maximumLifetime (ownerInitList start L.size)) m proof ∧
      L.Wire none (laddersOf (frontierVisits L.size ++
          L.shownVisits t.config.maximumLifetime (ownerInitList start L.size)))
        (versionsOf (L.shownVisits t.config.maximumLifetime (ownerInitList start L.size))) steps ∧
      steps.length =
        (versionsOf (L.shownVisits t.config.maximumLifetime (ownerInitList start L.size))).length := by
  have h₀ : 0 < L.size := by omega
  have hladders : ∀ visits, laddersOf (frontierVisits L.size ++ visits) = laddersOf visits := fun visits => by
    rw [laddersOf_append, frontierVisits, laddersOf_stamps, List.nil_append]
  obtain ⟨s₁, hrun₁, h₁, -, -⟩ := (TraversalSession.gathered_new P label L none).visitAll
    hs.servesLog fun e (he : e ∈ getFrontier L.size) => mem_getFrontier_lt hn he
  obtain ⟨s₂, hrun₂, h₂⟩ := ownerInitLoop_honest hs (pairwise_ownerInitList start L.size)
    (fun e he => ownerInitList_lt (by omega) hstart he)
    (fun prev (hprev : prev ∈ ([] : List (Option ℕ)).getLast?.join) => by cases hprev) h₁
  obtain ⟨proof, hfinal, htranscript⟩ := h₂.finalize hs hauditors h₀ hn hm
  have hvisits : ([] : List Visit) ++ (getFrontier L.size).map Visit.stamp = frontierVisits L.size := rfl
  rw [hvisits] at htranscript h₂
  have hwire := h₂.steps.wire
  have hversions := h₂.steps.versions
  rw [hladders] at hwire hversions
  refine ⟨proof, s₂.ladder, ?_, htranscript, by rw [hladders]; exact hwire, ?_⟩
  · unfold traverseOwnerInit
    dsimp only
    rw [hs.timestamp _ (by omega), Result.ok_bind, TraversalSession.visitFrontier, hrun₁, Result.ok_bind,
      hrun₂, Result.ok_bind]
    dsimp only
    rw [hfinal, Result.ok_bind, List.nil_append, List.filterMap_map]
    rfl
  · rw [versionsOf, ← hversions, List.length_map]
    exact List.length_map _

/-- **A client of a log stays one** when the head that it takes over is the log's. -/
theorem KtClient.ClientOf.next {server : PrivateConfig} {leaves : List Octets} {r : Response}
    {data : List LeafData} {c' : KtClient} {head : TrustedState} (hc : c.ClientOf P server leaves)
    (h : Accepted P env c r data c') (hstate : c'.state = some head)
    (hsize : head.treeSize = leaves.length) (hroot : head.rootHash = logRoot P leaves) :
    c'.ClientOf P server leaves := by
  obtain ⟨config, c₀, hnew, hknows, run⟩ := hc.reached
  refine ⟨⟨config, c₀, hnew, hknows, run.tail ⟨env, _, _, trivial, h⟩⟩, fun prev hprev => ?_⟩
  obtain rfl : head = prev := Option.some.inj (hstate.symm.trans hprev)
  exact ⟨hsize.le, by rw [hroot, hsize, List.take_length]⟩

section

variable {H : U64} {steps : List BinaryLadderStep} {start : ℕ}

/-- What the server shows an owner that begins to monitor. -/
def LabelLog.firstWalk (L : LabelLog) (maximumLifetime : Option ℕ) (start : ℕ) : List Visit :=
  L.shownVisits maximumLifetime (ownerInitList start L.size)

/-- What an owner is answered to its first request. -/
def Tree.ownerInitAnswer (t : Tree) (L : LabelLog) (maximumLifetime : Option ℕ) (start : ℕ)
    (last : Option ℕ) (steps : List BinaryLadderStep) (proof : CombinedTreeProof) : OwnerInitResponse :=
  ⟨some (t.getFullTreeHead last),
    (L.walked maximumLifetime (ownerInitList start L.size)).filterMap L.greatest, steps, some proof⟩

/-- **What an owner accepts** of the answers to its first request: no entry of the walk
holds a version beyond 8, and the expired entry that ends it was read with the frontier. -/
theorem KtClient.verifyOwnerInit_returns
    (hmeets : c.Meets P env t L m H) (hsize : t.treeSize = L.size) (hn : L.size ≤ 2 ^ 62)
    (hstart : start < L.size) (hverify : c.CanVerify P label L)
    (ht : Transcript P L (frontierVisits L.size ++ L.firstWalk c.config.maximumLifetime start) m proof)
    (hwire : L.Wire none (laddersOf (frontierVisits L.size ++ L.firstWalk c.config.maximumLifetime start))
      (versionsOf (L.firstWalk c.config.maximumLifetime start)) steps) {r : List LeafData × KtClient}
    (h : c.verifyOwnerInit P env label start (t.ownerInitAnswer L c.config.maximumLifetime start
      (c.state.map TrustedState.treeSize) steps proof) = .ok r) :
    (∀ e ∈ L.walked c.config.maximumLifetime (ownerInitList start L.size), ∀ g ∈ L.greatest e, g ≤ 8) ∧
      ∀ e ∈ (ownerInitList start L.size).find? (L.expired c.config.maximumLifetime),
        e ∈ getFrontier L.size := by
  have h₀ : 0 < L.size := by omega
  -- to read a timestamp before each ladder changes nothing of the proof
  have hentries := @LabelLog.entriesOf_walkedVisits L c.config.maximumLifetime (frontierVisits L.size)
    (ownerInitList start L.size)
  have hladders : laddersOf (frontierVisits L.size ++
        L.walkedVisits c.config.maximumLifetime (ownerInitList start L.size)) =
      laddersOf (frontierVisits L.size ++ L.firstWalk c.config.maximumLifetime start) := by
    rw [laddersOf_append, laddersOf_append, LabelLog.laddersOf_walkedVisits]
    rfl
  have hversions : versionsOf (L.walkedVisits c.config.maximumLifetime (ownerInitList start L.size)) =
      versionsOf (L.firstWalk c.config.maximumLifetime start) := by
    rw [versionsOf, LabelLog.laddersOf_walkedVisits]
    rfl
  have ht' := ht.congr hentries hladders
  rw [← hladders, ← hversions] at hwire
  obtain ⟨reader, hreader, hat⟩ := ProofReader.frontier_honest ht' (List.prefix_append _ _)
  have hlast := last_mem_entriesOf h₀ hn (List.prefix_refl (frontierVisits L.size))
  obtain ⟨reader', hrightmost, hat'⟩ := hat.timestamp ht' (e := L.size - 1) (by
    rw [appendNew_of_mem hlast]
    exact entriesOf_beginning (List.prefix_append _ _))
  rw [appendNew_of_mem hlast] at hat'
  have hs : (SearchState.mk reader' (.new []) fun _ => none).At P L proof
      (versionsOf (L.walkedVisits c.config.maximumLifetime (ownerInitList start L.size)))
      (frontierVisits L.size) [] := by
    refine ⟨?_, fun e => ?_, rfl, List.nil_prefix, fun v out hout => by cases hout⟩
    · rw [List.append_nil, frontierVisits, laddersOf_stamps]
      exact hat'
    · rw [List.append_nil, frontierVisits, laddersOf_stamps]
      rfl
  unfold verifyOwnerInit Tree.ownerInitAnswer at h
  dsimp only at h
  rw [okOr_some, Result.ok_bind, okOr_some, Result.ok_bind, hmeets.treeSizeForFth_eq hsize h₀,
    Result.ok_bind] at h
  dsimp only at h
  rw [ensure_of ⟨h₀.ne', hstart⟩, Result.ok_bind, hmeets.checkUpdatedBounds_eq, Result.ok_bind] at h
  obtain ⟨⟨⟩, -, h⟩ := Result.bind_eq_ok.1 h
  rw [hreader, Result.ok_bind, hrightmost, Result.ok_bind] at h
  dsimp only at h
  obtain ⟨walk, hwalk, -⟩ := Result.bind_eq_ok.1 h
  obtain ⟨hsmall, hend⟩ := ownerInitWalk_accepted ht' hwire hverify
    (fun e he => ownerInitList_lt (by omega) hstart he) hs (by rw [List.nil_append])
    (by rw [List.nil_append]) hwalk
  refine ⟨hsmall, fun e he => ?_⟩
  -- the expired entry is none of those walked, so that it lies on the frontier
  have hmem := hend e he
  rw [hentries] at hmem
  obtain ⟨visit, hvisit, rfl⟩ := mem_entriesOf.1 hmem
  rcases List.mem_append.1 hvisit with hvisit | hvisit
  · obtain ⟨f, hf, rfl⟩ := List.mem_map.1 hvisit
    exact hf
  · obtain ⟨e', he', rfl⟩ := List.mem_map.1 hvisit
    have hexpired := List.find?_some he
    have hunexpired := List.mem_takeWhile_imp he'
    rw [Bool.not_eq_true'] at hunexpired
    exact absurd (hexpired.symm.trans hunexpired) (by decide)

/-- **Such an answer is accepted**, and its head is the log's. -/
theorem KtClient.verifyOwnerInit_accepts
    (hmeets : c.Meets P env t L m H) (hmode : c.config.mode ≠ deploymentModeThirdPartyAuditing)
    (hsize : t.treeSize = L.size) (hn : L.size ≤ 2 ^ 62) (hstart : start < L.size)
    (hverify : c.CanVerify P label L)
    (ht : Transcript P L (frontierVisits L.size ++ L.firstWalk c.config.maximumLifetime start) m proof)
    (hwire : L.Wire none (laddersOf (frontierVisits L.size ++ L.firstWalk c.config.maximumLifetime start))
      (versionsOf (L.firstWalk c.config.maximumLifetime start)) steps)
    (hlength : steps.length = (versionsOf (L.firstWalk c.config.maximumLifetime start)).length)
    (hsmall : ∀ e ∈ L.walked c.config.maximumLifetime (ownerInitList start L.size),
      ∀ g ∈ L.greatest e, g ≤ 8)
    (hend : ∀ e ∈ (ownerInitList start L.size).find? (L.expired c.config.maximumLifetime),
      e ∈ getFrontier L.size) :
    ∃ data c' head, c.verifyOwnerInit P env label start (t.ownerInitAnswer L c.config.maximumLifetime start
        (c.state.map TrustedState.treeSize) steps proof) = .ok (data, c') ∧
      c'.state = some head ∧ head.treeSize = L.size ∧ head.rootHash = logRoot P (L.leaves P) := by
  have h₀ : 0 < L.size := by omega
  have hlt : ∀ e ∈ ownerInitList start L.size, e < L.size :=
    fun e he => ownerInitList_lt (by omega) hstart he
  have hshown : L.firstWalk c.config.maximumLifetime start =
    L.shownVisits c.config.maximumLifetime (ownerInitList start L.size) := rfl
  rw [hshown] at ht hwire hlength
  have hentries : entriesOf (frontierVisits L.size ++
        L.initVisits c.config.maximumLifetime (ownerInitList start L.size)) =
      entriesOf (frontierVisits L.size ++
        L.shownVisits c.config.maximumLifetime (ownerInitList start L.size)) :=
    LabelLog.entriesOf_initVisits fun e he =>
      mem_entriesOf.2 ⟨.stamp e, List.mem_map_of_mem (hend e he), rfl⟩
  have hladders := @LabelLog.laddersOf_initVisits L c.config.maximumLifetime (ownerInitList start L.size)
  have hladders' : laddersOf (frontierVisits L.size ++
        L.initVisits c.config.maximumLifetime (ownerInitList start L.size)) =
      laddersOf (frontierVisits L.size ++
        L.shownVisits c.config.maximumLifetime (ownerInitList start L.size)) := by
    rw [laddersOf_append, laddersOf_append, hladders]
  have hversions : versionsOf (L.initVisits c.config.maximumLifetime (ownerInitList start L.size)) =
      versionsOf (L.shownVisits c.config.maximumLifetime (ownerInitList start L.size)) := by
    rw [versionsOf, versionsOf, hladders]
  have hcheck : L.Checkable maxVersion
      (L.initVisits c.config.maximumLifetime (ownerInitList start L.size)) := by
    intro l hl g hg
    rw [hladders] at hl
    obtain ⟨visit, hvisit, hl⟩ := List.mem_filterMap.1 hl
    obtain ⟨e, he, rfl⟩ := List.mem_map.1 hvisit
    obtain rfl := Option.some.inj hl
    exact ⟨hsmall e he g hg, L.small (hlt e (LabelLog.mem_of_mem_walked he)) hg⟩
  rw [← hladders', ← hversions] at hwire
  obtain ⟨head, th, retained, hverified, hheadSize, hheadRoot⟩ :=
    @verifyOwnerInit_honest P L m proof _ c label env start (t.ownerInitAnswer L c.config.maximumLifetime start
      (c.state.map TrustedState.treeSize) steps proof) _ _ _ hn hstart rfl rfl
      (hmeets.treeSizeForFth_eq hsize h₀) (hmeets.checkUpdatedBounds_eq _) (hmeets.headOf hmode hsize h₀)
      hverify (ht.congr hentries hladders') hwire hcheck List.prefix_rfl
      (hlength.trans (congrArg List.length hversions.symm))
      (LabelLog.isChain_walked (pairwise_ownerInitList start L.size) hlt) rfl
  exact ⟨_, _, head, hverified, rfl, hheadSize, hheadRoot⟩

end

/-- The configuration that a client has of its log's server. -/
theorem KtClient.Knows.lifetime_eq {server : PrivateConfig} (hc : c.Knows P server) :
    c.config.maximumLifetime = server.maximumLifetime := by
  rw [hc.config]
  rfl

/-- **When an owner can begin to monitor.**  An honest server answers the request of a
client of its log with the greatest versions at the unexpired entries of the walk.  The
client accepts this exactly when none of them is beyond 8, since the target of a longer
ladder cannot be told from it, and the first expired entry of the walk, where there is
one, is on the frontier: the server ends its walk before it visits this entry, while the
client asks for its timestamp to find out that it is expired. -/
theorem owner_init_accepted_iff {epochs : List Epoch} {start : ℕ} (hP : Function.Injective P.sha256)
    (h : HonestLog P t epochs) (hmode : t.config.mode = deploymentModeContactMonitoring)
    (hauditors : t.auditors = []) (hlabel : label.length < 256)
    (hdist : Distinct P t.config epochs label) (hc : c.ClientOf P t.config (leavesOf P epochs))
    (hclock : c.checkTimestampBounds env (c.headTimestamp t) = .ok ()) (hstart : start < epochs.length) :
    ∃ resp, t.ownerInit P ⟨c.state.map TrustedState.treeSize, label, start⟩ = .ok resp ∧
      resp.greatestVersions =
        (h.labelLog hlabel hdist).contiguous.initVersions t.config.maximumLifetime start ∧
      ((∃ data c', Accepted P env c (.ownerInit label start resp) data c') ↔
        (∀ v ∈ resp.greatestVersions, v ≤ 8) ∧
          ∀ e ∈ (ownerInitList start epochs.length).find?
            ((h.labelLog hlabel hdist).expired t.config.maximumLifetime), e ∈ getFrontier epochs.length) ∧
      ∀ data c', Accepted P env c (.ownerInit label start resp) data c' →
        c'.ClientOf P t.config (leavesOf P epochs) := by
  have h₀ : 0 < epochs.length := by omega
  have hn := h.run.size_le
  have hs := h.serves hlabel hdist fun _ => false
  rw [Tree.without_none] at hs
  have hmode' : t.config.mode ≠ deploymentModeThirdPartyAuditing := by rw [hmode]; decide
  have hmeets := hc.meets hP h hauditors hmode' hlabel hdist h₀ hclock
  have hconfig : c.config.mode ≠ deploymentModeThirdPartyAuditing := by
    rw [hc.knows.config]
    exact hmode'
  have hverify := hc.knows.canVerify h hlabel hdist
  have hlen := (h.labelLog hlabel hdist).length_leaves P
  have hleaves := h.leaves_eq hlabel hdist
  obtain ⟨proof, steps, htraverse, ht, hwire, hlength⟩ := Tree.traverseOwnerInit_honest hs hauditors hn
    hmeets.known hstart
  rw [← hc.knows.lifetime_eq] at htraverse ht hwire hlength ⊢
  have haccepts := KtClient.verifyOwnerInit_accepts hmeets hconfig hs.size hn hstart hverify ht hwire hlength
  have hreturns := @KtClient.verifyOwnerInit_returns P env t c label _ _ proof _ _ start hmeets hs.size hn
    hstart hverify ht hwire
  refine ⟨t.ownerInitAnswer (h.labelLog hlabel hdist) c.config.maximumLifetime start
    (c.state.map TrustedState.treeSize) steps proof, ?_, rfl, ⟨?_, ?_⟩, ?_⟩
  · have hmonitored : t.monitoredTreeSize = .ok epochs.length := by
      rw [Tree.monitoredTreeSize, if_neg (show ¬t.treeSize = 0 from hs.size.trans_ne h₀.ne')]
      exact congrArg _ hs.size
    rw [Tree.ownerInit, hmonitored, Result.ok_bind]
    dsimp only
    have hlast : Tree.traverseOwnerInit P t epochs.length label start
      ((c.state.map TrustedState.treeSize).getD 0) = _ := htraverse
    rw [if_neg (by omega), hlast, Result.ok_bind]
    rfl
  · rintro ⟨data, c', haccepted⟩
    cases haccepted with
    | ownerInit h' =>
      obtain ⟨hsmall, hend⟩ := hreturns h'
      refine ⟨fun v hv => ?_, hend⟩
      obtain ⟨e, he, hg⟩ := List.mem_filterMap.1 hv
      exact hsmall e he v hg
  · rintro ⟨hsmall, hend⟩
    obtain ⟨data, c', head, hverified, -⟩ := haccepts
      (fun e he g hg => hsmall g (List.mem_filterMap.2 ⟨e, he, hg⟩)) hend
    exact ⟨data, c', .ownerInit hverified⟩
  · intro data c' haccepted
    cases haccepted with
    | ownerInit h' =>
      obtain ⟨hsmall, hend⟩ := hreturns h'
      obtain ⟨data', c'', head, hverified, hstate, hheadSize, hheadRoot⟩ := haccepts hsmall hend
      obtain ⟨rfl, rfl⟩ := Prod.mk.inj (Except.ok.inj (hverified.symm.trans h'))
      rw [hleaves] at hheadRoot hlen
      exact hc.next (.ownerInit h') hstate (hheadSize.trans hlen.symm) hheadRoot

end

/-! ### A sample owner -/

/-- A sample client is one of every log of the sample server. -/
theorem sampleClient_clientOf {t : Tree} {window : ℕ} (hconfig : t.config = sampleServerConfig window)
    (leaves : List Octets) : (sampleClient window).ClientOf Primitives.ideal t.config leaves :=
  ⟨⟨_, _, withChannel_sampleClient window, hconfig ▸ sampleClient_knows window, .refl⟩, fun prev hprev => by
    cases hprev⟩

/-- A client without a clock takes every timestamp. -/
theorem KtClient.checkTimestampBounds_clockless (c : KtClient) (ts : U64) :
    c.checkTimestampBounds ⟨none, fun _ => .ok ()⟩ ts = .ok () := by
  refine KtClient.checkTimestampBounds_eq_ok.2 ?_
  rw [Option.getD_none, saturatingAdd, saturatingAdd]
  omega

/-- No version of a planned log is beyond the number of its updates. -/
theorem HonestLog.greatest_planned {P : Primitives} {t : Tree} {epochs : List Epoch} {label : Octets}
    {plan : List (U64 × List Octets)} {e v : ℕ} (h : HonestLog P t epochs) (hlabel : label.length < 256)
    (hdist : Distinct P t.config epochs label) (hplan : epochs.map Epoch.planned = plan)
    (hv : (h.labelLog hlabel hdist).greatest e = some v) : v < (plan.flatMap Prod.snd).length := by
  have hcount : versionCount epochs label e ≤ (plan.flatMap Prod.snd).length := by
    rw [versionCount_planned, hplan]
    refine List.count_le_length.trans (List.Sublist.length_le ?_)
    exact (List.take_sublist _ _).flatMap Prod.snd
  have hlast : lastVersion (versionCount epochs label e) = some v := hv
  cases hc : versionCount epochs label e with
  | zero => rw [hc] at hlast; cases hlast
  | succ count =>
    rw [hc] at hlast hcount
    obtain rfl := Option.some.inj hlast
    exact hcount

/-- A client without a head begins to monitor a label of two versions. -/
theorem owner_init_accepted_renewed : ∃ (t : Tree) (env : Env) (resp : OwnerInitResponse)
    (data : List LeafData) (c' : KtClient), t.ownerInit Primitives.ideal ⟨none, [], 1⟩ = .ok resp ∧
      Accepted Primitives.ideal env (sampleClient 15) (.ownerInit [] 1 resp) data c' := by
  obtain ⟨t, epochs, h, hconfig, hauditors, hplan, hdist, -⟩ := exists_plannedLog 15 renewedPlan
    (by decide) (by decide) (by decide) (by decide) (by decide)
  have hlength : epochs.length = 2 := by
    have hplanned := congrArg List.length hplan
    rwa [List.length_map] at hplanned
  have hlabel : ([] : Octets).length < 256 := by decide
  have hlifetime : t.config.maximumLifetime = none := by rw [hconfig]; rfl
  obtain ⟨resp, hinit, hversions, haccepted, -⟩ := owner_init_accepted_iff
    Primitives.ideal_sha256_injective h (by rw [hconfig]; rfl) hauditors hlabel hdist
    (sampleClient_clientOf hconfig _) (KtClient.checkTimestampBounds_clockless _ _) (show 1 < epochs.length by omega)
  obtain ⟨data, c', haccepted⟩ := haccepted.2 ⟨fun v hv => by
    rw [hversions] at hv
    obtain ⟨e, -, hv⟩ := List.mem_filterMap.1 hv
    have hlt : v < (renewedPlan.flatMap Prod.snd).length := h.greatest_planned hlabel hdist hplan hv
    have htwo : (renewedPlan.flatMap Prod.snd).length = 3 := rfl
    omega, fun e he => by
    have hexpired := List.find?_some he
    rw [hlifetime] at hexpired
    cases hexpired⟩
  exact ⟨t, _, resp, data, c', hinit, haccepted⟩

end KeyTransparency
