/-
# The auditor's size as a boundary of inclusion proofs

In third-party-auditing mode a client also derives the log root at the size of the
auditor's head.  The server descends along the path to the last leaf of that size;
the client descends to the leaves it visits and no others.  They agree exactly when
the client visits that leaf or its sibling (`auditor_boundary_iff`).
-/

import KeyTransparency.Client.Accumulator
import KeyTransparency.Client.Head
import KeyTransparency.Client.InclusionAgreement
import KeyTransparency.Tree.Frontier
import KeyTransparency.Tree.HistoricalRoot
import KeyTransparency.Tree.Read

namespace KeyTransparency

open LogMath InOrder MerkleLog

/-! ### Descending alike -/

/-- The last entry of the auditor's size is visited, or its sibling is. -/
def BoundaryVisited (visited : List ℕ) (a : ℕ) : Prop := ∃ p ∈ visited, p / 2 = (a - 1) / 2

instance (visited : List ℕ) (a : ℕ) : Decidable (BoundaryVisited visited a) := by
  unfold BoundaryVisited
  infer_instance

section

variable {P : Primitives} {visited : List ℕ} {leaves : List Octets} {a m n : ℕ}

theorem LogTree.descends_of_above {k i : ℕ} (h : above visited k i = true) :
    LogTree.descends visited [a] n k i = true := by
  rw [LogTree.descends, h, Bool.true_or]

/-- Off the path to the boundary's leaf, the server descends where the client does. -/
theorem LogTree.descends_off_path {k i : ℕ} (h : (a - 1) / 2 ^ k ≠ i) :
    LogTree.descends visited [a] n k i = above visited k i := by
  simp [LogTree.descends, h]

/-- With the leaf or its sibling visited, the server descends where the client does. -/
theorem BoundaryVisited.descends_eq (h : BoundaryVisited visited a) :
    LogTree.descends visited [a] n = above visited := by
  funext k i
  by_cases hk : (a - 1) / 2 ^ k = i
  · rcases Nat.eq_zero_or_pos k with rfl | hpos
    · simp [LogTree.descends]
    · obtain ⟨p, hp, hpa⟩ := h
      have habove : above visited k i = true := by
        refine above_iff.2 ⟨p, hp, ?_⟩
        obtain ⟨k, rfl⟩ := Nat.exists_eq_succ_of_ne_zero hpos.ne'
        rw [← hk, Nat.succ_eq_add_one, Nat.pow_succ', ← Nat.div_div_eq_div_mul,
          ← Nat.div_div_eq_div_mul, hpa]
      rw [LogTree.descends_of_above habove, habove]
  · exact LogTree.descends_off_path hk

/-- The peaks of a smaller log are among the nodes that the client reaches. -/
theorem BoundaryVisited.mem_walk (h : BoundaryVisited visited a) (h₀ : 0 < a) (ha : a < n) {k i : ℕ}
    (hc : (k, i) ∈ peaks a) : (k, i) ∈ walk n (above visited) (height n) 0 := by
  obtain ⟨h₁, -, h₂⟩ := mem_peaksFrom hc
  have hn := le_two_pow_height n
  have := Nat.two_pow_pos k
  have e : (i + 1) * 2 ^ k = i * 2 ^ k + 2 ^ k := Nat.add_one_mul _ _
  refine (mem_walk_above (by omega)).2 (.inr ⟨?_, by omega, by omega, by omega, ?_⟩)
  · exact (Nat.pow_lt_pow_iff_right (by omega : 1 < 2)).1 (show 2 ^ k < 2 ^ height n by omega)
  · obtain ⟨p, hp, hpa⟩ := h
    refine above_iff.2 ⟨p, hp, ?_⟩
    rw [← last_div_parent hc h₀, Nat.pow_succ', ← Nat.div_div_eq_div_mul,
      ← Nat.div_div_eq_div_mul, hpa]

/-! ### Descending further -/

/-- The server asks for something below a complete node that it descends into and
the client does not, and only for lower nodes. -/
theorem needed_unvisited {k j : ℕ} (hpath : (a - 1) / 2 ^ (k + 1) = j) (h₀ : 0 < a) (ha : a ≤ n)
    (hnot : above visited (k + 1) j = false) (hfull : (j + 1) * 2 ^ (k + 1) ≤ n) :
    needed n (LogTree.descends visited [a] n) (LogTree.keeps m) (k + 1) j ≠ [] ∧
      ∀ c ∈ needed n (LogTree.descends visited [a] n) (LogTree.keeps m) (k + 1) j, c.1 ≤ k := by
  have hopen : ∀ {k j}, (a - 1) / 2 ^ (k + 1) = j →
      LogTree.descends visited [a] n (k + 1) j = true := fun h => by
    simp only [LogTree.descends, h, List.any_cons, List.any_nil, Bool.or_false, Bool.or_eq_true,
      Bool.and_eq_true, bne_iff_ne, decide_eq_true_eq, beq_iff_eq]
    exact .inr ⟨by omega, ⟨by omega, ha⟩, trivial⟩
  obtain ⟨e₀, e₁, e₂, e₃⟩ := block_halves k j
  have := Nat.two_pow_pos k
  refine ⟨?_, fun c hc => ?_⟩
  · induction k generalizing j with
    | zero =>
      have hchild : ∀ i, i / 2 = j →
          LogTree.descends visited [a] n 0 i = false := fun i hi => by
        simp only [LogTree.descends, bne_self_eq_false, Bool.false_and, Bool.or_false]
        rw [← Bool.not_eq_true, above_iff] at hnot ⊢
        rintro ⟨p, hp, e⟩
        exact hnot ⟨p, hp, by omega⟩
      rw [needed_opened (hopen hpath), if_pos (by omega),
        needed_closed (hchild _ (show 2 * j / 2 = j by omega)),
        needed_closed (hchild _ (show (2 * j + 1) / 2 = j by omega))]
      -- two sibling leaves are not both peaks
      by_cases h₁ : LogTree.keeps m 0 (2 * j) = true
      · have hleft := of_decide_eq_true h₁
        have hm := (mem_peaksFrom hleft).1
        have h₂ : LogTree.keeps m 0 (2 * j + 1) = false :=
          decide_eq_false (sibling_not_mem_peaks hleft (by omega))
        simp [h₂]
      · simp [h₁]
    | succ k ih =>
      have hpath' : (a - 1) / 2 ^ (k + 1) / 2 = j := by
        rw [← hpath, ← div_two_pow_succ]
      have hnot' : above visited (k + 1) ((a - 1) / 2 ^ (k + 1)) = false := by
        rw [← Bool.not_eq_true] at hnot ⊢
        refine fun h => hnot (above_succ.2 ?_)
        rcases Nat.mod_two_eq_zero_or_one ((a - 1) / 2 ^ (k + 1)) with hb | hb
        · exact .inl (by rwa [show 2 * j = (a - 1) / 2 ^ (k + 1) by omega])
        · exact .inr (by rwa [show 2 * j + 1 = (a - 1) / 2 ^ (k + 1) by omega])
      have hfull' : ((a - 1) / 2 ^ (k + 1) + 1) * 2 ^ (k + 1) ≤ n := by
        have : (a - 1) / 2 ^ (k + 1) + 1 ≤ 2 * j + 1 + 1 := by omega
        exact (Nat.mul_le_mul_right _ this).trans (by omega)
      obtain ⟨f₀, f₁, f₂, f₃⟩ := block_halves k ((a - 1) / 2 ^ (k + 1))
      have hne := ih rfl hnot' hfull' f₀ f₁ f₂ f₃ (Nat.two_pow_pos k)
      rw [needed_opened (hopen hpath), if_pos (by omega)]
      rcases Nat.mod_two_eq_zero_or_one ((a - 1) / 2 ^ (k + 1)) with hb | hb
      · rw [show 2 * j = (a - 1) / 2 ^ (k + 1) by omega]
        simp [hne]
      · rw [show 2 * j + 1 = (a - 1) / 2 ^ (k + 1) by omega]
        simp [hne]
  · rw [needed_opened (hopen hpath), if_pos (by omega)] at hc
    rcases List.mem_append.1 hc with hc | hc
    · exact (LogTree.mem_needed (by omega) hc).1
    · exact (LogTree.mem_needed (by omega) hc).1

/-- **Lists that agree** come from a boundary that is visited. -/
theorem boundaryVisited_of_needed_eq (hP : Function.Injective P.sha256) {leaf : ℕ → Octets}
    (hleaf : ∀ p < n, IsLogLeaf P (leaf p)) (h₀ : 0 < a) (ha : a ≤ n) (hlast : n - 1 ∈ visited) :
    ∀ {k i : ℕ}, i * 2 ^ (k + 1) < n → (a - 1) / 2 ^ (k + 1) = i →
      above visited (k + 1) i = true →
      (needed n (LogTree.descends visited [a] n) (LogTree.keeps m) (k + 1) i).map
          (fun c => value (logPar P) leaf n c.1 c.2) =
        (needed n (above visited) (LogTree.keeps m) (k + 1) i).map
          (fun c => value (logPar P) leaf n c.1 c.2) →
      BoundaryVisited visited a
  | 0, i, hi, hpath, hopen, _ => by
    obtain ⟨p, hp, h⟩ := above_iff.1 hopen
    exact ⟨p, hp, by rw [← pow_one 2]; exact h.trans hpath.symm⟩
  | k + 1, i, hi, hpath, hopen, heq => by
    obtain ⟨e₀, e₁, e₂, e₃⟩ := block_halves (k + 1) i
    have hpos := Nat.two_pow_pos (k + 1)
    have hchild : (a - 1) / 2 ^ (k + 1) / 2 = i := by rw [← hpath, ← div_two_pow_succ]
    have hbounds := div_two_pow_bounds (a - 1) (k + 1)
    have hoff : ∀ j, j ≠ (a - 1) / 2 ^ (k + 1) →
        needed n (LogTree.descends visited [a] n) (LogTree.keeps m) (k + 1) j =
          needed n (above visited) (LogTree.keeps m) (k + 1) j := fun j hj =>
      LogTree.needed_congr fun k' i' hk b₁ b₂ => ⟨LogTree.descends_off_path fun e => hj (by
        have := div_two_pow_eq_iff.1 e
        exact (div_two_pow_eq_iff.2 (by omega)).symm), rfl⟩
    -- the lists agree at the child on the path
    have hdown : (needed n (LogTree.descends visited [a] n) (LogTree.keeps m) (k + 1)
          ((a - 1) / 2 ^ (k + 1))).map (fun c => value (logPar P) leaf n c.1 c.2) =
        (needed n (above visited) (LogTree.keeps m) (k + 1) ((a - 1) / 2 ^ (k + 1))).map
          (fun c => value (logPar P) leaf n c.1 c.2) := by
      rw [needed_opened (LogTree.descends_of_above hopen), needed_opened hopen] at heq
      rcases Nat.mod_two_eq_zero_or_one ((a - 1) / 2 ^ (k + 1)) with hb | hb
      · rw [show 2 * i = (a - 1) / 2 ^ (k + 1) by omega] at heq
        split_ifs at heq
        · rw [List.map_append, List.map_append, hoff (_ + 1) (by omega)] at heq
          exact List.append_cancel_right heq
        · exact heq
      · have hj : 2 * i + 1 = (a - 1) / 2 ^ (k + 1) := by omega
        rw [hj] at heq e₁
        rw [if_pos (by omega), if_pos (by omega), List.map_append, List.map_append,
          hoff (2 * i) (by omega)] at heq
        exact List.append_cancel_left heq
    by_cases hnext : above visited (k + 1) ((a - 1) / 2 ^ (k + 1)) = true
    · exact boundaryVisited_of_needed_eq hP hleaf h₀ ha hlast (by omega) rfl hnext hdown
    · rw [Bool.not_eq_true] at hnext
      have hfull : ((a - 1) / 2 ^ (k + 1) + 1) * 2 ^ (k + 1) ≤ n := by
        by_contra hcut
        rw [← Bool.not_eq_true, above_iff] at hnext
        exact hnext ⟨n - 1, hlast, div_two_pow_eq_iff.2 (by omega)⟩
      obtain ⟨hne, hlow⟩ := needed_unvisited (m := m) rfl h₀ ha hnext hfull
      rw [needed_closed hnext] at hdown
      split_ifs at hdown with hkept
      · exact absurd (List.map_eq_nil_iff.1 hdown) hne
      · -- a lower node has fewer leaves below it
        obtain ⟨c, hc, hval⟩ := List.map_eq_singleton_iff.1 hdown
        have hmem : c ∈ needed n (LogTree.descends visited [a] n) (LogTree.keeps m) (k + 1)
          ((a - 1) / 2 ^ (k + 1)) := by rw [hc]; exact List.mem_singleton_self c
        have hsize := (logSeparated P hP).value_size_inj hleaf hleaf
          (LogTree.mem_needed (by omega) hmem).2
          (show (a - 1) / 2 ^ (k + 1) * 2 ^ (k + 1) < n by omega) hval
        have hc₁ := Nat.pow_le_pow_right (show 0 < 2 by omega) (hlow c hmem)
        have e₄ : (2 : ℕ) ^ (k + 1) = 2 * 2 ^ k := by ring
        have e₅ : (c.2 + 1) * 2 ^ c.1 = c.2 * 2 ^ c.1 + 2 ^ c.1 := by ring
        have e₆ : ((a - 1) / 2 ^ (k + 1) + 1) * 2 ^ (k + 1) =
          (a - 1) / 2 ^ (k + 1) * 2 ^ (k + 1) + 2 ^ (k + 1) := by ring
        have := Nat.two_pow_pos k
        omega

/-- The same over a whole log. -/
theorem boundaryVisited_of_neededValues (hP : Function.Injective P.sha256)
    (hleaf : ∀ l ∈ leaves, IsLogLeaf P l) (h₀ : 0 < a) (ha : a ≤ leaves.length)
    (hlast : leaves.length - 1 ∈ visited)
    (h : (needed leaves.length (LogTree.descends visited [a] leaves.length) (LogTree.keeps m)
        (height leaves.length) 0).map (fun c => value (logPar P) (leafAt leaves) leaves.length c.1 c.2) =
      LogVerifier.neededValues P leaves visited m) : BoundaryVisited visited a := by
  rw [LogVerifier.neededValues] at h
  have hle := le_two_pow_height leaves.length
  cases hh : height leaves.length with
  | zero =>
    rw [hh] at hle
    exact ⟨_, hlast, by omega⟩
  | succ k =>
    rw [hh] at h hle
    exact boundaryVisited_of_needed_eq hP (fun p hp => hleaf _ (leafAt_mem hp)) h₀ ha hlast
      (by omega) (Nat.div_eq_of_lt (by omega))
      (above_iff.2 ⟨_, hlast, Nat.div_eq_of_lt (by omega)⟩) h

/-! ### Responses -/

/-- A client that has verified a view of the log's first `m` leaves, or none yet. -/
structure HonestClient (P : Primitives) (c : KtClient) (leaves : List Octets) (m : ℕ) : Prop where
  retains : RetainsPeaks P c.retainedSubtrees leaves m
  state : ∀ prev, c.state = some prev → prev.treeSize = m ∧ prev.rootHash = logRoot P (leaves.take m)
  none_iff : c.state = none ↔ m = 0

/-- The other conditions on the heads of a response: the server and the auditor
signed the true roots, and the auditor's head is in time. -/
structure HeadsInOrder (P : Primitives) (c : KtClient) (th : TreeHead) (ath : AcceptedAuditorHead)
    (leaves : List Octets) : Prop where
  size : th.treeSize = leaves.length
  serverSigned : c.verifyTreeHeadSignature P th leaves.length (logRoot P leaves) = .ok ()
  started : ∀ prev ∈ c.auditorHead, c.config.auditorStartPos ≤ prev.1
  notAhead : (asU64 ath.timestamp).val ≤ (asU64 th.timestamp).val
  recent : (asU64 th.timestamp).val - (asU64 ath.timestamp).val ≤ c.config.maxAuditorLag
  auditorSigned : ∃ tbs apkBytes apk,
    constructAuditorTreeHeadTbsPublic c.config ath.treeSize (asU64 ath.timestamp)
      (logRoot P (leaves.take ath.treeSize)) = .ok tbs ∧
    c.config.auditorPublicKey = some apkBytes ∧ serviceVerifyingKey P apkBytes = .ok apk ∧
    P.verifyData apk tbs ath.signature = .ok ()

/-- The server's inclusion proof is consumed by every honest client of size `m`,
which derives the root, and for an updated head the root at the auditor's size, so
that it accepts the response. -/
def BoundaryAgreement (P : Primitives) (t : Tree) (ath : AcceptedAuditorHead)
    (leaves : List Octets) (visited : List ℕ) (m : ℕ) : Prop :=
  ∃ elements, t.inclusionProof P visited leaves.length m = .ok elements ∧
    ∀ c : KtClient, c.config.mode = deploymentModeThirdPartyAuditing → HonestClient P c leaves m →
      ∀ extraWanted timestamp, ∃ captured,
        LogVerifier.calculateRootCapturing P visited (LogVerifier.leavesAt leaves visited)
          leaves.length elements c.retainedSubtrees
          (c.wantedNodes (t.getFullTreeHead (some m)) leaves.length extraWanted) =
            .ok (logRoot P leaves, captured) ∧
        (m < leaves.length →
          KtClient.auditorRoot P ath.treeSize leaves.length (logRoot P leaves) captured =
            .ok (logRoot P (leaves.take ath.treeSize)) ∧
          ∀ th, t.latest = some th → HeadsInOrder P c th ath leaves →
            ∃ c', c.verifyHeadAndCommit P (t.getFullTreeHead (some m)) leaves.length timestamp true
                visited (LogVerifier.leavesAt leaves visited) elements extraWanted =
                  .ok (captured, c') ∧
              c'.auditorHead = some (ath.treeSize, asU64 ath.timestamp)) ∧
        (m = leaves.length →
          c.verifyHeadAndCommit P (t.getFullTreeHead (some m)) leaves.length timestamp false
            visited (LogVerifier.leavesAt leaves visited) elements extraWanted = .ok (captured, c))

theorem mapM_eq_some {α β : Type} {f : α → Option β} {g : α → β} {l : List α}
    (h : ∀ x ∈ l, f x = some (g x)) : l.mapM f = some (l.map g) := by
  induction l with
  | nil => rfl
  | cons x l ih =>
    rw [List.mapM_cons, h x List.mem_cons_self, ih fun y hy => h y (List.mem_cons_of_mem _ hy)]
    rfl

/-- **The root at the auditor's size** from what the client captured. -/
theorem auditorRoot_capturedValues (h : BoundaryVisited visited a) (h₀ : 0 < a)
    (ha : a ≤ leaves.length) (hn : leaves.length ≤ 2 ^ 62) {wanted : List ℕ}
    (hwanted : a < leaves.length → ∀ id ∈ getRoots a, id ∈ wanted) :
    KtClient.auditorRoot P a leaves.length (logRoot P leaves)
      (LogVerifier.capturedValues P leaves visited wanted) = .ok (logRoot P (leaves.take a)) := by
  rw [KtClient.auditorRoot]
  split_ifs with he
  · rw [he, List.take_length]
  · have hlt : a < leaves.length := by omega
    have hcap : ∀ c ∈ peaks a,
        LogVerifier.capturedValues P leaves visited wanted (node c.1 c.2) =
          some (value (logPar P) (leafAt leaves) a c.1 c.2) := fun c hc => by
      have hmem : node c.1 c.2 ∈ wanted := hwanted hlt _ ((LogTree.mem_getRoots (by omega)).2 hc)
      rw [LogVerifier.capturedValues, LogVerifier.capture_map,
        if_pos ⟨hmem, h.mem_walk h₀ hlt hc⟩]
      exact congrArg some (value_of_complete ((mem_peaksFrom hc).1.trans ha) (mem_peaksFrom hc).1)
    have hmap : (getRoots a).mapM (LogVerifier.capturedValues P leaves visited wanted) =
        some ((peaks a).map fun c => value (logPar P) (leafAt leaves) a c.1 c.2) := by
      rw [getRoots_eq (by omega), List.mapM_map]
      exact mapM_eq_some hcap
    rw [hmap, okOr_some, Result.ok_bind, LogAccumulator.accumulatorFromPeaks_peaks h₀ (by omega),
      LogTree.logRoot_take h₀ ha]
    rfl

end

namespace KtClient

variable {P : Primitives} {c : KtClient} {th : TreeHead} {ath : AcceptedAuditorHead}
  {leaves : List Octets}

/-- How an updated head of an audited log is accepted. -/
theorem verifyHeadAndCommit_updated {fth : FullTreeHead} {n : ℕ} {positions : List ℕ}
    {hashes elements : List Octets} {extraWanted : List ℕ} {root : Octets} {captured : NodeMap}
    {auditor : ℕ × U64} {timestamp : Option U64}
    (hmode : c.config.mode = deploymentModeThirdPartyAuditing)
    (hroot : LogVerifier.calculateRootCapturing P positions hashes n elements c.retainedSubtrees
      (c.wantedNodes fth n extraWanted) = .ok (root, captured))
    (hth : fth.treeHead = some th) (hsig : c.verifyTreeHeadSignature P th n root = .ok ())
    (haud : c.verifyAuditorTreeHead P fth th n root captured = .ok auditor) :
    c.verifyHeadAndCommit P fth n timestamp true positions hashes elements extraWanted =
      .ok (captured, { c with
        auditorHead := some auditor
        retainedHead := some th
        state := some ⟨n, root, timestamp.getD 0⟩
        retainedSubtrees := fun id => if id ∈ getRoots n then captured id else none }) := by
  simp only [verifyHeadAndCommit, hroot, hth, hsig, haud, hmode, Result.context_ok, Result.ok_bind,
    okOr_some, if_true, Result.pure_eq]

/-- How an unchanged head is accepted. -/
theorem verifyHeadAndCommit_same {fth : FullTreeHead} {n : ℕ} {positions : List ℕ}
    {hashes elements : List Octets} {extraWanted : List ℕ} {root : Octets} {captured : NodeMap}
    {prev : TrustedState} {timestamp : Option U64}
    (hroot : LogVerifier.calculateRootCapturing P positions hashes n elements c.retainedSubtrees
      (c.wantedNodes fth n extraWanted) = .ok (root, captured))
    (hprev : c.state = some prev) (heq : prev.rootHash = root) :
    c.verifyHeadAndCommit P fth n timestamp false positions hashes elements extraWanted =
      .ok (captured, c) := by
  simp only [verifyHeadAndCommit, hroot, hprev, Result.context_ok, Result.ok_bind, okOr_some,
    Bool.false_eq_true, if_false, ensure_of heq.symm, Result.pure_eq]

/-- An auditor head in order is accepted when its root was derived. -/
theorem verifyAuditorTreeHead_eq_ok (h : HeadsInOrder P c th ath leaves)
    (ha : ath.treeSize ≤ leaves.length) {fth : FullTreeHead} {captured : NodeMap}
    (hfth : fth.auditorTreeHead = some ⟨ath.treeSize, ath.timestamp, ath.signature⟩)
    (hroot : auditorRoot P ath.treeSize leaves.length (logRoot P leaves) captured =
      .ok (logRoot P (leaves.take ath.treeSize))) :
    c.verifyAuditorTreeHead P fth th leaves.length (logRoot P leaves) captured =
      .ok (ath.treeSize, asU64 ath.timestamp) := by
  obtain ⟨tbs, apkBytes, apk, h₁, h₂, h₃, h₄⟩ := h.auditorSigned
  rw [verifyAuditorTreeHead, hfth]
  simp only [okOr_some, Result.ok_bind, ensure_of h.started, ensure_of h.notAhead,
    ensure_of h.recent, ensure_of (h.size ▸ ha : ath.treeSize ≤ th.treeSize), hroot, h₁, h₂, h₃, h₄,
    Result.context_ok, Result.pure_eq]

end KtClient

/-- There is an honest client of every size. -/
theorem exists_honestClient (P : Primitives) (leaves : List Octets) (m : ℕ) : ∃ c : KtClient,
    c.config.mode = deploymentModeThirdPartyAuditing ∧ HonestClient P c leaves m := by
  refine ⟨⟨[], [], ⟨1, 3, [], [], none, none, 0, 0, 0, 0, 0, none⟩,
    if m = 0 then none else some ⟨m, logRoot P (leaves.take m), 0⟩, peakValues P leaves m, none,
    fun _ => .empty, fun _ _ => none, .empty, none⟩, rfl, retainsPeaks_peakValues P leaves m,
    fun prev h => ?_, ?_⟩
  · dsimp only at h
    split_ifs at h
    obtain rfl := Option.some.inj h
    exact ⟨rfl, rfl⟩
  · dsimp only
    split_ifs with h <;> simp [h]

section

variable {P : Primitives} {t : Tree} {leaves : List Octets} {ath : AcceptedAuditorHead}
  {visited : List ℕ} {m : ℕ}

/-- The server's proof descends to the boundary. -/
theorem inclusionProof_eq (hs : Holds t.store leaves) (hn : leaves.length ≤ 2 ^ 62)
    (hne : leaves ≠ []) (hath : t.freshestAuditor = some ath)
    (hlt : ∀ p ∈ visited, p < leaves.length) (hm : m ≤ leaves.length) :
    t.inclusionProof P visited leaves.length m =
      .ok ((needed leaves.length (LogTree.descends visited [ath.treeSize] leaves.length)
        (LogTree.keeps m) (height leaves.length) 0).map fun c =>
          value (logPar P) (leafAt leaves) leaves.length c.1 c.2) := by
  have hbound : t.boundaries = [ath.treeSize] := by rw [Tree.boundaries_eq, hath]; rfl
  rw [Tree.inclusionProof, hbound]
  exact LogTree.getBatchProofForNodes_eq hs hn hne hlt hm

/-- Server and client only agree when the boundary is visited. -/
theorem boundaryVisited_of_agreement (hP : Function.Injective P.sha256) (hs : Holds t.store leaves)
    (hleaf : ∀ l ∈ leaves, IsLogLeaf P l) (hn : leaves.length ≤ 2 ^ 62)
    (hath : t.freshestAuditor = some ath) (h₀ : 1 ≤ ath.treeSize)
    (ha : ath.treeSize ≤ leaves.length) (hlt : ∀ p ∈ visited, p < leaves.length)
    (hfrontier : ∀ p ∈ getFrontier leaves.length, p ∈ visited) (hm : m ≤ leaves.length)
    (h : BoundaryAgreement P t ath leaves visited m) : BoundaryVisited visited ath.treeSize := by
  have hne : leaves ≠ [] := List.length_pos_iff.1 (by omega)
  have hserver := inclusionProof_eq (P := P) hs hn hne hath hlt hm
  obtain ⟨elements, he, h⟩ := h
  obtain rfl := Except.ok.inj (hserver.symm.trans he)
  obtain ⟨c, hmode, hc⟩ := exists_honestClient P leaves m
  obtain ⟨captured, hcalc, -⟩ := h c hmode hc [] none
  have hclient := (LogVerifier.calculateRootCapturing_binding hP hn hne hs.digest
    (by simp [LogVerifier.leavesAt]) hlt (fun v hv => by
      obtain ⟨p, hp, rfl⟩ := List.mem_map.1 hv
      exact hs.digest _ (leafAt_mem (hlt p hp))) hcalc).1
  have hkept : (fun k i => (LogVerifier.keptAt c.retainedSubtrees k i).isSome) =
      LogTree.keeps m := by
    funext k i
    exact LogVerifier.keptAt_isSome hc.retains k i
  rw [hkept] at hclient
  exact boundaryVisited_of_neededValues hP hleaf h₀ ha
    (hfrontier _ (last_mem_getFrontier (by omega) hn)) hclient

/-- **They agree when it is.** -/
theorem BoundaryVisited.agreement (h : BoundaryVisited visited ath.treeSize)
    (hs : Holds t.store leaves) (ht : t.treeSize = leaves.length) (hn : leaves.length ≤ 2 ^ 62)
    (hath : t.freshestAuditor = some ath) (h₀ : 1 ≤ ath.treeSize)
    (ha : ath.treeSize ≤ leaves.length) (hlt : ∀ p ∈ visited, p < leaves.length)
    (hm : m ≤ leaves.length) : BoundaryAgreement P t ath leaves visited m := by
  have hne : leaves ≠ [] := List.length_pos_iff.1 (by omega)
  have hserver := inclusionProof_eq (P := P) hs hn hne hath hlt hm
  rw [h.descends_eq] at hserver
  refine ⟨_, hserver, fun c hmode hc extraWanted timestamp => ⟨_,
    LogVerifier.calculateRootCapturing_neededValues hn hne hlt hm hc.retains _, ?_, ?_⟩⟩
  · intro hmn
    have hfth : t.getFullTreeHead (some m) = ⟨.updated, t.latest,
        some ⟨ath.treeSize, ath.timestamp, ath.signature⟩⟩ := by
      rw [Tree.getFullTreeHead, if_neg (by rw [ht]; simp; omega), hath]
      rfl
    have hwanted : ∀ id ∈ getRoots ath.treeSize, ath.treeSize < leaves.length →
        id ∈ c.wantedNodes (t.getFullTreeHead (some m)) leaves.length extraWanted :=
      fun id hid hlt => by
        rw [hfth, KtClient.wantedNodes]
        simp only [hmode, true_and]
        rw [if_pos ⟨h₀, hlt⟩]
        exact List.mem_append_right _ hid
    have hroot := auditorRoot_capturedValues (P := P) h h₀ ha hn fun hlt id hid =>
      hwanted id hid hlt
    refine ⟨hroot, fun th hth horder => ?_⟩
    have haud := KtClient.verifyAuditorTreeHead_eq_ok horder ha
      (show (t.getFullTreeHead (some m)).auditorTreeHead = _ by rw [hfth]) hroot
    exact ⟨_, KtClient.verifyHeadAndCommit_updated hmode
      (LogVerifier.calculateRootCapturing_neededValues hn hne hlt hm hc.retains _)
      (by rw [hfth]; exact hth) horder.serverSigned haud, rfl⟩
  · intro hmn
    obtain ⟨prev, hprev⟩ := Option.isSome_iff_exists.1
      (Option.isSome_iff_ne_none.2 fun hnone => absurd (hc.none_iff.1 hnone) (by omega))
    refine KtClient.verifyHeadAndCommit_same
      (LogVerifier.calculateRootCapturing_neededValues hn hne hlt hm hc.retains _) hprev ?_
    rw [(hc.state prev hprev).2, hmn, List.take_length]

end

/-- **The auditor's size as a boundary.**  Whatever leaves a response visits beside
the frontier and whatever an honest client has retained, the server's inclusion
proof and the client agree exactly when the last leaf of the auditor's size or its
sibling is visited. -/
theorem auditor_boundary_iff {P : Primitives} (hP : Function.Injective P.sha256) {t : Tree}
    {leaves : List Octets} (hs : LogTree.Filled P t.store leaves)
    (hleaf : ∀ l ∈ leaves, IsLogLeaf P l) (ht : t.treeSize = leaves.length)
    (hn : leaves.length ≤ 2 ^ 62) {ath : AcceptedAuditorHead} (hath : t.freshestAuditor = some ath)
    (h₀ : 1 ≤ ath.treeSize) (ha : ath.treeSize ≤ leaves.length) {visited : List ℕ}
    (hlt : ∀ p ∈ visited, p < leaves.length)
    (hfrontier : ∀ p ∈ getFrontier leaves.length, p ∈ visited) {m : ℕ} (hm : m ≤ leaves.length) :
    BoundaryAgreement P t ath leaves visited m ↔ BoundaryVisited visited ath.treeSize := by
  have hholds := hs.holds hn
  exact ⟨boundaryVisited_of_agreement hP hholds hleaf hn hath h₀ ha hlt hfrontier hm,
    fun h => h.agreement hholds ht hn hath h₀ ha hlt hm⟩

/-- Of four entries only the last is visited; an auditor head over all four agrees. -/
theorem auditor_boundary_four_of_four : ∃ t ath leaves, t.freshestAuditor = some ath ∧
    ath.treeSize = 4 ∧ leaves.length = 4 ∧
    BoundaryAgreement Primitives.ideal t ath leaves (getFrontier 4) 0 := by
  obtain ⟨r, s, -, hs⟩ := exists_fourEntries_store
  let ath : AcceptedAuditorHead := ⟨4, 0, [], [], []⟩
  exact ⟨{ serverOfFour s with auditors := [([7], ath)] }, ath, _, rfl, rfl, rfl,
    (auditor_boundary_iff Primitives.ideal_sha256_injective
      (t := { serverOfFour s with auditors := [([7], ath)] }) hs fourEntries_leaf rfl
      (by simp [fourEntries]) rfl (by decide) (by decide) (by decide) (by decide)
      (by decide)).2 (by decide)⟩

/-- **Of four entries, an auditor head over the first two** is accepted by the server
and breaks its search responses: they visit the frontier, which is the last
entry. -/
theorem auditor_boundary_two_of_four : ∃ r s root head t ath,
    Db.Runs (LogTree.batchAppend Primitives.ideal 0 fourEntries) Store.empty r s ∧
      root = logRoot Primitives.ideal
        ((fourEntries.map (LogTree.entryLeaf Primitives.ideal)).take 2) ∧
      head.treeSize = 2 ∧
      Tree.HonestHead Primitives.ideal (serverOfFour s) head [([7], [7])] root ∧
      Tree.setAuditorHead Primitives.ideal (serverOfFour s) head [([7], [7])] = .ok t ∧
      t.freshestAuditor = some ath ∧ ath.treeSize = 2 ∧
      ¬ BoundaryAgreement Primitives.ideal t ath
        (fourEntries.map (LogTree.entryLeaf Primitives.ideal)) (getFrontier 4) 0 := by
  obtain ⟨r, s, hrun, hfilled⟩ := exists_fourEntries_store
  have hholds := hfilled.holds (by simp [fourEntries])
  have hroot := LogTree.getRoot_of_readable (P := Primitives.ideal) hholds (m := 2) (by decide)
    (by decide) (by simp [fourEntries]) (by decide)
  generalize hr : logRoot Primitives.ideal
    ((fourEntries.map (LogTree.entryLeaf Primitives.ideal)).take 2) = root at hroot ⊢
  have hlen : root.length = 32 := by
    rw [← hr]
    exact length_logRoot fun l hl => hholds.digest l (List.mem_of_mem_take hl)
  obtain ⟨config, tbs, -, -, hhonest⟩ := exists_idealHead s 2 hlen
  obtain ⟨k, hk, consistency, hset⟩ := Tree.setAuditorHead_isOk (t := serverOfFour s) hholds rfl
    (by simp [fourEntries]) (show 0 < 2 by omega) (show 2 ≤ 4 by omega) hroot hhonest
  refine ⟨r, s, root, _, _, ⟨2, 0, [7] ++ tbs, root, consistency⟩, hrun, rfl, rfl, hhonest, hset,
    rfl, rfl, fun h => ?_⟩
  have := boundaryVisited_of_agreement Primitives.ideal_sha256_injective hholds fourEntries_leaf
    (by simp [fourEntries]) rfl (show 1 ≤ 2 by omega) (show 2 ≤ 4 by omega) (by decide) (by decide)
    (by decide) h
  exact absurd this (show ¬ BoundaryVisited (getFrontier 4) 2 by decide)

end KeyTransparency
