/-
# The tests for distinguished entries

Five traversals carry the timestamps on both sides of an entry down the implicit search
tree: the list of the server (`find_distinguished_nodes`), the walks from the root to an
obligation on both sides (`visit_contact_entries`, `replay_contact_ladders`), the path of
a search for a fixed version (`simulate_fixed_search`), and the owner's walk on both sides
(`owner_walk_actions`, `replay_owner_walk`).  At an entry they hold the same two bounds,
unless an ancestor was not distinguished already (`Bounds`); so they agree.
-/

import KeyTransparency.Client.Reads
import KeyTransparency.Client.OwnerLadder
import KeyTransparency.Client.OwnerSound
import KeyTransparency.Client.SampleLog
import KeyTransparency.Tree.Navigation
import KeyTransparency.Tree.Traversal

namespace KeyTransparency

open InOrder LogMath

/-! ### What is distinguished on both sides of an entry -/

namespace LogMath

variable {ts : ℕ → ℕ} {window n k i size left right x : ℕ}

theorem Block.mem_node (h : Block n k i size) :
    node k i ∈ distinguishedIn ts window n k i left right ↔ window ≤ right - left := by
  have hlt := h.node_lt
  cases k with
  | zero =>
    rw [distinguishedIn]
    split_ifs with hc
    · simp only [List.not_mem_nil, false_iff]
      omega
    · simp only [List.mem_singleton, true_iff]
      omega
  | succ k =>
    rcases Nat.lt_or_ge (right - left) window with hw | hw
    · rw [distinguishedIn_of_lt hw]
      simp only [List.not_mem_nil, false_iff]
      omega
    · rw [distinguishedIn_succ hlt hw]
      simp [hw]

/-- Left of an entry. -/
theorem Block.mem_left (h : Block n (k + 1) i size) (hx : x < node (k + 1) i) :
    x ∈ distinguishedIn ts window n (k + 1) i left right ↔
      window ≤ right - left ∧ x ∈ distinguishedIn ts window n k (2 * i) left (ts (node (k + 1) i)) := by
  have hlt := h.node_lt
  rcases Nat.lt_or_ge (right - left) window with hw | hw
  · rw [distinguishedIn_of_lt hw]
    simp only [List.not_mem_nil, false_iff]
    omega
  · rw [distinguishedIn_succ hlt hw, List.mem_append, List.mem_cons]
    constructor
    · rintro (hmem | rfl | hmem)
      · exact ⟨hw, hmem⟩
      · omega
      · have := (mem_distinguishedIn hmem).2.1
        have := node_add_one (k + 1) i
        omega
    · exact fun hmem => .inl hmem.2

/-- Right of an entry: below its right child. -/
theorem Block.mem_right (h : Block n k i size) (hn : n < 2 ^ 64) (hx : node k i < x) {k' i' : ℕ}
    (hchild : ibstRightChild (node k i) n = some (node k' i')) :
    x ∈ distinguishedIn ts window n k i left right ↔
      window ≤ right - left ∧ x ∈ distinguishedIn ts window n k' i' (ts (node k i)) right := by
  have hlt := h.node_lt
  have hlevel := h.level_lt hn
  cases k with
  | zero =>
    rw [ibstRightChild, level_node (by omega), if_pos rfl] at hchild
    cases hchild
  | succ k =>
    have hk : k < 64 := by omega
    rw [ibstRightChild_node (by omega)] at hchild
    rcases @ibstRightLoop_cases ts window n k (2 * i + 1) 64 hk hk with
      ⟨k'', j'', -, hloop, -, heq⟩ | ⟨hloop, -⟩
    · obtain ⟨rfl, rfl⟩ := node_inj (Option.some.inj (hloop.symm.trans hchild))
      rcases Nat.lt_or_ge (right - left) window with hw | hw
      · rw [distinguishedIn_of_lt hw]
        simp only [List.not_mem_nil, false_iff]
        omega
      · rw [distinguishedIn_succ hlt hw, List.mem_append, List.mem_cons, heq]
        constructor
        · rintro (hmem | rfl | hmem)
          · have := (mem_distinguishedIn hmem).2.2
            have := node_add_one (k + 1) i
            omega
          · omega
          · exact ⟨hw, hmem⟩
        · exact fun hmem => .inr (.inr hmem.2)
    · rw [hloop] at hchild
      cases hchild

end LogMath

/-- **The bounds at an entry**: below the entry a list holds what is distinguished between
the two timestamps, unless an entry above is not distinguished. -/
structure Bounds (ts : ℕ → U64) (rmw n : ℕ) (dset : List ℕ) (k i size : ℕ) (bounds : U64 × U64)
    (parentDist : Bool) : Prop where
  block : Block n k i size
  mem : ∀ x, i * 2 ^ (k + 1) ≤ x → x < i * 2 ^ (k + 1) + size →
    (x ∈ dset ↔ parentDist = true ∧
      x ∈ distinguishedIn (fun p => (ts p).val) rmw n k i bounds.1.val bounds.2.val)

/-- The test at an entry. -/
def isDist (rmw : ℕ) (bounds : U64 × U64) (parentDist : Bool) : Bool :=
  parentDist && decide (rmw ≤ bounds.2.val - bounds.1.val)

namespace Bounds

variable {ts : ℕ → U64} {rmw n k i size : ℕ} {dset : List ℕ} {bounds : U64 × U64} {parentDist : Bool}

/-- **The test is right** at the entry itself. -/
theorem mem_node (h : Bounds ts rmw n dset k i size bounds parentDist) :
    node k i ∈ dset ↔ isDist rmw bounds parentDist = true := by
  have := h.block.node_le
  have := Nat.two_pow_pos k
  have hnode : node k i = i * 2 ^ (k + 1) + (2 ^ k - 1) := rfl
  rw [h.mem _ (by omega) (by omega), h.block.mem_node, isDist, Bool.and_eq_true, decide_eq_true_eq]

theorem left (h : Bounds ts rmw n dset (k + 1) i size bounds parentDist) :
    Bounds ts rmw n dset k (2 * i) (2 ^ (k + 1) - 1) (bounds.1, ts (node (k + 1) i))
      (isDist rmw bounds parentDist) := by
  refine ⟨h.block.left, fun x hlow hhigh => ?_⟩
  obtain ⟨e₁, e₂⟩ := leftOf_node k i
  have := h.block.node_le
  rw [h.mem x (by omega) (by omega), h.block.mem_left (by omega), isDist, Bool.and_eq_true,
    decide_eq_true_eq, and_assoc]

theorem right (h : Bounds ts rmw n dset k i size bounds parentDist) (hn : n < 2 ^ 64)
    (hlt : 2 ^ k < size) :
    ∃ k' i', k' < k ∧ i' * 2 ^ (k' + 1) = node k i + 1 ∧
      ibstRightChild (node k i) n = some (node k' i') ∧
      Bounds ts rmw n dset k' i' (size - 2 ^ k) (ts (node k i), bounds.2)
        (isDist rmw bounds parentDist) := by
  obtain ⟨k', i', hk, hstart, hchild, hblock⟩ := h.block.right hn hlt
  refine ⟨k', i', hk, hstart, hchild, hblock, fun x hlow hhigh => ?_⟩
  have hnode : node k i = i * 2 ^ (k + 1) + (2 ^ k - 1) := rfl
  have := Nat.two_pow_pos k
  rw [h.mem x (by omega) (by omega), h.block.mem_right hn (by omega) hchild, isDist, Bool.and_eq_true,
    decide_eq_true_eq, and_assoc]

/-- Below an entry that is not distinguished nothing is. -/
theorem not_mem (h : Bounds ts rmw n dset k i size bounds parentDist)
    (hdist : isDist rmw bounds parentDist = false) {x : ℕ} (hlow : i * 2 ^ (k + 1) ≤ x)
    (hhigh : x < i * 2 ^ (k + 1) + size) : x ∉ dset := by
  rw [h.mem x hlow hhigh]
  rintro ⟨hparent, hmem⟩
  rw [isDist, hparent, Bool.true_and, decide_eq_false_iff_not] at hdist
  rw [distinguishedIn_of_lt (by omega)] at hmem
  cases hmem

/-- **One step towards an entry**: to the left child or to the right one, which then has
the entry in its block. -/
theorem toward (h : Bounds ts rmw n dset k i size bounds parentDist) (hn : n < 2 ^ 64) {x : ℕ}
    (hlow : i * 2 ^ (k + 1) ≤ x) (hhigh : x < i * 2 ^ (k + 1) + size) (hne : node k i ≠ x) :
    ∃ k' i' size', k' < k ∧ i' * 2 ^ (k' + 1) ≤ x ∧ x < i' * 2 ^ (k' + 1) + size' ∧
      (x < node k i ∧ isLeaf (node k i) = false ∧ leftChild (node k i) = node k' i' ∧
          Bounds ts rmw n dset k' i' size' (bounds.1, ts (node k i)) (isDist rmw bounds parentDist) ∨
        node k i < x ∧ ibstRightChild (node k i) n = some (node k' i') ∧
          Bounds ts rmw n dset k' i' size' (ts (node k i), bounds.2) (isDist rmw bounds parentDist)) := by
  have hnode : node k i = i * 2 ^ (k + 1) + (2 ^ k - 1) := rfl
  have hpos := Nat.two_pow_pos k
  have hlevel := h.block.level_lt hn
  have := h.block.node_le
  rcases Nat.lt_or_gt_of_ne hne with hlt | hgt
  · obtain ⟨k', i', hk, hstart, hchild, hright⟩ := h.right hn (show 2 ^ k < size by omega)
    exact ⟨k', i', _, hk, by omega, by omega, .inr ⟨hlt, hchild, hright⟩⟩
  · cases k with
    | zero =>
      rw [pow_zero] at hnode
      omega
    | succ k =>
      obtain ⟨e₁, e₂⟩ := leftOf_node k i
      exact ⟨k, 2 * i, _, Nat.lt_succ_self k, by omega, by omega,
        .inl ⟨hgt, by simp [isLeaf_node], leftChild_node (by omega) i, h.left⟩⟩

/-- **The left child** has the bounds that end at the entry. -/
theorem leftChild (h : Bounds ts rmw n dset k i size bounds parentDist) (hn : n < 2 ^ 64)
    (hleaf : isLeaf (node k i) = false) :
    ∃ k' i', k' < k ∧ LogMath.leftChild (node k i) = node k' i' ∧ i' * 2 ^ (k' + 1) = i * 2 ^ (k + 1) ∧
      Bounds ts rmw n dset k' i' (2 ^ k - 1) (bounds.1, ts (node k i)) (isDist rmw bounds parentDist) := by
  have hlevel := h.block.level_lt hn
  cases k with
  | zero =>
    rw [isLeaf_node] at hleaf
    cases hleaf
  | succ k =>
    exact ⟨k, 2 * i, Nat.lt_succ_self k, leftChild_node (by omega) i, (leftOf_node k i).1, h.left⟩

/-- **The right child**, if there is one, has the bounds that start at the entry. -/
theorem rightChild_cases (h : Bounds ts rmw n dset k i size bounds parentDist) (hn : n < 2 ^ 64) :
    (ibstRightChild (node k i) n = none ∧ size = 2 ^ k) ∨
    ∃ k' i', k' < k ∧ ibstRightChild (node k i) n = some (node k' i') ∧
      i' * 2 ^ (k' + 1) = node k i + 1 ∧
      Bounds ts rmw n dset k' i' (size - 2 ^ k) (ts (node k i), bounds.2)
        (isDist rmw bounds parentDist) := by
  rcases h.block.node_le.eq_or_lt with heq | hlt
  · exact .inl ⟨h.block.no_right hn heq.symm, heq.symm⟩
  · obtain ⟨k', i', hk, hstart, hchild, hright⟩ := h.right hn hlt
    exact .inr ⟨k', i', hk, hchild, hstart, hright⟩

/-- **Above a distinguished entry** all entries are distinguished. -/
theorem directPath_mem (hn : n < 2 ^ 64) {x : ℕ} (hx : x ∈ dset) : ∀ {k i size fuel : ℕ}
    {bounds : U64 × U64} {parentDist : Bool}, Bounds ts rmw n dset k i size bounds parentDist →
    k < fuel → i * 2 ^ (k + 1) ≤ x → x < i * 2 ^ (k + 1) + size →
    ∀ a ∈ ibstDirectPathLoop x fuel size (i * 2 ^ (k + 1)), a ∈ dset := by
  intro k
  induction k using Nat.strong_induction_on with
  | _ k ih =>
    intro i size fuel bounds parentDist h hfuel hlow hhigh a ha
    obtain ⟨fuel, rfl⟩ := Nat.exists_eq_succ_of_ne_zero (show fuel ≠ 0 by omega)
    obtain ⟨hpos, hleft, hroot, hright⟩ := h.block.halving hn
    have hdist : isDist rmw bounds parentDist = true := by
      by_contra hfalse
      exact h.not_mem (Bool.eq_false_iff.2 hfalse) hlow hhigh hx
    rw [ibstDirectPathLoop, if_pos hpos, hleft] at ha
    dsimp only at ha
    rw [hroot, hright] at ha
    split_ifs at ha with h₁ h₂
    · cases ha
    · obtain ⟨k', i', hk, -, hstart, hbelow⟩ := h.leftChild hn (by
        cases k with
        | zero =>
          rw [node_zero] at h₂
          omega
        | succ k => simp [isLeaf_node])
      rcases List.mem_cons.1 ha with rfl | ha
      · exact h.mem_node.2 hdist
      · have hnode : node k i = i * 2 ^ (k + 1) + (2 ^ k - 1) := rfl
        rw [← hstart] at ha
        exact ih k' hk hbelow (by omega) (by omega) (by omega) a ha
    · have hnode : node k i = i * 2 ^ (k + 1) + (2 ^ k - 1) := rfl
      have := Nat.two_pow_pos k
      obtain ⟨k', i', hk, hstart, -, hbelow⟩ := h.right hn (show 2 ^ k < size by omega)
      rcases List.mem_cons.1 ha with rfl | ha
      · exact h.mem_node.2 hdist
      · rw [← hstart] at ha
        exact ih k' hk hbelow (by omega) (by omega) (by omega) a ha

/-- The list of the whole log. -/
theorem whole (h₀ : 0 < n) (ts : ℕ → U64) (rmw : ℕ) (rightmostTs : U64) :
    Bounds ts rmw n (distinguishedIn (fun p => (ts p).val) rmw n (Nat.log2 n) 0 0 rightmostTs.val)
      (Nat.log2 n) 0 n (0, rightmostTs) true :=
  ⟨.root h₀, fun x _ _ => by simp⟩

end Bounds

/-! ### The walks from the root -/

section

variable {ts : ℕ → U64} {rmw n k i size pos : ℕ} {dset : List ℕ} {t : Tree}

theorem Tree.exists_visitTimestampOnly {x : ℕ} (hts : t.store.timestamp x = some (ts x))
    (session : TraversalSession) : ∃ session', session.visitTimestampOnly t x = .ok session' := by
  rw [TraversalSession.visitTimestampOnly, LogTree.getTimestamp, hts, okOr_some, Result.ok_bind]
  cases LogTree.getPrefixRoot t.store x with
  | ok root => exact ⟨_, rfl⟩
  | error e => exact ⟨_, rfl⟩

/-- **The server's walk to an obligation** ends, and classifies it. -/
theorem Tree.contactAncestorsLoop_classifies (hn : n < 2 ^ 64)
    (hts : ∀ x < n, t.store.timestamp x = some (ts x))
    (hrmw : t.config.reasonableMonitoringWindow = rmw) : ∀ {k i size fuel : ℕ} {a : ContactAncestors},
    Bounds ts rmw n dset k i size a.bounds true → k < fuel → i * 2 ^ (k + 1) ≤ pos →
      pos < i * 2 ^ (k + 1) + size → a.curr = node k i → a.parentDist = true →
      ∃ a', contactAncestorsLoop t n pos fuel a = .ok a' ∧
        ((a'.parentDist = true ∧ a'.curr = pos ∧ rmw ≤ a'.bounds.2.val - a'.bounds.1.val) ↔ pos ∈ dset) := by
  intro k
  induction k using Nat.strong_induction_on with
  | _ k ih =>
    intro i size fuel a h hfuel hlow hhigh hcurr hparent
    obtain ⟨fuel, rfl⟩ := Nat.exists_eq_succ_of_ne_zero (show fuel ≠ 0 by omega)
    rw [contactAncestorsLoop]
    by_cases hpos : a.curr = pos
    · rw [if_pos hpos]
      refine ⟨a, rfl, ?_⟩
      rw [← hpos, hcurr, h.mem_node, isDist, Bool.true_and, decide_eq_true_eq]
      simp [hparent]
    · obtain ⟨session, hsession⟩ := Tree.exists_visitTimestampOnly (hts _ h.block.node_lt) a.session
      have hget : LogTree.getTimestamp t.store (node k i) = .ok (ts (node k i)) := by
        rw [LogTree.getTimestamp, hts _ h.block.node_lt, okOr_some]
      rw [if_neg hpos, hcurr, hsession, Result.ok_bind, hget, Result.ok_bind, hparent, hrmw]
      dsimp only
      cases hdist : isDist rmw a.bounds true with
      | false =>
        have hfalse : (true && decide (rmw ≤ a.bounds.2.val - a.bounds.1.val)) = false := hdist
        rw [hfalse, if_pos rfl]
        refine ⟨_, rfl, ?_⟩
        simp [h.not_mem hdist hlow hhigh]
      | true =>
        have htrue : (true && decide (rmw ≤ a.bounds.2.val - a.bounds.1.val)) = true := hdist
        rw [htrue, if_neg (by simp)]
        obtain ⟨k', i', size', hk, hlow', hhigh', hstep⟩ := h.toward hn hlow hhigh (hcurr ▸ hpos)
        rw [hdist] at hstep
        rcases hstep with ⟨hlt, -, hchild, hnext⟩ | ⟨hgt, hchild, hnext⟩
        · rw [if_pos hlt]
          exact ih k' hk hnext (by omega) hlow' hhigh' hchild rfl
        · rw [if_neg (by omega), hchild]
          exact ih k' hk hnext (by omega) hlow' hhigh' rfl rfl

/-- **The verifier's walk to an obligation** classifies it, when it reads the timestamps
of the log. -/
theorem KtClient.ancestorLoop_classifies (hn : n < 2 ^ 64) :
    ∀ {k i size fuel : ℕ} {a a' : AncestorWalk},
    Bounds ts rmw n dset k i size a.bounds true → i * 2 ^ (k + 1) ≤ pos →
      pos < i * 2 ^ (k + 1) + size → a.curr = node k i → a.parentDist = true →
      KtClient.ancestorLoop n rmw pos fuel a = .ok a' →
      (∀ e ∈ a'.reader.assignedTs.entries, e.2 = ts e.1) →
      ((a'.parentDist = true ∧ a'.curr = pos ∧ rmw ≤ a'.bounds.2.val - a'.bounds.1.val) ↔ pos ∈ dset) := by
  intro k
  induction k using Nat.strong_induction_on with
  | _ k ih =>
    intro i size fuel a a' h hlow hhigh hcurr hparent hwalk hread
    cases fuel with
    | zero => cases hwalk
    | succ fuel =>
      rw [ancestorLoop] at hwalk
      by_cases hpos : a.curr = pos
      · rw [if_pos hpos] at hwalk
        obtain rfl := Except.ok.inj hwalk
        rw [← hpos, hcurr, h.mem_node, isDist, Bool.true_and, decide_eq_true_eq]
        simp [hparent]
      · rw [if_neg hpos] at hwalk
        obtain ⟨⟨tsCurr, reader⟩, hts, hwalk⟩ := Result.bind_eq_ok.1 hwalk
        have hmem := ProofReader.mem_of_timestamp hts
        rw [hparent] at hwalk
        dsimp only at hwalk
        cases hdist : isDist rmw a.bounds true with
        | false =>
          have hfalse : (true && decide (rmw ≤ a.bounds.2.val - a.bounds.1.val)) = false := hdist
          rw [hfalse, if_pos rfl] at hwalk
          obtain rfl := Except.ok.inj hwalk
          simp [h.not_mem hdist hlow hhigh]
        | true =>
          have htrue : (true && decide (rmw ≤ a.bounds.2.val - a.bounds.1.val)) = true := hdist
          rw [htrue, if_neg (by simp)] at hwalk
          obtain ⟨k', i', size', hk, hlow', hhigh', hstep⟩ := h.toward hn hlow hhigh (hcurr ▸ hpos)
          rw [hdist] at hstep
          rcases hstep with ⟨hlt, -, hchild, hnext⟩ | ⟨hgt, hchild, hnext⟩
          · rw [if_pos (hcurr ▸ hlt)] at hwalk
            have hlog : a.curr < n := hcurr ▸ h.block.node_lt
            have hkeeps := (ancestorLoop_extends (by omega) ((leftChild_le (by omega)).trans_lt hlog)
              hwalk).keeps hmem
            have htsCurr : tsCurr = ts (node k i) := hcurr ▸ hread _ hkeeps
            rw [← htsCurr] at hnext
            exact ih k' hk hnext hlow' hhigh' (hcurr ▸ hchild) rfl hwalk hread
          · rw [if_neg (by omega), hcurr, hchild] at hwalk
            have hkeeps := (ancestorLoop_extends (by omega) (ibstRightChild_lt hchild) hwalk).keeps hmem
            have htsCurr : tsCurr = ts (node k i) := hcurr ▸ hread _ hkeeps
            rw [← htsCurr] at hnext
            exact ih k' hk hnext hlow' hhigh' rfl rfl hwalk hread

end

/-! ### A search for a fixed version -/

namespace KtClient

section

variable {P : Primitives} {c : KtClient} {label : Octets} {target n start bound : ℕ}
  {binaryLadder : List BinaryLadderStep} {comm : Octets} {ts : ℕ → U64} {dset : List ℕ}

/-- From one entry of a search to the next. -/
def FixedTurn (P : Primitives) (c : KtClient) (label : Octets) (n target : ℕ)
    (binaryLadder : List BinaryLadderStep) (comm : Octets) (rightmostTs : U64)
    (e e' : ℕ × FixedWalk) : Prop :=
  c.fixedStep P label n target binaryLadder comm rightmostTs e.1 e.2 = .ok (.goto e'.1, e'.2)

/-- **A turn** reads the timestamp of the entry, tests it, and goes on to a child with the
bounds of that side. -/
theorem FixedTurn.child {rightmostTs : U64} {e e' : ℕ × FixedWalk}
    (h : FixedTurn P c label n target binaryLadder comm rightmostTs e e') :
    (∀ t ∈ e.2.reader.assignedTs.entries, t ∈ e'.2.reader.assignedTs.entries) ∧
      e'.2.parentDist = isDist c.config.reasonableMonitoringWindow e.2.bounds e.2.parentDist ∧
      ∃ tsCurr, (e.1, tsCurr) ∈ e'.2.reader.assignedTs.entries ∧
        (isLeaf e.1 = false ∧ leftChild e.1 = e'.1 ∧ e'.2.bounds = (e.2.bounds.1, tsCurr) ∨
          ibstRightChild e.1 n = some e'.1 ∧ e'.2.bounds = (tsCurr, e.2.bounds.2)) := by
  obtain ⟨curr, w⟩ := e
  obtain ⟨child, w'⟩ := e'
  simp only [FixedTurn, fixedStep, Result.bind_eq_ok] at h
  obtain ⟨⟨tsCurr, reader⟩, hts, h⟩ := h
  have hreads := (ProofReader.timestamp_reads hts).1
  have hmem := ProofReader.mem_of_timestamp hts
  have hright : ∀ {rc}, (if isLeaf curr then none else ibstRightChild curr n) = some rc →
      ibstRightChild curr n = some rc := by
    intro rc hrc
    split_ifs at hrc
    exact hrc
  dsimp only at h
  generalize (if isLeaf curr then none else ibstRightChild curr n) = rightChild at h hright
  by_cases hexp : isExpired c.config.maximumLifetime rightmostTs tsCurr = true
  · rw [if_pos hexp] at h
    cases rightChild with
    | none => simp [pure, Except.pure] at h
    | some rc =>
      obtain ⟨⟨⟩, rfl⟩ := Prod.mk.inj (Except.ok.inj h)
      exact ⟨hreads, rfl, tsCurr, hmem, .inr ⟨hright rfl, rfl⟩⟩
  · rw [if_neg hexp] at h
    obtain ⟨⟨relation, s⟩, hladder, h⟩ := Result.bind_eq_ok.1 h
    have hkeeps : ∀ t ∈ reader.assignedTs.entries, t ∈ s.reader.assignedTs.entries :=
      fun t ht => (verifyEntryLadder_extends (n := n) hladder).keeps ht
    cases relation with
    | lt =>
      cases rightChild with
      | none => simp [pure, Except.pure] at h
      | some rc =>
        obtain ⟨⟨⟩, rfl⟩ := Prod.mk.inj (Except.ok.inj h)
        exact ⟨fun t ht => hkeeps t (hreads t ht), rfl, tsCurr, hkeeps _ hmem, .inr ⟨hright rfl, rfl⟩⟩
    | gt =>
      cases hleaf : isLeaf curr with
      | true => simp [hleaf, pure, Except.pure] at h
      | false =>
        rw [hleaf] at h
        obtain ⟨⟨⟩, rfl⟩ := Prod.mk.inj (Except.ok.inj h)
        exact ⟨fun t ht => hkeeps t (hreads t ht), rfl, tsCurr, hkeeps _ hmem, .inl ⟨rfl, rfl, rfl⟩⟩
    | eq =>
      dsimp only at h
      split_ifs at h <;> simp [pure, Except.pure, fail] at h

/-- **Along the path of a search** every entry has its bounds. -/
theorem FixedTurn.bounds (hn : n < 2 ^ 64) {rightmostTs : U64} {e e' : ℕ × FixedWalk}
    (hpath : Relation.ReflTransGen (FixedTurn P c label n target binaryLadder comm rightmostTs) e e') :
    (∃ k i size, e.1 = node k i ∧
      Bounds ts c.config.reasonableMonitoringWindow n dset k i size e.2.bounds e.2.parentDist) →
    (∀ t ∈ e'.2.reader.assignedTs.entries, t.2 = ts t.1) →
    ∃ k i size, e'.1 = node k i ∧
      Bounds ts c.config.reasonableMonitoringWindow n dset k i size e'.2.bounds e'.2.parentDist := by
  intro hstart
  induction hpath with
  | refl => exact fun _ => hstart
  | @tail e₁ e₂ _ hturn ih =>
    intro hread
    obtain ⟨hkeeps, hdist, tsCurr, hmem, hchild⟩ := hturn.child
    obtain ⟨k, i, size, hcurr, h⟩ := ih fun t ht => hread t (hkeeps t ht)
    have htsCurr : tsCurr = ts (node k i) := hcurr ▸ hread _ hmem
    rw [hcurr, htsCurr] at hchild
    rcases hchild with ⟨hleaf, hchild, hbounds⟩ | ⟨hchild, hbounds⟩
    · obtain ⟨k', i', -, hchild', -, hbelow⟩ := h.leftChild hn hleaf
      rw [hbounds, hdist]
      exact ⟨k', i', _, hchild.symm.trans hchild', hbelow⟩
    · rcases h.rightChild_cases hn with ⟨hnone, -⟩ | ⟨k', i', -, hchild', -, hbelow⟩
      · cases hnone.symm.trans hchild
      · rw [hbounds, hdist]
        exact ⟨k', i', _, Option.some.inj (hchild.symm.trans hchild'), hbelow⟩

/-! ### The owner's walk -/

/-- **The server's walk** ends, and has a ladder for what is distinguished right of the
start. -/
theorem ownerWalkActions_emits {t : Tree} {history : List (ℕ × ℕ)} {rmw : ℕ} (hn : n < 2 ^ 64)
    (hts : ∀ x < n, t.store.timestamp x = some (ts x)) :
    ∀ {k i size fuel : ℕ} {leftTs rightTs : U64},
    Bounds ts rmw n dset k i size (leftTs, rightTs) true → k < fuel →
    ∃ out, t.ownerWalkActions history start n rmw fuel (node k i) leftTs rightTs = .ok out ∧
      ∀ x, (∃ v, (x, some v) ∈ out) ↔
        i * 2 ^ (k + 1) ≤ x ∧ x < i * 2 ^ (k + 1) + size ∧ start < x ∧ x ∈ dset := by
  intro k
  induction k using Nat.strong_induction_on with
  | _ k ih =>
    intro i size fuel leftTs rightTs h hfuel
    obtain ⟨fuel, rfl⟩ := Nat.exists_eq_succ_of_ne_zero (show fuel ≠ 0 by omega)
    rw [Tree.ownerWalkActions]
    by_cases hw : rightTs.val - leftTs.val < rmw
    · rw [if_pos hw]
      have hdist : isDist rmw (leftTs, rightTs) true = false := by
        rw [isDist, Bool.true_and, decide_eq_false_iff_not]
        exact Nat.not_le.2 hw
      refine ⟨[], rfl, fun x => ?_⟩
      simp only [List.not_mem_nil, exists_false, false_iff]
      rintro ⟨hlow, hhigh, -, hmem⟩
      exact h.not_mem hdist hlow hhigh hmem
    · have hdist : isDist rmw (leftTs, rightTs) true = true := by
        rw [isDist, Bool.true_and, decide_eq_true_eq]
        exact Nat.not_lt.1 hw
      have hget : LogTree.getTimestamp t.store (node k i) = .ok (ts (node k i)) := by
        rw [LogTree.getTimestamp, hts _ h.block.node_lt, okOr_some]
      have hnode : node k i = i * 2 ^ (k + 1) + (2 ^ k - 1) := rfl
      have hpos := Nat.two_pow_pos k
      have hself : node k i ∈ dset := h.mem_node.2 hdist
      -- the right side
      obtain ⟨right, hright, hrightMem⟩ : ∃ right, (if isLeaf (node k i) then none
          else ibstRightChild (node k i) n).elim (.ok []) (fun rc =>
            t.ownerWalkActions history start n rmw fuel rc (ts (node k i)) rightTs) = .ok right ∧
          ∀ x, (∃ v, (x, some v) ∈ right) ↔
            node k i < x ∧ x < i * 2 ^ (k + 1) + size ∧ start < x ∧ x ∈ dset := by
        rw [rightChild_of_isLeaf (show k < 64 by have := h.block.level_lt hn; omega)]
        rcases h.rightChild_cases hn with ⟨hnone, hsize⟩ | ⟨k', i', hk, hchild, hstart, hbelow⟩
        · rw [hnone]
          refine ⟨[], rfl, fun x => ?_⟩
          simp only [List.not_mem_nil, exists_false, false_iff]
          omega
        · rw [hdist] at hbelow
          obtain ⟨right, hright, hmem⟩ := ih k' hk hbelow (show k' < fuel by omega)
          rw [hchild]
          refine ⟨right, hright, fun x => (hmem x).trans ?_⟩
          have := h.block.node_le
          rw [hstart, show node k i + 1 + (size - 2 ^ k) = i * 2 ^ (k + 1) + size by omega]
          exact Iff.rfl
      rw [if_neg hw, hget, Result.ok_bind]
      dsimp only
      rw [hright]
      by_cases hstart : node k i ≤ start
      · rw [if_pos hstart, Result.ok_bind]
        refine ⟨_, rfl, fun x => ?_⟩
        simp only [List.mem_cons, Prod.mk.injEq, reduceCtorEq, and_false, false_or, hrightMem]
        by_cases hmem : x ∈ dset
        · simp only [hmem, and_true]
          omega
        · simp only [hmem, and_false]
      · -- the left side
        obtain ⟨left, hleft, hleftMem⟩ : ∃ left, (if isLeaf (node k i) then .ok []
            else t.ownerWalkActions history start n rmw fuel (LogMath.leftChild (node k i)) leftTs
              (ts (node k i))) = .ok left ∧
            ∀ x, (∃ v, (x, some v) ∈ left) ↔
              i * 2 ^ (k + 1) ≤ x ∧ x < node k i ∧ start < x ∧ x ∈ dset := by
          cases hleaf : isLeaf (node k i) with
          | true =>
            have hzero : k = 0 := by
              rw [isLeaf_node] at hleaf
              exact beq_iff_eq.1 hleaf
            subst hzero
            refine ⟨[], rfl, fun x => ?_⟩
            simp only [List.not_mem_nil, exists_false, false_iff]
            omega
          | false =>
            obtain ⟨k', i', hk, hchild, hstart', hbelow⟩ := h.leftChild hn hleaf
            rw [hdist] at hbelow
            obtain ⟨left, hleft, hmem⟩ := ih k' hk hbelow (show k' < fuel by omega)
            rw [hchild]
            refine ⟨left, hleft, fun x => (hmem x).trans ?_⟩
            rw [hstart', hnode]
        rw [if_neg hstart, hleft, Result.ok_bind, Result.ok_bind]
        refine ⟨_, rfl, fun x => ?_⟩
        simp only [List.cons_append, List.mem_cons, List.mem_append, Prod.mk.injEq, reduceCtorEq,
          and_false, false_or, Option.some.injEq, exists_or, hrightMem, hleftMem]
        by_cases hx : x = node k i
        · subst hx
          have := h.block.node_le
          exact ⟨fun _ => ⟨by omega, by omega, by omega, hself⟩, fun _ => .inr (.inl ⟨_, rfl, rfl⟩)⟩
        · simp only [hx, false_and, exists_false, false_or]
          have := h.block.node_le
          by_cases hmem : x ∈ dset
          · simp only [hmem, and_true]
            omega
          · simp only [hmem, and_false, or_self]

/-- **The verifier's walk** has the prefix roots of what is distinguished right of the
start, when it reads the timestamps of the log. -/
theorem replayOwnerWalk_emits {rmw : ℕ} (hn : n < 2 ^ 64) :
    ∀ {k i size fuel : ℕ} {leftTs rightTs : U64} {s s' : SearchState},
    Bounds ts rmw n dset k i size (leftTs, rightTs) true →
    c.replayOwnerWalk P label start n rmw bound binaryLadder fuel (node k i) leftTs rightTs s = .ok s' →
    (∀ e ∈ s'.reader.assignedTs.entries, e.2 = ts e.1) →
    ∀ x, (s'.entryRoots x).isSome ↔ (s.entryRoots x).isSome ∨
      i * 2 ^ (k + 1) ≤ x ∧ x < i * 2 ^ (k + 1) + size ∧ start < x ∧ x ∈ dset := by
  intro k
  induction k using Nat.strong_induction_on with
  | _ k ih =>
    intro i size fuel leftTs rightTs s s' h hwalk hread x
    have hlevel := h.block.level_lt hn
    have hnode : node k i = i * 2 ^ (k + 1) + (2 ^ k - 1) := rfl
    have hpos := Nat.two_pow_pos k
    have hle := h.block.node_le
    cases fuel with
    | zero => cases hwalk
    | succ fuel =>
      rcases replayOwnerWalk_cases hwalk with ⟨hw, rfl⟩ | ⟨hw, nodeTs, reader, s₁, hts, hentry, hright⟩
      · have hdist : isDist rmw (leftTs, rightTs) true = false := by
          rw [isDist, Bool.true_and, decide_eq_false_iff_not]
          exact Nat.not_le.2 hw
        refine ⟨.inl, ?_⟩
        rintro (hsome | ⟨hlow, hhigh, -, hmem⟩)
        · exact hsome
        · exact absurd hmem (h.not_mem hdist hlow hhigh)
      · have hdist : isDist rmw (leftTs, rightTs) true = true := by
          rw [isDist, Bool.true_and, decide_eq_true_eq]
          exact hw
        rw [rightChild_of_isLeaf (by omega)] at hright
        -- what was read before the right child is read in the end
        have hkeeps : ∀ e ∈ s₁.reader.assignedTs.entries, e.2 = ts e.1 := by
          rcases h.rightChild_cases hn with ⟨hnone, -⟩ | ⟨k', i', -, hchild, -, hbelow⟩
          · rw [hnone] at hright
            obtain rfl := Except.ok.inj hright
            exact hread
          · rw [hchild] at hright
            exact fun e he => hread e
              ((replayOwnerWalk_extends (by omega) hbelow.block.node_lt hright).keeps he)
        have htsNode : nodeTs = ts (node k i) := by
          have hmem := ProofReader.mem_of_timestamp hts
          rcases hentry with ⟨-, rfl⟩ | ⟨-, s₂, pp, reader', root, found, ladders, entryRoots, hleft,
            hpp, -, -, -, rfl⟩
          · exact hkeeps _ hmem
          · refine hkeeps (node k i, nodeTs) ((ProofReader.prefixProof_extends (n := n) hpp).keeps ?_)
            cases hleaf : isLeaf (node k i) with
            | true =>
              rw [hleaf] at hleft
              obtain rfl := Except.ok.inj hleft
              exact hmem
            | false =>
              rw [hleaf] at hleft
              exact (replayOwnerWalk_extends (by omega)
                ((leftChild_le (by have := h.block.node_lt; omega)).trans_lt h.block.node_lt) hleft).keeps
                hmem
        subst htsNode
        have hrightMem : (s'.entryRoots x).isSome ↔ (s₁.entryRoots x).isSome ∨
            node k i < x ∧ x < i * 2 ^ (k + 1) + size ∧ start < x ∧ x ∈ dset := by
          rcases h.rightChild_cases hn with ⟨hnone, hsize⟩ | ⟨k', i', hk, hchild, hstart, hbelow⟩
          · rw [hnone] at hright
            obtain rfl := Except.ok.inj hright
            refine ⟨.inl, ?_⟩
            rintro (hsome | ⟨hlow, hhigh, -, -⟩)
            · exact hsome
            · omega
          · rw [hchild] at hright
            rw [hdist] at hbelow
            rw [ih k' hk hbelow hright hread x, hstart,
              show node k i + 1 + (size - 2 ^ k) = i * 2 ^ (k + 1) + size by omega]
            exact Iff.rfl
        rw [hrightMem]
        rcases hentry with ⟨hstart, rfl⟩ | ⟨hstart, s₂, pp, reader', root, found, ladders, entryRoots,
          hleft, hpp, -, -, hrecord, rfl⟩
        · by_cases hmem : x ∈ dset
          · simp only [hmem, and_true]
            exact or_congr_right (by omega)
          · simp only [hmem, and_false]
        · have hreads : ∀ e ∈ s₂.reader.assignedTs.entries, e.2 = ts e.1 :=
            fun e he => hkeeps e ((ProofReader.prefixProof_extends (n := n) hpp).keeps he)
          have hleftMem : (s₂.entryRoots x).isSome ↔ (s.entryRoots x).isSome ∨
              i * 2 ^ (k + 1) ≤ x ∧ x < node k i ∧ start < x ∧ x ∈ dset := by
            cases hleaf : isLeaf (node k i) with
            | true =>
              have hzero : k = 0 := by
                rw [isLeaf_node] at hleaf
                exact beq_iff_eq.1 hleaf
              subst hzero
              rw [hleaf] at hleft
              obtain rfl := Except.ok.inj hleft
              refine ⟨.inl, ?_⟩
              rintro (hsome | ⟨hlow, hhigh, -, -⟩)
              · exact hsome
              · omega
            | false =>
              obtain ⟨k', i', hk, hchild, hstart', hbelow⟩ := h.leftChild hn hleaf
              rw [hleaf, hchild] at hleft
              rw [hdist] at hbelow
              rw [ih k' hk hbelow hleft hreads x, hstart', hnode]
          have hself : node k i ∈ dset := h.mem_node.2 hdist
          have hrecorded : (entryRoots x).isSome ↔ x = node k i ∨ (s₂.entryRoots x).isSome := by
            obtain ⟨-, -, hrecord⟩ := Result.bind_eq_ok.1 hrecord
            obtain rfl := Except.ok.inj hrecord
            by_cases hx : x = node k i
            · simp [hx]
            · simp [hx]
          dsimp only
          rw [hrecorded, hleftMem]
          by_cases hx : x = node k i
          · subst hx
            exact ⟨fun _ => .inr ⟨by omega, by omega, hstart, hself⟩, fun _ => .inl (.inl rfl)⟩
          · by_cases hmem : x ∈ dset
            · simp only [hx, hmem, and_true, false_or, or_assoc]
              exact or_congr_right (by omega)
            · simp only [hx, hmem, and_false, false_or, or_false]

/-- **The roots that were there before** make no difference to a walk that succeeds. -/
theorem replayOwnerWalk_fewer {rmw : ℕ} : ∀ {fuel node : ℕ} {leftTs rightTs : U64}
    {s s' : SearchState} {fewer : NodeMap},
    c.replayOwnerWalk P label start n rmw bound binaryLadder fuel node leftTs rightTs s = .ok s' →
    RootsKept fewer s.entryRoots →
    ∃ fewer', c.replayOwnerWalk P label start n rmw bound binaryLadder fuel node leftTs rightTs
        { s with entryRoots := fewer } = .ok { s' with entryRoots := fewer' } ∧
      RootsKept fewer' s'.entryRoots
  | 0, node, leftTs, rightTs, s, s', fewer, h, _ => by cases h
  | fuel + 1, node, leftTs, rightTs, s, s', fewer, h, hfewer => by
    rw [replayOwnerWalk]
    rcases replayOwnerWalk_cases h with ⟨hw, rfl⟩ | ⟨hw, nodeTs, reader, s₁, hts, hentry, hright⟩
    · rw [if_pos hw]
      exact ⟨fewer, rfl, hfewer⟩
    · rw [if_neg (by omega)]
      dsimp only
      rw [hts, Result.ok_bind]
      dsimp only
      -- the right child, from any smaller map
      have hrest : ∀ {m : NodeMap}, RootsKept m s₁.entryRoots → ∃ fewer',
          (if isLeaf node then none else ibstRightChild node n).elim
            (.ok { s₁ with entryRoots := m }) (fun rc => c.replayOwnerWalk P label start n rmw bound
              binaryLadder fuel rc nodeTs rightTs { s₁ with entryRoots := m }) =
            .ok { s' with entryRoots := fewer' } ∧ RootsKept fewer' s'.entryRoots := by
        intro m hm
        generalize (if isLeaf node then none else ibstRightChild node n) = rightChild at hright ⊢
        cases rightChild with
        | none =>
          obtain rfl := Except.ok.inj hright
          exact ⟨m, rfl, hm⟩
        | some rc => exact replayOwnerWalk_fewer hright hm
      rcases hentry with ⟨hstart, rfl⟩ | ⟨hstart, s₂, pp, reader', root, found, ladders, entryRoots,
        hleft, hpp, hladder, hbound, hrecord, rfl⟩
      · rw [if_pos hstart]
        exact hrest hfewer
      · rw [if_neg (by omega)]
        obtain ⟨fewer₂, hleft', hfewer₂⟩ : ∃ fewer₂, (if isLeaf node then
              .ok { s with reader := reader, entryRoots := fewer }
            else c.replayOwnerWalk P label start n rmw bound binaryLadder fuel (leftChild node) leftTs
              nodeTs { s with reader := reader, entryRoots := fewer }) =
            .ok { s₂ with entryRoots := fewer₂ } ∧ RootsKept fewer₂ s₂.entryRoots := by
          split_ifs at hleft ⊢ with hleaf
          · obtain rfl := Except.ok.inj hleft
            exact ⟨fewer, rfl, hfewer⟩
          · exact replayOwnerWalk_fewer hleft hfewer
        obtain ⟨⟨⟩, hagree, hrecord⟩ := Result.bind_eq_ok.1 hrecord
        obtain rfl := Except.ok.inj hrecord
        have hagree := ensure_eq_ok.1 hagree
        have hrecord' : ProofReader.recordEntryRoot fewer₂ node root =
            .ok (Function.update fewer₂ node (some root)) := by
          rw [ProofReader.recordEntryRoot, ensure_of (show ∀ prev ∈ fewer₂ node, prev = root from
            fun prev hprev => hagree prev (hfewer₂ _ _ hprev))]
          rfl
        rw [hleft', Result.ok_bind]
        dsimp only
        rw [hpp, Result.ok_bind]
        dsimp only
        rw [hladder, Result.context_ok, Result.ok_bind]
        dsimp only
        rw [ensure_of hbound, Result.ok_bind, hrecord', Result.ok_bind]
        refine hrest fun x r hr => ?_
        by_cases hx : x = node
        · subst hx
          rw [Function.update_self] at hr
          exact (Function.update_self ..).trans hr
        · rw [Function.update_of_ne hx] at hr
          exact (Function.update_of_ne hx ..).trans (hfewer₂ x r hr)

end

end KtClient

/-! ### The five traversals -/

/-- A reader that has read the timestamps of a log only. -/
def ProofReader.ReadsLog (reader : ProofReader) (ts : ℕ → U64) : Prop :=
  ∀ e ∈ reader.assignedTs.entries, e.2 = ts e.1

/-- **Five traversals of a log**, and the entries that they find distinguished. -/
structure DistinguishedTests (P : Primitives) (t : Tree) (c : KtClient) (ts : ℕ → U64) (n : ℕ)
    (dset : List ℕ) : Prop where
  /-- Above a distinguished entry all entries are. -/
  ancestors : ∀ p < n, p ∈ dset → ∀ a ∈ ibstDirectPath p n, a ∈ dset
  /-- `visit_contact_entries` -/
  visited : ∀ p < n, ∀ session, ∃ a,
    t.contactAncestorsLoop n p 65 ⟨session, (0, ts (n - 1)), true, fun _ => false, root n⟩ = .ok a ∧
    ((a.parentDist = true ∧ a.curr = p ∧
      t.config.reasonableMonitoringWindow ≤ a.bounds.2.val - a.bounds.1.val) ↔ p ∈ dset)
  /-- `replay_contact_ladders` -/
  replayed : ∀ p < n, ∀ reader a,
    KtClient.ancestorLoop n c.config.reasonableMonitoringWindow p 65
      ⟨reader, (0, ts (n - 1)), true, fun _ => false, root n⟩ = .ok a →
    a.reader.ReadsLog ts →
    ((a.parentDist = true ∧ a.curr = p ∧
      c.config.reasonableMonitoringWindow ≤ a.bounds.2.val - a.bounds.1.val) ↔ p ∈ dset)
  /-- `simulate_fixed_search`, at every entry that it comes to -/
  searched : ∀ label target binaryLadder comm s p w, Relation.ReflTransGen
      (KtClient.FixedTurn P c label n target binaryLadder comm (ts (n - 1)))
      (root n, ⟨s, (0, ts (n - 1)), true, false, false, [], []⟩) (p, w) →
    w.reader.ReadsLog ts →
    (isDist c.config.reasonableMonitoringWindow w.bounds w.parentDist = true ↔ p ∈ dset)
  /-- `owner_walk_actions` -/
  ownerActions : ∀ history start, ∃ out,
    t.ownerWalkActions history start n t.config.reasonableMonitoringWindow 65 (root n) 0 (ts (n - 1)) =
      .ok out ∧
    ∀ p < n, start < p → ((∃ v, (p, some v) ∈ out) ↔ p ∈ dset)
  /-- `replay_owner_walk`: the roots that it records, apart from those that were there -/
  ownerReplayed : ∀ label start bound binaryLadder s s',
    c.replayOwnerWalk P label start n c.config.reasonableMonitoringWindow bound binaryLadder 65 (root n)
      0 (ts (n - 1)) s = .ok s' →
    s'.reader.ReadsLog ts →
    ∃ recorded, c.replayOwnerWalk P label start n c.config.reasonableMonitoringWindow bound
        binaryLadder 65 (root n) 0 (ts (n - 1)) { s with entryRoots := fun _ => none } =
      .ok { s' with entryRoots := recorded } ∧
    ∀ p < n, start < p → ((recorded p).isSome ↔ p ∈ dset)

/-- **The tests for distinguished entries agree**, for every log, whatever its timestamps. -/
theorem distinguished_tests_agree {P : Primitives} {t : Tree} {c : KtClient} {ts : ℕ → U64} {n : ℕ}
    (h₀ : 0 < n) (hn : n < 2 ^ 64) (hts : ∀ p < n, t.store.timestamp p = some (ts p))
    (hrmw : t.config.reasonableMonitoringWindow = c.config.reasonableMonitoringWindow) :
    ∃ dset, t.findDistinguishedNodes n = .ok dset ∧ DistinguishedTests P t c ts n dset := by
  have hroot : root n = node (Nat.log2 n) 0 := root_eq h₀ hn
  have hlevel : Nat.log2 n < 64 := (Nat.log2_lt (by omega)).2 hn
  have hstart : 0 * 2 ^ (Nat.log2 n + 1) = 0 := Nat.zero_mul _
  refine ⟨_, Tree.findDistinguishedNodes_eq h₀ hn Nat.lt_log2_self hts, ?_⟩
  rw [hrmw]
  have hwhole := Bounds.whole h₀ ts c.config.reasonableMonitoringWindow (ts (n - 1))
  constructor
  · intro p hp hmem a ha
    have hmem' := hwhole.directPath_mem hn hmem (show Nat.log2 n < 65 by omega) (by omega) (by omega) a
    rw [hstart] at hmem'
    exact hmem' (List.mem_reverse.1 ha)
  · intro p hp session
    rw [hrmw]
    exact Tree.contactAncestorsLoop_classifies hn hts hrmw hwhole (by omega) (by omega) (by omega) hroot rfl
  · intro p hp reader a hwalk hread
    exact KtClient.ancestorLoop_classifies hn hwhole (by omega) (by omega) hroot rfl hwalk hread
  · intro label target binaryLadder comm s p w hpath hread
    obtain ⟨k, i, size, rfl, hbounds⟩ := KtClient.FixedTurn.bounds hn hpath ⟨_, _, _, hroot, hwhole⟩ hread
    exact hbounds.mem_node.symm
  · intro history start
    rw [hrmw, hroot]
    obtain ⟨out, hout, hmem⟩ := KtClient.ownerWalkActions_emits hn hts
      hwhole (show Nat.log2 n < 65 by omega)
    refine ⟨out, hout, fun p hp hlt => (hmem p).trans ?_⟩
    exact ⟨fun h => h.2.2.2, fun h => ⟨by omega, by omega, hlt, h⟩⟩
  · intro label start bound binaryLadder s s' hwalk hread
    rw [hroot] at hwalk ⊢
    have hnone : RootsKept (fun _ => none) s.entryRoots := fun _ _ h => by cases h
    obtain ⟨recorded, hwalk', -⟩ := KtClient.replayOwnerWalk_fewer hwalk hnone
    refine ⟨recorded, hwalk', fun p hp hlt => ?_⟩
    have hmem := KtClient.replayOwnerWalk_emits hn hwhole hwalk' hread p
    rw [hmem]
    simp only [Option.isSome_none, Bool.false_eq_true, false_or]
    exact ⟨fun h => h.2.2.2, fun h => ⟨by omega, by omega, hlt, h⟩⟩

/-- A log of four entries, ten milliseconds apart. -/
theorem distinguished_tests_agree_four : ∃ dset,
    (Tree.tickingServer 4).findDistinguishedNodes 4 = .ok dset ∧
      DistinguishedTests Primitives.ideal (Tree.tickingServer 4) (sampleClient 15)
        (fun p => Fin.ofNat _ (10 * p)) 4 dset :=
  distinguished_tests_agree (by decide) (by decide) (fun _ hp => if_pos hp) rfl

end KeyTransparency
