/-
# What an operation reads

Every operation on a tree head reads the timestamps of the frontier first and goes on
to other entries of the log, as its proof and the answers in it lead it.  A reader
that has gone on (`ProofReader.Extends`) has forgotten nothing and has been at entries
of the log only, so that the last entry of the log is among the ones a commit is made
with (`Accepted.reads`).
-/

import KeyTransparency.Client.Session

namespace KeyTransparency

open BinaryLadder InOrder LogMath

namespace ProofReader

/-- A reader that has gone on over a log: nothing that was read is gone, and what was
read since is the log's. -/
structure Extends (n : ℕ) (r r' : ProofReader) : Prop where
  keeps : ∀ {e}, e ∈ r.assignedTs.entries → e ∈ r'.assignedTs.entries
  below : ∀ {e}, e ∈ r'.assignedTs.entries → e ∈ r.assignedTs.entries ∨ e.1 < n

section

variable {n pos : ℕ} {r r' r'' : ProofReader} {ts : U64}

theorem Extends.refl (n : ℕ) (r : ProofReader) : r.Extends n r := ⟨id, .inl⟩

theorem Extends.trans (h : r.Extends n r') (h' : r'.Extends n r'') : r.Extends n r'' := by
  refine ⟨fun he => h'.keeps (h.keeps he), fun he => ?_⟩
  rcases h'.below he with he | he
  · exact h.below he
  · exact .inr he

/-- The timestamp of an entry is among the ones read afterwards. -/
theorem mem_of_timestamp (h : r.timestamp pos = .ok (ts, r')) :
    (pos, ts) ∈ r'.assignedTs.entries := by
  rw [timestamp] at h
  split at h
  · rename_i ts' hget
    obtain ⟨rfl, rfl⟩ := Prod.mk.inj (Except.ok.inj h)
    exact OrderedMap.get_eq_some.1 hget
  · split at h
    · cases h
    · split_ifs at h
      · obtain ⟨rfl, rfl⟩ := Prod.mk.inj (Except.ok.inj h)
        exact OrderedMap.get_eq_some.1 (by rw [OrderedMap.get_insert, if_pos rfl])
      · cases h
      · cases h

/-- Asking for a timestamp reads that one entry at most. -/
theorem timestamp_reads (h : r.timestamp pos = .ok (ts, r')) :
    (∀ e ∈ r.assignedTs.entries, e ∈ r'.assignedTs.entries) ∧
      ∀ e ∈ r'.assignedTs.entries, e ∈ r.assignedTs.entries ∨ e.1 = pos := by
  rw [timestamp] at h
  split at h
  · obtain ⟨-, rfl⟩ := Prod.mk.inj (Except.ok.inj h)
    exact ⟨fun _ he => he, fun _ => .inl⟩
  · rename_i hnone
    split at h
    · cases h
    · split_ifs at h
      · obtain ⟨-, rfl⟩ := Prod.mk.inj (Except.ok.inj h)
        constructor
        · rintro ⟨q, tq⟩ he
          have hget := OrderedMap.get_eq_some.2 he
          have hne : q ≠ pos := by
            rintro rfl
            cases hnone.symm.trans hget
          exact OrderedMap.get_eq_some.1 ((OrderedMap.get_insert_of_ne hne).trans hget)
        · rintro ⟨q, tq⟩ he
          by_cases hq : q = pos
          · exact .inr hq
          · exact .inl (OrderedMap.get_eq_some.1
              ((OrderedMap.get_insert_of_ne hq).symm.trans (OrderedMap.get_eq_some.2 he)))
      · cases h
      · cases h

theorem timestamp_extends (h : r.timestamp pos = .ok (ts, r')) (hpos : pos < n) :
    r.Extends n r' :=
  ⟨fun he => (timestamp_reads h).1 _ he,
    fun {e} he => ((timestamp_reads h).2 e he).imp_right fun (heq : e.1 = pos) => heq.symm ▸ hpos⟩

theorem timestamps_reads : ∀ {positions : List ℕ} {r : ProofReader}, r.timestamps positions = .ok r' →
    ∀ e ∈ r'.assignedTs.entries, e ∈ r.assignedTs.entries ∨ e.1 ∈ positions
  | [], r, h, e, he => by
    obtain rfl := Except.ok.inj h
    exact .inl he
  | pos :: positions, r, h, e, he => by
    obtain ⟨⟨ts, r₁⟩, hts, hrest⟩ := Result.bind_eq_ok.1 h
    rcases timestamps_reads hrest e he with he | he
    · exact ((timestamp_reads hts).2 e he).imp_right fun heq => List.mem_cons.2 (.inl heq)
    · exact .inr (List.mem_cons_of_mem _ he)

theorem timestamps_extends : ∀ {positions : List ℕ} {r : ProofReader},
    r.timestamps positions = .ok r' → (∀ p ∈ positions, p < n) →
      r.Extends n r' ∧ ∀ p ∈ positions, ∃ ts, (p, ts) ∈ r'.assignedTs.entries
  | [], r, h, _ => by
    obtain rfl := Except.ok.inj h
    exact ⟨.refl n r, fun p hp => absurd hp List.not_mem_nil⟩
  | pos :: positions, r, h, hlt => by
    obtain ⟨⟨ts, r₁⟩, hts, hrest⟩ := Result.bind_eq_ok.1 h
    have hfirst := timestamp_extends hts (hlt pos List.mem_cons_self)
    obtain ⟨hext, hmem⟩ := timestamps_extends hrest fun p hp => hlt p (List.mem_cons_of_mem _ hp)
    refine ⟨hfirst.trans hext, fun p hp => ?_⟩
    rcases List.mem_cons.1 hp with rfl | hp
    · exact ⟨ts, hext.keeps (mem_of_timestamp hts)⟩
    · exact hmem p hp

theorem prefixProof_extends {pp : PrefixProof} (h : r.prefixProof = .ok (pp, r')) :
    r.Extends n r' := by
  simp only [prefixProof, Result.bind_eq_ok] at h
  obtain ⟨pp', -, h⟩ := h
  obtain ⟨-, rfl⟩ := Prod.mk.inj (Except.ok.inj h)
  exact ⟨id, .inl⟩

end

end ProofReader

namespace KtClient

variable {P : Primitives} {c : KtClient} {label : Octets} {target n : ℕ}
  {binaryLadder : List BinaryLadderStep} {comm : Octets}

/-! ### Searches -/

theorem verifyEntryLadder_extends {greatest isRightmost : Bool} {entry : ℕ} {relation : Ordering}
    {s s' : SearchState}
    (h : c.verifyEntryLadder P label target binaryLadder comm greatest isRightmost entry s =
      .ok (relation, s')) : s.reader.Extends n s'.reader := by
  simp only [verifyEntryLadder, Result.bind_eq_ok] at h
  obtain ⟨⟨pp, reader⟩, hpp, ⟨root, relation', ladders⟩, -, entryRoots, -, h⟩ := h
  obtain ⟨-, rfl⟩ := Prod.mk.inj (Except.ok.inj h)
  exact ProofReader.prefixProof_extends hpp

theorem greatestWalk_extends {rightmost : ℕ} : ∀ {entries : List ℕ} {first first' : Option ℕ}
    {s s' : SearchState},
    c.greatestWalk P label target binaryLadder comm rightmost entries first s = .ok (first', s') →
    s.reader.Extends n s'.reader
  | [], first, first', s, s', h => by
    obtain ⟨-, rfl⟩ := Prod.mk.inj (Except.ok.inj h)
    exact .refl n _
  | entry :: entries, first, first', s, s', h => by
    obtain ⟨⟨relation, s₁⟩, h₁, h₂⟩ := Result.bind_eq_ok.1 h
    exact (verifyEntryLadder_extends h₁).trans (greatestWalk_extends h₂)

/-- One turn reads the current entry and goes on to one of the log. -/
theorem fixedStep_extends {curr : ℕ} {rightmostTs : U64} {turn : Walk} {w w' : FixedWalk}
    (hn : n < 2 ^ 64) (hcurr : curr < n)
    (h : c.fixedStep P label n target binaryLadder comm rightmostTs curr w = .ok (turn, w')) :
    w.reader.Extends n w'.reader ∧ ∀ entry, turn = .goto entry → entry < n := by
  simp only [fixedStep, Result.bind_eq_ok] at h
  obtain ⟨⟨ts, reader⟩, hts, h⟩ := h
  have hts := ProofReader.timestamp_extends hts hcurr
  have hright := @lt_of_rightChild curr n
  dsimp only at h
  generalize (if isLeaf curr then none else ibstRightChild curr n) = rightChild at h hright
  by_cases hexp : isExpired c.config.maximumLifetime rightmostTs ts = true
  · rw [if_pos hexp] at h
    cases rightChild with
    | some rc =>
      obtain ⟨rfl, rfl⟩ := Prod.mk.inj (Except.ok.inj h)
      refine ⟨hts, ?_⟩
      rintro entry ⟨⟩
      exact hright rfl
    | none =>
      obtain ⟨rfl, rfl⟩ := Prod.mk.inj (Except.ok.inj h)
      exact ⟨hts, fun _ => by simp⟩
  · rw [if_neg hexp] at h
    obtain ⟨⟨relation, s⟩, hladder, h⟩ := Result.bind_eq_ok.1 h
    have hext := hts.trans (verifyEntryLadder_extends hladder)
    cases relation with
    | lt =>
      cases rightChild with
      | some rc =>
        obtain ⟨rfl, rfl⟩ := Prod.mk.inj (Except.ok.inj h)
        refine ⟨hext, ?_⟩
        rintro entry ⟨⟩
        exact hright rfl
      | none =>
        obtain ⟨rfl, rfl⟩ := Prod.mk.inj (Except.ok.inj h)
        exact ⟨hext, fun _ => by simp⟩
    | gt =>
      cases hleaf : isLeaf curr <;> simp only [hleaf] at h
      · obtain ⟨rfl, rfl⟩ := Prod.mk.inj (Except.ok.inj h)
        refine ⟨hext, ?_⟩
        rintro entry ⟨⟩
        exact (leftChild_le (by omega)).trans_lt hcurr
      · obtain ⟨rfl, rfl⟩ := Prod.mk.inj (Except.ok.inj h)
        exact ⟨hext, fun _ => by simp⟩
    | eq =>
      dsimp only at h
      split_ifs at h
      · obtain ⟨rfl, rfl⟩ := Prod.mk.inj (Except.ok.inj h)
        exact ⟨hext, fun _ => by simp⟩
      · cases h

theorem fixedLoop_extends {rightmostTs : U64} (hn : n < 2 ^ 64) : ∀ {fuel curr : ℕ}
    {terminal : Option ℕ} {w w' : FixedWalk}, curr < n →
    c.fixedLoop P label n target binaryLadder comm rightmostTs fuel curr w = .ok (terminal, w') →
    w.reader.Extends n w'.reader
  | 0, curr, terminal, w, w', _, h => by cases h
  | fuel + 1, curr, terminal, w, w', hcurr, h => by
    obtain ⟨⟨turn, w₁⟩, hstep, h⟩ := Result.bind_eq_ok.1 h
    obtain ⟨hext, hnext⟩ := fixedStep_extends hn hcurr hstep
    cases turn with
    | goto entry => exact hext.trans (fixedLoop_extends hn (hnext _ rfl) h)
    | stop =>
      obtain ⟨-, rfl⟩ := Prod.mk.inj (Except.ok.inj h)
      exact hext
    | terminal entry =>
      obtain ⟨-, rfl⟩ := Prod.mk.inj (Except.ok.inj h)
      exact hext

theorem fixedLookup_extends {w : FixedWalk} {entry : ℕ} {s : SearchState}
    (h : c.fixedLookup P label target binaryLadder comm w = .ok (entry, s)) :
    w.reader.Extends n s.reader := by
  simp only [fixedLookup, Result.bind_eq_ok] at h
  obtain ⟨identified, -, -, -, ⟨pp, reader⟩, hpp, ⟨root, included, ladders⟩, -, entryRoots, -,
    -, -, h⟩ := h
  obtain ⟨-, rfl⟩ := Prod.mk.inj (Except.ok.inj h)
  exact ProofReader.prefixProof_extends hpp

theorem searchWalk_extends {requestedVersion : Option ℕ} {terminal : ℕ} {s s' : SearchState}
    (h₀ : 0 < n) (hn : n < 2 ^ 64)
    (h : c.searchWalk P label requestedVersion n target binaryLadder comm s = .ok (terminal, s')) :
    s.reader.Extends n s'.reader := by
  cases requestedVersion with
  | none =>
    simp only [searchWalk, Result.bind_eq_ok] at h
    obtain ⟨rightmost, -, ⟨first, s₁⟩, hwalk, h⟩ := h
    obtain ⟨-, rfl⟩ := Prod.mk.inj (Except.ok.inj h)
    exact greatestWalk_extends hwalk
  | some v =>
    simp only [searchWalk, simulateFixedSearch, Result.bind_eq_ok] at h
    obtain ⟨⟨rightmostTs, reader⟩, hts, ⟨entry, w⟩, hloop, h⟩ := h
    have hext := (ProofReader.timestamp_extends hts (show n - 1 < n by omega)).trans
      (fixedLoop_extends hn (root_lt h₀ hn) hloop)
    cases entry with
    | some entry =>
      obtain ⟨-, rfl⟩ := Prod.mk.inj (Except.ok.inj h)
      exact hext
    | none => exact hext.trans (fixedLookup_extends h)

/-! ### Monitoring -/

theorem ancestorLoop_extends {rmw pos : ℕ} (hn : n < 2 ^ 64) : ∀ {fuel : ℕ} {a a' : AncestorWalk},
    a.curr < n → ancestorLoop n rmw pos fuel a = .ok a' → a.reader.Extends n a'.reader
  | 0, a, a', _, h => by cases h
  | fuel + 1, a, a', hcurr, h => by
    rw [ancestorLoop] at h
    by_cases hpos : a.curr = pos
    · rw [if_pos hpos] at h
      obtain rfl := Except.ok.inj h
      exact .refl n _
    · rw [if_neg hpos] at h
      obtain ⟨⟨ts, reader⟩, hts, h⟩ := Result.bind_eq_ok.1 h
      have hts := ProofReader.timestamp_extends hts hcurr
      dsimp only at h
      generalize (a.parentDist && decide (rmw ≤ a.bounds.2.val - a.bounds.1.val)) = dist at h
      cases dist with
      | false =>
        rw [if_pos rfl] at h
        obtain rfl := Except.ok.inj h
        exact hts
      | true =>
        rw [if_neg (by simp)] at h
        split_ifs at h
        · exact hts.trans (ancestorLoop_extends hn
            (a := { a with reader := reader, bounds := (a.bounds.1, ts), curr := leftChild a.curr
                           ancestorDist := Function.update a.ancestorDist a.curr true })
            ((leftChild_le (by omega)).trans_lt hcurr) h)
        · cases hrc : ibstRightChild a.curr n with
          | some rc =>
            rw [hrc] at h
            exact hts.trans (ancestorLoop_extends hn
              (a := { a with reader := reader, bounds := (ts, a.bounds.2), curr := rc
                             ancestorDist := Function.update a.ancestorDist a.curr true })
              (ibstRightChild_lt hrc) h)
          | none =>
            rw [hrc] at h
            obtain rfl := Except.ok.inj h
            exact hts

theorem climbLadders_extends {material : ℕ → Option (Octets × Option Octets)} {pos ver : ℕ} :
    ∀ {list : List ℕ} {movedTo movedTo' : Option ℕ} {w w' : ContactWalk}, (∀ e ∈ list, e < n) →
      climbLadders P material pos ver list movedTo w = .ok (movedTo', w') →
        w.reader.Extends n w'.reader
  | [], movedTo, movedTo', w, w', _, h => by
    obtain ⟨-, rfl⟩ := Prod.mk.inj (Except.ok.inj h)
    exact .refl n _
  | e :: list, movedTo, movedTo', w, w', hlt, h => by
    rw [climbLadders] at h
    cases htarget : w.ladderTargets e with
    | some t =>
      simp only [htarget, Result.bind_eq_ok] at h
      obtain ⟨-, -, h⟩ := h
      obtain ⟨-, rfl⟩ := Prod.mk.inj (Except.ok.inj h)
      exact .refl n _
    | none =>
      simp only [htarget, Result.bind_eq_ok] at h
      obtain ⟨⟨ts, reader⟩, hts, ⟨pp, reader'⟩, hpp, root, -, entryRoots, -, h⟩ := h
      exact ((ProofReader.timestamp_extends hts (hlt e List.mem_cons_self)).trans
        (ProofReader.prefixProof_extends hpp)).trans
          (climbLadders_extends (fun e he => hlt e (List.mem_cons_of_mem _ he)) h)

theorem replayObligation_extends {material : ℕ → Option (Octets × Option Octets)} {rmw : ℕ}
    {rightmostTs : U64} {pos ver : ℕ} {w w' : ContactWalk} (h₀ : 0 < n) (hn : n < 2 ^ 64)
    (h : replayObligation P material n rmw rightmostTs pos ver w = .ok w') :
    w.reader.Extends n w'.reader := by
  simp only [replayObligation, Result.bind_eq_ok] at h
  obtain ⟨a, ha, h⟩ := h
  have hext := ancestorLoop_extends hn (root_lt h₀ hn) ha
  split_ifs at h with hdist
  · obtain rfl := Except.ok.inj h
    exact hext
  · obtain ⟨⟨movedTo, w₁⟩, hclimb, h⟩ := Result.bind_eq_ok.1 h
    have hext := hext.trans (climbLadders_extends (fun e he => contactList_lt hn he) hclimb)
    cases movedTo with
    | some newpos =>
      dsimp only at h
      split_ifs at h <;>
        · obtain rfl := Except.ok.inj h
          exact hext
    | none =>
      obtain rfl := Except.ok.inj h
      exact hext

theorem replayObligations_extends {material : ℕ → Option (Octets × Option Octets)} {rmw : ℕ}
    {rightmostTs : U64} (h₀ : 0 < n) (hn : n < 2 ^ 64) : ∀ {entries : List (ℕ × ℕ)}
    {w w' : ContactWalk}, replayObligations P material n rmw rightmostTs entries w = .ok w' →
      w.reader.Extends n w'.reader
  | [], w, w', h => by
    obtain rfl := Except.ok.inj h
    exact .refl n _
  | (pos, ver) :: entries, w, w', h => by
    obtain ⟨w₁, h₁, h₂⟩ := Result.bind_eq_ok.1 h
    exact (replayObligation_extends h₀ hn h₁).trans (replayObligations_extends h₀ hn h₂)

theorem replayContactLadders_extends {material : ℕ → Option (Octets × Option Octets)}
    {map : OrderedMap ℕ} {rmw : ℕ} {reader : ProofReader} {entryRoots : NodeMap} {w : ContactWalk}
    (h₀ : 0 < n) (hn : n < 2 ^ 64)
    (h : replayContactLadders P material map n rmw reader entryRoots = .ok w) :
    reader.Extends n w.reader := by
  simp only [replayContactLadders, Result.bind_eq_ok] at h
  obtain ⟨⟨ts, reader'⟩, hts, h⟩ := h
  exact (ProofReader.timestamp_extends hts (show n - 1 < n by omega)).trans
    (replayObligations_extends h₀ hn h)

theorem ownerInitWalk_extends {rightmostTs : U64} : ∀ {nodes : List ℕ} {prevVer : Option ℕ}
    {count count' : ℕ} {s s' : SearchState}, (∀ e ∈ nodes, e < n) →
    c.ownerInitWalk P label binaryLadder rightmostTs nodes prevVer count s = .ok (count', s') →
    s.reader.Extends n s'.reader
  | [], prevVer, count, count', s, s', _, h => by
    obtain ⟨-, rfl⟩ := Prod.mk.inj (Except.ok.inj h)
    exact .refl n _
  | node :: nodes, prevVer, count, count', s, s', hlt, h => by
    obtain ⟨⟨ts, reader⟩, hts, h⟩ := Result.bind_eq_ok.1 h
    have hts := ProofReader.timestamp_extends hts (hlt node List.mem_cons_self)
    dsimp only at h
    split_ifs at h
    · obtain ⟨-, rfl⟩ := Prod.mk.inj (Except.ok.inj h)
      exact hts
    · simp only [Result.bind_eq_ok] at h
      obtain ⟨⟨pp, reader'⟩, hpp, ⟨root, greatest, ladders⟩, -, -, -, entryRoots, -, h⟩ := h
      exact (hts.trans (ProofReader.prefixProof_extends hpp)).trans
        (ownerInitWalk_extends (fun e he => hlt e (List.mem_cons_of_mem _ he)) h)

/-- **One turn of the owner's walk**: nothing between close timestamps, else the entry,
when it lies right of the start, after what is left of it, and then what is right of it. -/
theorem replayOwnerWalk_cases {start rmw bound fuel node : ℕ} {leftTs rightTs : U64}
    {s s' : SearchState} (h : c.replayOwnerWalk P label start n rmw bound binaryLadder (fuel + 1) node
      leftTs rightTs s = .ok s') :
    (rightTs.val - leftTs.val < rmw ∧ s' = s) ∨
    (rmw ≤ rightTs.val - leftTs.val ∧ ∃ nodeTs reader s₁,
      s.reader.timestamp node = .ok (nodeTs, reader) ∧
      ((node ≤ start ∧ s₁ = { s with reader := reader }) ∨
        (start < node ∧ ∃ s₂ pp reader' root found ladders entryRoots,
          (if isLeaf node then .ok { s with reader := reader }
            else c.replayOwnerWalk P label start n rmw bound binaryLadder fuel (leftChild node) leftTs
              nodeTs { s with reader := reader }) = .ok s₂ ∧
          s₂.reader.prefixProof = .ok (pp, reader') ∧
          c.verifyOwnerLadder P label pp binaryLadder s₂.ladders = .ok (root, found, ladders) ∧
          (∀ g ∈ found, g ≤ bound) ∧
          ProofReader.recordEntryRoot s₂.entryRoots node root = .ok entryRoots ∧
          s₁ = ⟨reader', ladders, entryRoots⟩)) ∧
      (if isLeaf node then none else ibstRightChild node n).elim (.ok s₁) (fun rc =>
        c.replayOwnerWalk P label start n rmw bound binaryLadder fuel rc nodeTs rightTs s₁) =
          .ok s') := by
  rw [replayOwnerWalk] at h
  by_cases hw : rightTs.val - leftTs.val < rmw
  · rw [if_pos hw] at h
    exact .inl ⟨hw, (Except.ok.inj h).symm⟩
  · rw [if_neg hw] at h
    obtain ⟨⟨nodeTs, reader⟩, hts, h⟩ := Result.bind_eq_ok.1 h
    refine .inr ⟨by omega, nodeTs, reader, ?_⟩
    dsimp only at h
    by_cases hstart : node ≤ start
    · rw [if_pos hstart] at h
      exact ⟨_, hts, .inl ⟨hstart, rfl⟩, h⟩
    · rw [if_neg hstart] at h
      simp only [Result.bind_eq_ok, Result.context_eq_ok, ensure_eq_ok] at h
      obtain ⟨s₂, hleft, ⟨pp, reader'⟩, hpp, ⟨root, found, ladders⟩, hladder, ⟨⟩, hbound, entryRoots,
        hrecord, h⟩ := h
      exact ⟨_, hts, .inr ⟨by omega, s₂, pp, reader', root, found, ladders, entryRoots, hleft, hpp,
        hladder, hbound, hrecord, rfl⟩, h⟩

theorem replayOwnerWalk_extends {start rmw bound : ℕ} (hn : n < 2 ^ 64) : ∀ {fuel node : ℕ}
    {leftTs rightTs : U64} {s s' : SearchState}, node < n →
    c.replayOwnerWalk P label start n rmw bound binaryLadder fuel node leftTs rightTs s = .ok s' →
    s.reader.Extends n s'.reader
  | 0, node, leftTs, rightTs, s, s', _, h => by cases h
  | fuel + 1, node, leftTs, rightTs, s, s', hnode, h => by
    rcases replayOwnerWalk_cases h with ⟨-, rfl⟩ | ⟨-, nodeTs, reader, s₁, hts, hentry, hwalk⟩
    · exact .refl n _
    · have hts := ProofReader.timestamp_extends hts hnode
      have hright := @lt_of_rightChild node n
      generalize (if isLeaf node then none else ibstRightChild node n) = rightChild at hwalk hright
      have hwalk : s₁.reader.Extends n s'.reader := by
        cases rightChild with
        | none =>
          obtain rfl := Except.ok.inj hwalk
          exact .refl n _
        | some rc => exact replayOwnerWalk_extends hn (hright rfl) hwalk
      rcases hentry with ⟨-, rfl⟩ | ⟨-, s₂, pp, reader', root, found, ladders, entryRoots, hleft, hpp,
        -, -, -, rfl⟩
      · exact hts.trans hwalk
      · have hleft : reader.Extends n s₂.reader := by
          split_ifs at hleft
          · obtain rfl := Except.ok.inj hleft
            exact .refl n _
          · exact replayOwnerWalk_extends hn ((leftChild_le (by omega)).trans_lt hnode) hleft
        exact ((hts.trans hleft).trans (ProofReader.prefixProof_extends hpp)).trans hwalk

/-- What the walk over the distinguished entries puts on its stack lies in the log. -/
theorem distinguishedStack_lt {stop : Option ℕ} {curr : ℕ} {lo ts hi : U64}
    {stack : List (ℕ × U64 × U64)} (hn : n < 2 ^ 64) (hcurr : curr < n) (hstack : ∀ e ∈ stack, e.1 < n) :
    ∀ e ∈ (if isLeaf curr then [] else
          ((ibstRightChild curr n).map fun rc => (rc, ts, hi)).toList) ++
        (if isLeaf curr = false ∧ ∀ s ∈ stop, s < curr then [(leftChild curr, lo, ts)] else []) ++
          stack, e.1 < n := by
  intro e he
  rcases List.mem_append.1 he with he | he
  · rcases List.mem_append.1 he with he | he
    · split_ifs at he
      · simp at he
      · obtain ⟨rc, hrc, rfl⟩ := Option.map_eq_some_iff.1 (Option.mem_toList.1 he)
        exact ibstRightChild_lt hrc
    · split_ifs at he
      · obtain rfl := List.mem_singleton.1 he
        exact (leftChild_le (by omega)).trans_lt hcurr
      · simp at he
  · exact hstack e he

/-- The walk over the distinguished heads: what it walked, it has read. -/
theorem distinguishedLoop_extends {rmw : ℕ} {stop : Option ℕ} (hn : n < 2 ^ 64) : ∀ {fuel : ℕ}
    {stack : List (ℕ × U64 × U64)} {walked walked' : List ℕ} {reader reader' : ProofReader},
    (∀ e ∈ stack, e.1 < n) →
    distinguishedLoop n rmw stop fuel stack walked reader = .ok (walked', reader') →
    reader.Extends n reader' ∧ ∀ p ∈ walked', p ∈ walked ∨
      p < n ∧ ∃ ts, (p, ts) ∈ reader'.assignedTs.entries
  | 0, stack, walked, walked', reader, reader', _, h => by cases h
  | fuel + 1, [], walked, walked', reader, reader', _, h => by
    obtain ⟨rfl, rfl⟩ := Prod.mk.inj (Except.ok.inj h)
    exact ⟨.refl n _, fun p => .inl⟩
  | fuel + 1, (curr, lo, hi) :: stack, walked, walked', reader, reader', hlt, h => by
    have hcurr : curr < n := hlt _ List.mem_cons_self
    have hstack : ∀ e ∈ stack, e.1 < n := fun e he => hlt e (List.mem_cons_of_mem _ he)
    rw [distinguishedLoop] at h
    by_cases hw : hi.val - lo.val < rmw
    · rw [if_pos hw] at h
      exact distinguishedLoop_extends hn hstack h
    · rw [if_neg hw] at h
      obtain ⟨⟨ts, reader₁⟩, hts, h⟩ := Result.bind_eq_ok.1 h
      have hext := ProofReader.timestamp_extends hts hcurr
      obtain ⟨hext', hwalked⟩ :=
        distinguishedLoop_extends hn (distinguishedStack_lt hn hcurr hstack) h
      refine ⟨hext.trans hext', fun p hp => ?_⟩
      rcases hwalked p hp with hp | hp
      · rcases List.mem_append.1 hp with hp | hp
        · exact .inl hp
        · obtain rfl := List.mem_singleton.1 hp
          exact .inr ⟨hcurr, ts, hext'.keeps (ProofReader.mem_of_timestamp hts)⟩
      · exact .inr hp

end KtClient

/-! ### What a commit is made with -/

section

variable {P : Primitives} {env : Env} {c c' : KtClient} {data : List LeafData} {n : ℕ}

/-- The entries of a log that an operation has read, the frontier among them. -/
structure ReadsLog (n : ℕ) (data : List LeafData) : Prop where
  below : ∀ d ∈ data, d.1 < n
  frontier : ∀ p ∈ getFrontier n, p ∈ data.map Prod.fst

theorem ReadsLog.last (h : ReadsLog n data) (h₀ : 0 < n) (hn : n ≤ 2 ^ 62) :
    n - 1 ∈ data.map Prod.fst :=
  h.frontier _ (last_mem_getFrontier h₀ hn)

theorem ReadsLog.of_finish {proof : CombinedTreeProof} {r r' : ProofReader} {entryRoots : NodeMap}
    (hn : n ≤ 2 ^ 62) (hfrontier : (ProofReader.new proof).timestamps (getFrontier n) = .ok r)
    (hext : r.Extends n r') (hfinish : r'.finish entryRoots = .ok data) : ReadsLog n data := by
  obtain ⟨hext₀, hmem⟩ := ProofReader.timestamps_extends hfrontier fun p hp =>
    mem_getFrontier_lt hn hp
  have hentries := ProofReader.finish_entries hfinish
  constructor
  · intro d hd
    have hd : (d.1, d.2.1) ∈ r'.assignedTs.entries := hentries ▸ List.mem_map_of_mem hd
    exact ((hext₀.trans hext).below hd).resolve_left (by simp [ProofReader.new, OrderedMap.empty])
  · intro p hp
    obtain ⟨ts, hts⟩ := hmem p hp
    have := hext.keeps hts
    rw [← hentries] at this
    obtain ⟨d, hd, heq⟩ := List.mem_map.1 this
    exact List.mem_map.2 ⟨d, hd, (Prod.mk.inj heq).1⟩

/-- **Every operation reads the frontier** and nothing outside of the log. -/
theorem Accepted.reads {r : Response} {fth : FullTreeHead} {timestamp : Option U64} {updated : Bool}
    (h : Accepted P env c r data c') (hfth : r.fullTreeHead = some fth)
    (hhead : c.treeSizeForFth env fth = .ok (n, timestamp, updated)) (hn : n ≤ 2 ^ 62) :
    ReadsLog n data := by
  cases h with
  | search h saved =>
    simp only [KtClient.verifySearch, Result.bind_eq_ok, okOr_eq_ok, ensure_eq_ok] at h
    obtain ⟨fth', hfth', proof, -, head, hhead', -, hpos, value, -, target, -, -, -, comm, -, ⟨⟩,
      -, reader, hfrontier, ⟨terminal, s⟩, hwalk, -, -, ⟨data', captured, committed⟩, hfinish, h⟩ := h
    obtain rfl := Option.some.inj (hfth.symm.trans hfth')
    obtain rfl := Except.ok.inj (hhead.symm.trans hhead')
    obtain ⟨rfl, rfl⟩ := Prod.mk.inj (Except.ok.inj h)
    exact .of_finish hn hfrontier (KtClient.searchWalk_extends (by omega) (by omega) hwalk)
      (KtClient.finishAndCommit_eq_ok.1 hfinish).1
  | contactMonitor h =>
    simp only [KtClient.verifyContactMonitor, Result.bind_eq_ok, okOr_eq_ok, ensure_eq_ok] at h
    obtain ⟨fth', hfth', proof, -, head, hhead', -, hpos, ⟨⟩, -, reader, hfrontier, ⟨ts, reader'⟩,
      hts, w, hreplay, ⟨data', captured, committed⟩, hfinish, h⟩ := h
    obtain rfl := Option.some.inj (hfth.symm.trans hfth')
    obtain rfl := Except.ok.inj (hhead.symm.trans hhead')
    obtain ⟨rfl, rfl⟩ := Prod.mk.inj (Except.ok.inj h)
    dsimp only at hpos hts hreplay
    exact .of_finish hn hfrontier
      ((ProofReader.timestamp_extends hts (by omega)).trans
        (KtClient.replayContactLadders_extends (by omega) (by omega) hreplay))
      (KtClient.finishAndCommit_eq_ok.1 hfinish).1
  | ownerInit h =>
    simp only [KtClient.verifyOwnerInit, Result.bind_eq_ok, okOr_eq_ok, ensure_eq_ok] at h
    obtain ⟨fth', hfth', proof, -, head, hhead', -, ⟨hpos, hstart⟩, ⟨⟩, -, -, -, reader, hfrontier,
      ⟨ts, reader'⟩, hts, ⟨count, s⟩, hwalk, -, -, -, -, ⟨data', captured, committed⟩, hfinish,
      h⟩ := h
    obtain rfl := Option.some.inj (hfth.symm.trans hfth')
    obtain rfl := Except.ok.inj (hhead.symm.trans hhead')
    obtain ⟨rfl, rfl⟩ := Prod.mk.inj (Except.ok.inj h)
    dsimp only at hpos hstart hts hwalk
    exact .of_finish hn hfrontier
      ((ProofReader.timestamp_extends hts (by omega)).trans
        (KtClient.ownerInitWalk_extends (fun e he => ownerInitList_lt (by omega) hstart he) hwalk))
      (KtClient.finishAndCommit_eq_ok.1 hfinish).1
  | ownerMonitor h =>
    simp only [KtClient.verifyOwnerMonitor, Result.bind_eq_ok, okOr_eq_ok, ensure_eq_ok] at h
    obtain ⟨fth', hfth', proof, -, head, hhead', -, hpos, ⟨⟩, -, reader, hfrontier, ⟨ts, reader'⟩,
      hts, w, hreplay, s, hwalk, -, -, ⟨data', captured, committed⟩, hfinish, h⟩ := h
    obtain rfl := Option.some.inj (hfth.symm.trans hfth')
    obtain rfl := Except.ok.inj (hhead.symm.trans hhead')
    obtain ⟨rfl, rfl⟩ := Prod.mk.inj (Except.ok.inj h)
    dsimp only at hpos hts hreplay hwalk
    exact .of_finish hn hfrontier
      (((ProofReader.timestamp_extends hts (by omega)).trans
        (KtClient.replayContactLadders_extends (by omega) (by omega) hreplay)).trans
          (KtClient.replayOwnerWalk_extends (by omega) (root_lt (by omega) (by omega)) hwalk))
      (KtClient.finishAndCommit_eq_ok.1 hfinish).1
  | distinguished h =>
    simp only [KtClient.verifyDistinguished, Result.bind_eq_ok, okOr_eq_ok, ensure_eq_ok] at h
    obtain ⟨fth', hfth', proof, -, head, hhead', -, hpos, ⟨⟩, -, rightmost, -, reader, hfrontier,
      ⟨walked, reader'⟩, hwalk, ⟨data', captured, committed⟩, hfinish, h⟩ := h
    obtain rfl := Option.some.inj (hfth.symm.trans hfth')
    obtain rfl := Except.ok.inj (hhead.symm.trans hhead')
    obtain ⟨rfl, rfl⟩ := Prod.mk.inj (Except.ok.inj h)
    dsimp only at hpos hwalk
    exact .of_finish hn hfrontier
      (KtClient.distinguishedLoop_extends (by omega)
        (by simpa using root_lt (by omega) (by omega)) hwalk).1
      (KtClient.finishAndCommit_eq_ok.1 hfinish).1
  | update h => cases hfth

end

end KeyTransparency
