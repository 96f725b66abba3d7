/-
# Decoding inverts generation

`decode_search_ladder` sees only whether each probe was an inclusion, and has to take
the branch that `search_binary_ladder` took knowing the greatest version.  It does, for
every target and greatest version, and it accepts nothing else: the outcomes it accepts
are the ones of some greatest version, or of an absent label (`search_ladder_decoding`).
-/

import KeyTransparency.Client.LadderDecode

namespace KeyTransparency

open BinaryLadder

/-! ### The greatest version and the next one -/

namespace BinaryLadder

theorem succ_mem_bisectTree {n : ℕ} : ∀ {fuel lower upper : ℕ}, upper - lower ≤ 2 ^ fuel →
    lower ≤ n → n < upper → n + 1 = upper ∨ n + 1 ∈ (bisectTree fuel lower upper).path (decide <| · ≤ n)
  | 0, lower, upper, h, h₁, h₂ => by
    rw [pow_zero] at h
    left
    omega
  | fuel + 1, lower, upper, h, h₁, h₂ => by
    have e : 2 ^ (fuel + 1) = 2 ^ fuel * 2 := pow_succ 2 fuel
    rw [bisectTree]
    split_ifs with hlt
    · rw [ProbeTree.path, List.mem_cons]
      by_cases hv : lower + (upper - lower) / 2 ≤ n
      · rw [if_pos (by simpa using hv)]
        rcases succ_mem_bisectTree (show upper - (lower + (upper - lower) / 2) ≤ 2 ^ fuel by omega)
            hv h₂ with heq | hmem
        · exact .inl heq
        · exact .inr (.inr hmem)
      · rw [if_neg (by simpa using hv)]
        rcases succ_mem_bisectTree (show lower + (upper - lower) / 2 - lower ≤ 2 ^ fuel by omega)
            h₁ (by omega) with heq | hmem
        · exact .inr (.inl heq)
        · exact .inr (.inr hmem)
    · left
      omega

theorem succ_mem_powersTree {n : ℕ} (hn : n < maxVersion) : ∀ {fuel k : ℕ}, fuel + k = 33 →
    0 < fuel → (k ≠ 0 → ladderValue (k - 1) ≤ n) →
    n + 1 ∈ (powersTree fuel k).path (decide <| · ≤ n)
  | 0, _, _, h, _ => absurd h (by omega)
  | fuel + 1, k, hk, _, hlow => by
    have hvalue := ladderValue_of_le (show k ≤ 32 by omega)
    rw [powersTree, ProbeTree.path, List.mem_cons]
    by_cases hv : ladderValue k ≤ n
    · have hmax : ladderValue k ≠ maxVersion := by omega
      have hk32 := mt (ladderValue_eq_max (show k ≤ 32 by omega)).2 hmax
      rw [if_pos (by simpa using hv), if_neg hmax]
      exact .inr (succ_mem_powersTree hn (by omega) (by omega) fun _ => hv)
    · have hk0 : k ≠ 0 := by
        rintro rfl
        rw [hvalue, pow_zero] at hv
        omega
      have := Nat.pow_le_pow_right (show 0 < 2 by omega) (show k ≤ 32 by omega)
      rw [if_neg (by simpa using hv), if_neg hk0]
      exact (succ_mem_bisectTree (by omega) (hlow hk0) (by omega))

/-- **A base ladder shows the version after its target**, where there is one. -/
theorem succ_mem_baseBinaryLadder {n : ℕ} (hn : n < maxVersion) : n + 1 ∈ baseBinaryLadder n := by
  rw [baseBinaryLadder_eq]
  exact succ_mem_powersTree hn rfl (by omega) fun h => absurd rfl h

/-! ### The greatest version behind a record -/

/-- A version that all answers of a record agree with. -/
def AgreesWith (l : List (ℕ × Bool)) (n : ℕ) : Prop := ∀ p ∈ l, p.2 = decide (p.1 ≤ n)

theorem agreesWith_cons {v n : ℕ} {b : Bool} {l : List (ℕ × Bool)} :
    AgreesWith ((v, b) :: l) n ↔ b = decide (v ≤ n) ∧ AgreesWith l n := by
  simp [AgreesWith]

variable {t : ℕ}

theorem exists_agreesWith_bisectTree : ∀ {fuel lower upper : ℕ} {l : List (ℕ × Bool)}, lower < upper →
    ProbeTree.Trace (searchEnds t) (bisectTree fuel lower upper) l →
    ∃ n, lower ≤ n ∧ n < upper ∧ AgreesWith l n
  | 0, lower, upper, l, hlt, h => by
    obtain rfl := ProbeTree.trace_done.1 h
    exact ⟨lower, le_rfl, hlt, fun _ hp => by cases hp⟩
  | fuel + 1, lower, upper, l, hlt, h => by
    rw [bisectTree] at h
    split_ifs at h with hmid
    · obtain ⟨b, rest, rfl, hrest⟩ := ProbeTree.trace_probe.1 h
      generalize hv : lower + (upper - lower) / 2 = v at hrest ⊢
      split_ifs at hrest with hstop hb
      · subst hrest
        cases b with
        | false => exact ⟨lower, le_rfl, hlt, agreesWith_cons.2 ⟨by simp; omega, fun _ hp => by cases hp⟩⟩
        | true => exact ⟨v, by omega, by omega, agreesWith_cons.2 ⟨by simp, fun _ hp => by cases hp⟩⟩
      · subst hb
        obtain ⟨n, h₁, h₂, hn⟩ := exists_agreesWith_bisectTree (by omega) hrest
        exact ⟨n, by omega, h₂, agreesWith_cons.2 ⟨by simpa using h₁, hn⟩⟩
      · obtain rfl : b = false := by simpa using hb
        obtain ⟨n, h₁, h₂, hn⟩ := exists_agreesWith_bisectTree (by omega) hrest
        exact ⟨n, h₁, by omega, agreesWith_cons.2 ⟨by simpa using h₂, hn⟩⟩
    · obtain rfl := ProbeTree.trace_done.1 h
      exact ⟨lower, le_rfl, hlt, fun _ hp => by cases hp⟩

theorem exists_agreesWith_powersTree : ∀ {fuel k : ℕ} {l : List (ℕ × Bool)}, fuel + k = 33 →
    0 < fuel → ProbeTree.Trace (searchEnds t) (powersTree fuel k) l →
    k = 0 ∧ l = [(0, false)] ∨
      ∃ n, (k ≠ 0 → ladderValue (k - 1) ≤ n) ∧ n ≤ maxVersion ∧ AgreesWith l n
  | 0, _, _, _, h, _ => absurd h (by omega)
  | fuel + 1, k, l, hk, _, h => by
    have hvalue := ladderValue_of_le (show k ≤ 32 by omega)
    have hle : ladderValue k ≤ maxVersion := by
      have := Nat.pow_le_pow_right (show 0 < 2 by omega) (show k ≤ 32 by omega)
      rw [hvalue, maxVersion]
      omega
    have hprev : k ≠ 0 → ladderValue (k - 1) < ladderValue k := fun hk0 =>
      ladderValue_lt (by omega) (by omega)
    rw [powersTree] at h
    obtain ⟨b, rest, rfl, hrest⟩ := ProbeTree.trace_probe.1 h
    cases b with
    | true =>
      right
      simp only [if_true] at hrest
      split_ifs at hrest with hstop hmax
      · subst hrest
        exact ⟨ladderValue k, fun hk0 => (hprev hk0).le, hle,
          agreesWith_cons.2 ⟨by simp, fun _ hp => by cases hp⟩⟩
      · obtain rfl := ProbeTree.trace_done.1 hrest
        exact ⟨ladderValue k, fun hk0 => (hprev hk0).le, hle,
          agreesWith_cons.2 ⟨by simp, fun _ hp => by cases hp⟩⟩
      · have hk32 := mt (ladderValue_eq_max (show k ≤ 32 by omega)).2 hmax
        rcases exists_agreesWith_powersTree (by omega) (by omega) hrest with ⟨h0, -⟩ | ⟨n, h₁, h₂, hn⟩
        · omega
        · have hkn : ladderValue k ≤ n := h₁ (by omega)
          exact ⟨n, fun hk0 => (hprev hk0).le.trans hkn, h₂, agreesWith_cons.2 ⟨by simpa using hkn, hn⟩⟩
    | false =>
      simp only [Bool.false_eq_true, if_false] at hrest
      by_cases hk0 : k = 0
      · subst hk0
        -- version 0 absent: nothing is asked after it
        have hstop : searchEnds t (ladderValue 0) false = true := by
          rw [hvalue]
          simp [searchEnds]
        rw [if_pos hstop] at hrest
        subst hrest
        exact .inl ⟨rfl, by rw [hvalue]; rfl⟩
      · right
        have := hprev hk0
        rw [if_neg hk0] at hrest
        split_ifs at hrest with hstop
        · subst hrest
          exact ⟨ladderValue (k - 1), fun _ => le_rfl, by omega,
            agreesWith_cons.2 ⟨by simpa using this, fun _ hp => by cases hp⟩⟩
        · obtain ⟨n, h₁, h₂, hn⟩ := exists_agreesWith_bisectTree this hrest
          exact ⟨n, fun _ => h₁, by omega, agreesWith_cons.2 ⟨by simpa using h₂, hn⟩⟩

end BinaryLadder

/-! ### Search ladders -/

/-- What the results of a proof say to `decode_search_ladder`. -/
def outcomes (results : List PrefixSearchResult) : List Bool :=
  results.map fun r => decide (r.resultType = 1)

/-- The lookups of a search ladder, where the versions up to `n` exist. -/
def searchLookups (t n : ℕ) : List DecodedLookup :=
  (searchBinaryLadder t n [] []).map fun v => ⟨v, decide (v ≤ n)⟩

theorem outcomes_eq_of_decoded {results : List PrefixSearchResult} {t : ℕ} {d : List DecodedLookup}
    (h : decodeSearchLadder results t = .ok d) : outcomes results = d.map DecodedLookup.inclusion :=
  (decodeSearchLadder_eq_ok.1 h).2

/-- **What decodes is a search ladder**, or the lookup of an absent label. -/
theorem eq_searchLookups {results : List PrefixSearchResult} {t : ℕ} {d : List DecodedLookup}
    (h : decodeSearchLadder results t = .ok d) :
    d = [⟨0, false⟩] ∨ ∃ n ≤ maxVersion, d = searchLookups t n := by
  have htrace := (decodeSearchLadder_eq_ok.1 h).1
  rcases @exists_agreesWith_powersTree t 33 0 _ rfl (by omega) htrace with ⟨-, habsent⟩ | ⟨n, -, hn, hagree⟩
  · left
    refine DecodedLookup.pair_injective.list_map ?_
    rw [habsent]
    rfl
  · refine .inr ⟨n, hn, ?_⟩
    rw [searchLookups, searchBinaryLadder_eq]
    exact decoded_eq h fun lk hlk => hagree lk.pair (List.mem_map_of_mem hlk)

/-! ### The relation -/

/-- What a lookup that ends a search says of the entry's greatest version. -/
def DecodedLookup.side (lk : DecodedLookup) : Ordering := if lk.inclusion then .gt else .lt

/-- The relation that lookups leave. -/
def relationAfter (t : ℕ) (relation : Ordering) (lookups : List DecodedLookup) : Ordering :=
  lookups.foldl (fun relation lk =>
    if searchEnds t lk.version lk.inclusion then lk.side else relation) relation

theorem relationAfter_nil (t : ℕ) (relation : Ordering) : relationAfter t relation [] = relation := rfl

theorem relationAfter_cons (t : ℕ) (relation : Ordering) (lk : DecodedLookup)
    (lookups : List DecodedLookup) : relationAfter t relation (lk :: lookups) =
      relationAfter t (if searchEnds t lk.version lk.inclusion then lk.side else relation) lookups := rfl

/-- Where all lookups that end the search are on one side, that is the relation. -/
theorem relationAfter_eq {t : ℕ} {side : Ordering} : ∀ {lookups : List DecodedLookup}
    {relation : Ordering},
    (∀ lk ∈ lookups, searchEnds t lk.version lk.inclusion = true → lk.side = side) →
    (relation = side ∨ ∃ lk ∈ lookups, searchEnds t lk.version lk.inclusion = true) →
    relationAfter t relation lookups = side
  | [], relation, _, h => by
    rcases h with h | ⟨lk, hlk, -⟩
    · exact h
    · cases hlk
  | lk :: lookups, relation, hside, h => by
    have hrest := fun x hx => hside x (List.mem_cons_of_mem lk hx)
    rw [relationAfter_cons]
    refine relationAfter_eq hrest ?_
    split_ifs with hends
    · exact .inl (hside lk List.mem_cons_self hends)
    · rcases h with h | ⟨x, hx, hxends⟩
      · exact .inl h
      · rcases List.mem_cons.1 hx with rfl | hx
        · exact absurd hxends hends
        · exact .inr ⟨x, hx, hxends⟩

theorem relationAfter_of_open {t : ℕ} : ∀ {lookups : List DecodedLookup} {relation : Ordering},
    (∀ lk ∈ lookups, searchEnds t lk.version lk.inclusion = false) →
    relationAfter t relation lookups = relation
  | [], _, _ => rfl
  | lk :: lookups, relation, h => by
    rw [relationAfter_cons, h lk List.mem_cons_self]
    exact relationAfter_of_open fun x hx => h x (List.mem_cons_of_mem lk hx)

theorem mem_searchLookups {t n : ℕ} {lk : DecodedLookup} (h : lk ∈ searchLookups t n) :
    lk.inclusion = decide (lk.version ≤ n) := by
  obtain ⟨v, -, rfl⟩ := List.mem_map.1 h
  rfl

/-- A search ladder decides its search where the greatest version is not the target. -/
theorem exists_ends_searchLookups {t n v : ℕ} (hv : v ∈ baseBinaryLadder n)
    (hends : searchEnds t v (decide (v ≤ n)) = true) :
    ∃ lk ∈ searchLookups t n, searchEnds t lk.version lk.inclusion = true := by
  rw [baseBinaryLadder_eq] at hv
  obtain ⟨w, hw, hwends⟩ := ProbeTree.exists_mem_cut hv hends
  rw [searchLookups, searchBinaryLadder_eq]
  exact ⟨_, List.mem_map_of_mem hw, hwends⟩

/-- **The relation of a search ladder** is how the greatest version compares with the
target. -/
theorem relationAfter_searchLookups {t n : ℕ} (ht : t ≤ maxVersion) (hn : n ≤ maxVersion) :
    relationAfter t .eq (searchLookups t n) = compare n t := by
  have hends : ∀ lk ∈ searchLookups t n, searchEnds t lk.version lk.inclusion = true →
      lk.version ≤ n ∧ t < n ∧ lk.side = .gt ∨ n < lk.version ∧ n < t ∧ lk.side = .lt := by
    intro lk hlk h
    rw [DecodedLookup.side, mem_searchLookups hlk] at *
    by_cases hv : lk.version ≤ n
    · rw [decide_eq_true hv, searchEnds, if_pos rfl, decide_eq_true_eq] at h
      exact .inl ⟨hv, by omega, by simp [hv]⟩
    · rw [decide_eq_false hv, searchEnds, if_neg (by simp), decide_eq_true_eq] at h
      exact .inr ⟨by omega, by omega, by simp [hv]⟩
  rcases Nat.lt_trichotomy n t with hlt | rfl | hgt
  · rw [compare_lt_iff_lt.2 hlt]
    refine relationAfter_eq (fun lk hlk h => ?_) (.inr ?_)
    · rcases hends lk hlk h with ⟨-, h', -⟩ | ⟨-, -, hside⟩
      · omega
      · exact hside
    · refine exists_ends_searchLookups (succ_mem_baseBinaryLadder (by omega)) ?_
      simp [searchEnds]
      omega
  · rw [compare_eq_iff_eq.2 rfl]
    refine relationAfter_of_open fun lk hlk => ?_
    cases h : searchEnds n lk.version lk.inclusion with
    | false => rfl
    | true =>
      rcases hends lk hlk h with ⟨-, h', -⟩ | ⟨-, h', -⟩
      · omega
      · omega
  · rw [compare_gt_iff_gt.2 hgt]
    refine relationAfter_eq (fun lk hlk h => ?_) (.inr ?_)
    · rcases hends lk hlk h with ⟨-, -, hside⟩ | ⟨-, h', -⟩
      · exact hside
      · omega
    · refine exists_ends_searchLookups (mem_baseBinaryLadder_self (by unfold maxVersion at hn; omega)) ?_
      simp [searchEnds, hgt]

namespace KtClient

variable {P : Primitives} {c : KtClient} {label : Octets} {pp : PrefixProof} {t : ℕ}
  {binaryLadder : List BinaryLadderStep} {targetCommitment : Octets} {greatest isRightmost : Bool}

theorem lookupRelation_eq_ok {lk : DecodedLookup} {relation relation' : Ordering}
    (h : lookupRelation t greatest isRightmost lk relation = .ok relation') :
    relation' = if searchEnds t lk.version lk.inclusion then lk.side else relation := by
  rw [lookupRelation] at h
  cases hinc : lk.inclusion
  · simp only [hinc, Bool.false_eq_true, false_and, if_false, true_and] at h
    rw [searchEnds, DecodedLookup.side, hinc]
    simp only [Bool.false_eq_true, if_false, decide_eq_true_eq]
    split_ifs at h ⊢
    · cases h
    · exact (Except.ok.inj h).symm
    · exact (Except.ok.inj h).symm
  · simp only [hinc, true_and, Bool.true_eq_false, false_and, if_false] at h
    rw [searchEnds, DecodedLookup.side, hinc]
    simp only [if_true, decide_eq_true_eq]
    split_ifs at h ⊢
    · cases h
    · exact (Except.ok.inj h).symm
    · exact (Except.ok.inj h).symm

theorem verifyLookups_relation : ∀ {decoded : List DecodedLookup} {j : ℕ} {s s' : LadderFold},
    c.verifyLookups P label pp t binaryLadder targetCommitment greatest isRightmost j decoded s = .ok s' →
    s'.relation = relationAfter t s.relation decoded
  | [], j, s, s', h => by
    rw [← Except.ok.inj h]
    rfl
  | lk :: decoded, j, s, s', h => by
    obtain ⟨s₁, h₁, h₂⟩ := Result.bind_eq_ok.1 h
    obtain ⟨relation, hrelation, h₁⟩ := Result.bind_eq_ok.1 h₁
    have hs₁ : s₁.relation = relation := by
      obtain ⟨⟨step, out, ladders⟩, -, h₁⟩ := Result.bind_eq_ok.1 h₁
      obtain ⟨commitment, -, h₁⟩ := Result.bind_eq_ok.1 h₁
      obtain ⟨⟨root, consumed⟩, -, h₁⟩ := Result.bind_eq_ok.1 h₁
      obtain ⟨computedRoot, -, h₁⟩ := Result.bind_eq_ok.1 h₁
      rw [← Except.ok.inj h₁]
    rw [verifyLookups_relation h₂, hs₁, lookupRelation_eq_ok hrelation]
    rfl

/-- **The relation of a verified ladder** is the one its lookups leave. -/
theorem verifyLadderProof_relation {s s' : Ladders} {root : Octets} {relation : Ordering}
    {d : List DecodedLookup} (hd : decodeSearchLadder pp.results t = .ok d)
    (h : c.verifyLadderProof P label pp t binaryLadder targetCommitment greatest isRightmost s =
      .ok (root, relation, s')) : relation = relationAfter t .eq d := by
  rw [verifyLadderProof, hd] at h
  simp only [Result.context_ok, Result.ok_bind] at h
  obtain ⟨fold, hfold, h⟩ := Result.bind_eq_ok.1 h
  obtain ⟨-, -, h⟩ := Result.bind_eq_ok.1 h
  obtain ⟨-, -, h⟩ := Result.bind_eq_ok.1 h
  obtain ⟨root', -, h⟩ := Result.bind_eq_ok.1 h
  obtain ⟨-, hrest⟩ := Prod.mk.inj (Except.ok.inj h)
  rw [← (Prod.mk.inj hrest).1]
  exact verifyLookups_relation hfold

end KtClient

/-- **Decoding inverts generation.**  From the outcomes of a search ladder and its target
the decoder recovers the versions, and the verifier how the greatest version compares with
the target; nothing else decodes.  A base ladder is without repetition and shows its target
and the version after it. -/
theorem search_ladder_decoding {t n : ℕ} (ht : t ≤ maxVersion) (hn : n ≤ maxVersion) :
    (∀ results, outcomes results = (searchBinaryLadder t n [] []).map (decide <| · ≤ n) →
      decodeSearchLadder results t =
        .ok ((searchBinaryLadder t n [] []).map fun v => ⟨v, decide (v ≤ n)⟩)) ∧
    (∀ (P : Primitives) (c : KtClient) (label : Octets) (pp : PrefixProof)
      (binaryLadder : List BinaryLadderStep) (targetCommitment : Octets)
      (greatest isRightmost : Bool) (s s' : Ladders) (root : Octets) (relation : Ordering),
      c.verifyLadderProof P label pp t binaryLadder targetCommitment greatest isRightmost s =
        .ok (root, relation, s') →
      (outcomes pp.results = (searchBinaryLadder t n [] []).map (decide <| · ≤ n) →
        relation = compare n t) ∧
      (outcomes pp.results = [false] → relation = .lt)) ∧
    (∀ results, outcomes results = [false] → decodeSearchLadder results t = .ok [⟨0, false⟩]) ∧
    (∀ results d, decodeSearchLadder results t = .ok d → outcomes results = d.map (·.inclusion) ∧
      (d = [⟨0, false⟩] ∨ ∃ m ≤ maxVersion,
        d = (searchBinaryLadder t m [] []).map fun v => ⟨v, decide (v ≤ m)⟩)) ∧
    (baseBinaryLadder n).Nodup ∧ n ∈ baseBinaryLadder n ∧
    (n < maxVersion → n + 1 ∈ baseBinaryLadder n) := by
  have hdecode : ∀ results, outcomes results = (searchBinaryLadder t n [] []).map (decide <| · ≤ n) →
      decodeSearchLadder results t = .ok (searchLookups t n) := by
    intro results h
    rw [searchLookups]
    rw [searchBinaryLadder_eq] at h ⊢
    exact decodeSearchLadder_cut h
  have habsent : ∀ results, outcomes results = [false] →
      decodeSearchLadder results t = .ok [⟨0, false⟩] := by
    intro results h
    refine decodeSearchLadder_eq_ok.2 ⟨.stop ?_, h⟩
    simp [searchEnds, ladderValue]
  refine ⟨hdecode, ?_, habsent, fun results d h => ⟨outcomes_eq_of_decoded h, eq_searchLookups h⟩,
    nodup_baseBinaryLadder n, mem_baseBinaryLadder_self (by unfold maxVersion at hn; omega),
    succ_mem_baseBinaryLadder⟩
  intro P c label pp binaryLadder targetCommitment greatest isRightmost s s' root relation h
  constructor
  · intro houtcomes
    rw [KtClient.verifyLadderProof_relation (hdecode _ houtcomes) h, relationAfter_searchLookups ht hn]
  · intro houtcomes
    rw [KtClient.verifyLadderProof_relation (habsent _ houtcomes) h]
    simp [relationAfter, searchEnds, DecodedLookup.side]

/-- The search for version 2 where six is the greatest: it ends at version 3. -/
theorem search_ladder_decoding_two :
    decodeSearchLadder [⟨1, none, 0⟩, ⟨1, none, 0⟩, ⟨1, none, 0⟩] 2 =
      .ok [⟨0, true⟩, ⟨1, true⟩, ⟨3, true⟩] :=
  (search_ladder_decoding (t := 2) (n := 6) (by decide) (by decide)).1 _ (by decide)

end KeyTransparency
