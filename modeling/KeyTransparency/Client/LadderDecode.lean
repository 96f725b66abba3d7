/-
# What a decoded ladder is

`decode_search_ladder` succeeds with a list of lookups exactly when the list is a
record of the ladder, searched for the target, and its answers are the ones of the
results (`decodeSearchLadder_eq_ok`).  So the lookups are determined by what exists:
under given answers they are the search ladder (`decoded_eq`).
-/

import KeyTransparency.Client.Ladder

namespace KeyTransparency

open BinaryLadder

namespace DecodedLookup

/-- A lookup as a question with its answer. -/
def pair (lk : DecodedLookup) : ℕ × Bool := (lk.version, lk.inclusion)

theorem pair_injective : Function.Injective pair := by
  rintro ⟨v, b⟩ ⟨v', b'⟩ h
  obtain ⟨rfl, rfl⟩ := Prod.mk.inj h
  rfl

/-- The answers of the results from an index on. -/
def answers (results : List PrefixSearchResult) (idx : ℕ) : List Bool :=
  (results.drop idx).map fun r => decide (r.resultType = 1)

variable {results : List PrefixSearchResult} {target idx : ℕ} {l : List DecodedLookup}

theorem decodeFinish_eq_ok (hidx : idx ≤ results.length) :
    decodeFinish results idx = .ok l ↔ l = [] ∧ answers results idx = l.map inclusion := by
  simp only [decodeFinish, Result.bind_eq_ok, ensure_eq_ok, answers, Result.pure_eq,
    Except.ok.injEq]
  constructor
  · rintro ⟨-, rfl, rfl⟩
    exact ⟨rfl, by simp⟩
  · rintro ⟨rfl, h⟩
    have : results.length ≤ idx := by simpa using h
    exact ⟨(), by omega, rfl⟩

theorem answers_eq_cons {b : Bool} {bs : List Bool} : answers results idx = b :: bs ↔
    ∃ r, results[idx]? = some r ∧ decide (r.resultType = 1) = b ∧
      answers results (idx + 1) = bs := by
  rw [answers, List.map_eq_cons_iff]
  constructor
  · rintro ⟨r, rest, hdrop, hb, hbs⟩
    have hhead : (results.drop idx).head? = some r := by rw [hdrop]; rfl
    have htail : (results.drop idx).tail = rest := by rw [hdrop]; rfl
    rw [List.head?_drop] at hhead
    rw [List.tail_drop] at htail
    exact ⟨r, hhead, hb, by rw [answers, htail, hbs]⟩
  · rintro ⟨r, hr, hb, hbs⟩
    obtain ⟨hlt, rfl⟩ := List.getElem?_eq_some_iff.1 hr
    exact ⟨_, _, List.drop_eq_getElem_cons hlt, hb, hbs⟩

/-- One probe: what follows it is a record of what follows its answer. -/
theorem probe_step {stop : ℕ → Bool → Bool} {v : ℕ} {yes no : ProbeTree}
    {rest : Bool → Result (List DecodedLookup)}
    (hrest : ∀ inc l', idx + 1 ≤ results.length → (rest inc = .ok l' ↔
      (if stop v inc then l' = []
        else ProbeTree.Trace stop (if inc then yes else no) (l'.map pair)) ∧
      answers results (idx + 1) = l'.map inclusion)) :
    (probe results idx >>= fun inc => rest inc >>= fun l' => .ok (⟨v, inc⟩ :: l')) = .ok l ↔
      ProbeTree.Trace stop (.probe v yes no) (l.map pair) ∧
        answers results idx = l.map inclusion := by
  simp only [probe, Result.bind_eq_ok, okOr_eq_ok, Result.pure_eq, Except.ok.injEq,
    ProbeTree.trace_probe]
  constructor
  · rintro ⟨inc, ⟨r, hr, rfl⟩, l', hl', rfl⟩
    obtain ⟨htrace, hans⟩ := (hrest _ l' (List.getElem?_eq_some_iff.1 hr).1).1 hl'
    refine ⟨⟨_, l'.map pair, rfl, ?_⟩, answers_eq_cons.2 ⟨r, hr, rfl, hans⟩⟩
    split_ifs at htrace ⊢ with h
    · rw [htrace, List.map_nil]
    · exact htrace
    · exact htrace
  · rintro ⟨⟨inc, rest', hl, htrace⟩, hans⟩
    obtain ⟨⟨version, inc'⟩, l', rfl, hpair, rfl⟩ := List.map_eq_cons_iff.1 hl
    obtain ⟨rfl, rfl⟩ := Prod.mk.inj hpair
    obtain ⟨r, hr, hinc, hans⟩ := answers_eq_cons.1 hans
    refine ⟨inc', ⟨r, hr, hinc⟩, l', (hrest _ l' (List.getElem?_eq_some_iff.1 hr).1).2 ⟨?_, hans⟩, rfl⟩
    split_ifs at htrace ⊢ with h
    · exact List.map_eq_nil_iff.1 htrace
    · exact htrace
    · exact htrace

theorem decodeBisect_eq_ok : ∀ {fuel lower upper idx : ℕ} {l : List DecodedLookup},
    upper - lower ≤ 2 ^ fuel → idx ≤ results.length →
    (decodeBisect results target (fuel + 1) lower upper idx = .ok l ↔
      ProbeTree.Trace (searchEnds target) (bisectTree (fuel + 1) lower upper) (l.map pair) ∧
        answers results idx = l.map inclusion)
  | fuel, lower, upper, idx, l, hfuel, hidx => by
    rw [decodeBisect, bisectTree]
    by_cases h : lower + 1 < upper
    · rw [if_pos h, if_pos h]
      refine probe_step fun inc l' hlt => ?_
      obtain ⟨fuel, rfl⟩ : ∃ f, fuel = f + 1 :=
        Nat.exists_eq_succ_of_ne_zero (by rintro rfl; rw [pow_zero] at hfuel; omega)
      have e : 2 ^ (fuel + 1) = 2 ^ fuel * 2 := pow_succ 2 fuel
      cases inc with
      | true =>
        simp only [if_true, searchEnds, decide_eq_true_eq]
        split_ifs with hv
        · exact decodeFinish_eq_ok hlt
        · exact decodeBisect_eq_ok (by omega) hlt
      | false =>
        simp only [Bool.false_eq_true, if_false, searchEnds, decide_eq_true_eq]
        split_ifs with hv
        · exact decodeFinish_eq_ok hlt
        · exact decodeBisect_eq_ok (by omega) hlt
    · rw [if_neg h, if_neg h, decodeFinish_eq_ok hidx, ProbeTree.trace_done, List.map_eq_nil_iff]

theorem decodePowers_eq_ok : ∀ {fuel k idx : ℕ} {last : Option ℕ} {l : List DecodedLookup},
    fuel + 1 + k = 33 → idx ≤ results.length → (last = if k = 0 then none else some (ladderValue (k - 1))) →
    (decodePowers results target (fuel + 1) k last idx = .ok l ↔
      ProbeTree.Trace (searchEnds target) (powersTree (fuel + 1) k) (l.map pair) ∧
        answers results idx = l.map inclusion)
  | fuel, k, idx, last, l, hfuel, hidx, hlast => by
    rw [decodePowers.eq_def, powersTree]
    refine probe_step fun inc l' hlt => ?_
    cases inc with
    | true =>
      simp only [if_true, searchEnds, decide_eq_true_eq]
      by_cases hv : target < ladderValue k
      · rw [if_pos (.inl hv), if_pos hv]
        exact decodeFinish_eq_ok hlt
      · rw [if_neg hv]
        by_cases hmax : ladderValue k = maxVersion
        · rw [if_pos (.inr hmax), if_pos hmax, decodeFinish_eq_ok hlt, ProbeTree.trace_done,
            List.map_eq_nil_iff]
        · have hk32 := mt (ladderValue_eq_max (show k ≤ 32 by omega)).2 hmax
          rw [if_neg (by tauto), if_neg hmax]
          obtain ⟨fuel, rfl⟩ : ∃ f, fuel = f + 1 := Nat.exists_eq_succ_of_ne_zero (by omega)
          exact decodePowers_eq_ok (by omega) hlt (by rw [if_neg (Nat.succ_ne_zero k)]; rfl)
    | false =>
      simp only [Bool.false_eq_true, if_false, searchEnds, decide_eq_true_eq]
      split_ifs with hv hk
      · exact decodeFinish_eq_ok hlt
      · subst hk
        simp [ladderValue] at hv
      · rw [hlast, if_neg hk]
        have h₁ := ladderValue_of_le (show k ≤ 32 by omega)
        have h₂ := ladderValue_of_le (show k - 1 ≤ 32 by omega)
        obtain ⟨k, rfl⟩ := Nat.exists_eq_succ_of_ne_zero hk
        have h₃ : 2 ^ k.succ = 2 ^ k * 2 := pow_succ 2 k
        have h₄ := Nat.pow_le_pow_right (show 0 < 2 by omega) (show k ≤ 31 by omega)
        rw [Nat.succ_sub_one] at h₂ ⊢
        exact decodeBisect_eq_ok (by omega) hlt

end DecodedLookup

variable {results : List PrefixSearchResult} {target : ℕ} {l : List DecodedLookup}

/-- **Decoding succeeds on the records of a search** for the target. -/
theorem decodeSearchLadder_eq_ok : decodeSearchLadder results target = .ok l ↔
    ladder.Trace (searchEnds target) (l.map DecodedLookup.pair) ∧
      results.map (fun r => decide (r.resultType = 1)) = l.map DecodedLookup.inclusion :=
  DecodedLookup.decodePowers_eq_ok rfl (Nat.zero_le _) rfl

/-- **What exists determines the lookups.** -/
theorem decoded_eq {answer : ℕ → Bool} (h : decodeSearchLadder results target = .ok l)
    (hans : ∀ lk ∈ l, lk.inclusion = answer lk.version) :
    l = (ladder.cut answer (searchEnds target)).map fun v => ⟨v, answer v⟩ := by
  have hanswer : ∀ p ∈ l.map DecodedLookup.pair, p.2 = answer p.1 := fun p hp => by
    obtain ⟨lk, hlk, rfl⟩ := List.mem_map.1 hp
    exact hans lk hlk
  have htrace := (decodeSearchLadder_eq_ok.1 h).1.eq_cut hanswer
  refine DecodedLookup.pair_injective.list_map ?_
  rw [htrace, List.map_map]
  rfl

/-- **The results of a search ladder decode** to it. -/
theorem decodeSearchLadder_cut {answer : ℕ → Bool}
    (h : results.map (fun r => decide (r.resultType = 1)) =
      (ladder.cut answer (searchEnds target)).map answer) :
    decodeSearchLadder results target =
      .ok ((ladder.cut answer (searchEnds target)).map fun v => ⟨v, answer v⟩) := by
  refine decodeSearchLadder_eq_ok.2 ⟨?_, ?_⟩
  · rw [List.map_map]
    exact ProbeTree.trace_cut answer (searchEnds target) ladder
  · rw [h, List.map_map]
    rfl

/-! ### The greatest version of an owner ladder -/

namespace KtClient

theorem length_decoded {results : List PrefixSearchResult} {target : ℕ} {d : List DecodedLookup}
    (h : decodeSearchLadder results target = .ok d) : d.length = results.length := by
  have := congrArg List.length (decodeSearchLadder_eq_ok.1 h).2
  simpa using this.symm

/-- The results determine the lookups, whatever the target. -/
theorem decoded_unique {results : List PrefixSearchResult} {target target' : ℕ}
    {d d' : List DecodedLookup} (h : decodeSearchLadder results target = .ok d)
    (h' : decodeSearchLadder results target' = .ok d') : d = d' := by
  refine DecodedLookup.pair_injective.list_map ?_
  refine (decodeSearchLadder_eq_ok.1 h).1.unique (decodeSearchLadder_eq_ok.1 h').1 ?_
  rw [List.map_map, List.map_map]
  exact (decodeSearchLadder_eq_ok.1 h).2.symm.trans (decodeSearchLadder_eq_ok.1 h').2

/-- What `ownerGreatest` finds is the greatest version that the results show. -/
theorem ownerGreatest_eq_some {results : List PrefixSearchResult} {g target : ℕ}
    {d : List DecodedLookup} (h : ownerGreatest results = some g)
    (hd : decodeSearchLadder results target = .ok d) :
    ((d.filter DecodedLookup.inclusion).map DecodedLookup.version).max? = some g := by
  rw [ownerGreatest] at h
  split_ifs at h
  obtain ⟨cand, -, hcand⟩ := List.exists_of_findSome?_eq_some (Option.join_eq_some_iff.1 h)
  cases hd' : decodeSearchLadder results cand with
  | error e => simp [hd'] at hcand
  | ok d' =>
    rw [hd'] at hcand
    simp only [length_decoded hd', if_true, Option.some.injEq] at hcand
    rw [decoded_unique hd hd']
    exact hcand

/-- Where `ownerGreatest` finds nothing, the results show nothing. -/
theorem ownerGreatest_eq_none {results : List PrefixSearchResult} {d : List DecodedLookup}
    (h : ownerGreatest results = none) (hd : decodeSearchLadder results 0 = .ok d) :
    ∀ lk ∈ d, lk.inclusion = false := by
  obtain ⟨-, hans⟩ := decodeSearchLadder_eq_ok.1 hd
  rw [ownerGreatest] at h
  by_cases hone : results.length = 1 ∧ results.head?.any (·.resultType ≠ 1)
  · obtain ⟨r, rfl⟩ := List.length_eq_one_iff.1 hone.1
    intro lk hlk
    have hmem : lk.inclusion ∈ d.map DecodedLookup.inclusion := List.mem_map_of_mem hlk
    rw [← hans, List.map_singleton, List.mem_singleton] at hmem
    rw [hmem]
    simpa using hone.2
  · rw [if_neg hone, List.range_succ_eq_map, List.findSome?_cons, hd] at h
    simp only [length_decoded hd, if_true, Option.join_some, List.max?_eq_none_iff,
      List.map_eq_nil_iff, List.filter_eq_nil_iff] at h
    exact fun lk hlk => by simpa using h lk hlk

/-- The results of a whole ladder decode for its own greatest version. -/
theorem decodeSearchLadder_self {results : List PrefixSearchResult} {g : ℕ}
    (h : results.map (fun r => decide (r.resultType = 1)) =
      (baseBinaryLadder g).map (decide <| · ≤ g)) :
    decodeSearchLadder results g = .ok ((baseBinaryLadder g).map fun v => ⟨v, decide (v ≤ g)⟩) := by
  have hcut : ladder.cut (decide <| · ≤ g) (searchEnds g) = baseBinaryLadder g := by
    rw [baseBinaryLadder_eq]
    refine ProbeTree.cut_eq_path fun v _ => ?_
    by_cases hv : v ≤ g
    · simp [searchEnds, hv]
    · simp [searchEnds, hv]
  rw [← hcut] at h ⊢
  exact decodeSearchLadder_cut h

/-- The candidates that are tried go far enough up to version 8. -/
theorem le_length_baseBinaryLadder {g : ℕ} (hg : g ≤ 8) : g ≤ (baseBinaryLadder g).length := by
  revert g
  decide +kernel

/-- **A whole ladder reveals its greatest version**, up to version 8. -/
theorem ownerGreatest_eq {results : List PrefixSearchResult} {g : ℕ} (hg : g ≤ 8)
    (h : results.map (fun r => decide (r.resultType = 1)) =
      (baseBinaryLadder g).map (decide <| · ≤ g)) : ownerGreatest results = some g := by
  have hd := decodeSearchLadder_self h
  have hlen : results.length = (baseBinaryLadder g).length := by
    simpa using congrArg List.length h
  have hself : g ∈ baseBinaryLadder g := mem_baseBinaryLadder_self (by omega)
  cases hfound : ownerGreatest results with
  | some g' =>
    have hmax := List.max?_eq_some_iff.1 (ownerGreatest_eq_some hfound hd)
    simp only [List.filter_map, List.map_map, List.mem_map, List.mem_filter, Function.comp_apply,
      decide_eq_true_eq] at hmax
    obtain ⟨⟨v, ⟨-, hv⟩, rfl⟩, hall⟩ := hmax
    have := hall g ⟨g, ⟨hself, le_rfl⟩, rfl⟩
    rw [show v = g by omega]
  | none =>
    rw [ownerGreatest] at hfound
    have hshown : ¬ (results.length = 1 ∧ results.head?.any (·.resultType ≠ 1)) := by
      rintro ⟨hone, hany⟩
      obtain ⟨r, rfl⟩ := List.length_eq_one_iff.1 hone
      obtain ⟨v, hv⟩ := List.length_eq_one_iff.1 (hlen.symm.trans hone)
      rw [hv] at hself h
      obtain rfl := List.mem_singleton.1 hself
      simp only [List.map_cons, List.map_nil, le_refl, decide_true, List.cons.injEq, and_true,
        decide_eq_true_eq] at h
      simp [h] at hany
    rw [if_neg hshown, Option.join_eq_none_iff] at hfound
    rcases hfound with hnone | hnone
    · have hcand := List.findSome?_eq_none_iff.1 hnone g
        (List.mem_range.2 (by have := le_length_baseBinaryLadder hg; omega))
      simp [hd, hlen] at hcand
    · obtain ⟨cand, -, hcand⟩ := List.exists_of_findSome?_eq_some hnone
      cases hd' : decodeSearchLadder results cand with
      | error e => simp [hd'] at hcand
      | ok d' =>
        obtain rfl := decoded_unique hd hd'
        simp only [hd', length_decoded hd', if_true, Option.some.injEq, List.max?_eq_none_iff,
          List.map_eq_nil_iff, List.filter_eq_nil_iff] at hcand
        have := hcand ⟨g, decide (g ≤ g)⟩ (List.mem_map.2 ⟨g, hself, rfl⟩)
        simp at this

end KtClient

end KeyTransparency
