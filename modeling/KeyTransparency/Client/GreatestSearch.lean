/-
# Following a search for the greatest version

The visits of a search for the greatest version, as a server makes them over the
frontier (`Tree.traverseGreatestSearch_honest`), and that a client follows them
(`frontierWalk_eq`): the binary ladder has the base ladder's order, every entry's
ladder verifies, and the first entry with the version is found.
-/

import KeyTransparency.Client.Credential
import KeyTransparency.Client.OwnerWalk
import KeyTransparency.Client.SearchLadder

namespace KeyTransparency

open BinaryLadder LogMath

/-- The visits of a search ladder at each of some entries. -/
def LabelLog.searchLadders (L : LabelLog) (target : ℕ) (entries : List ℕ) : List Visit :=
  entries.map fun e => .ladder e (L.searchLadder target e)

/-- The visits of a search for the greatest version. -/
def LabelLog.greatestVisits (L : LabelLog) (target : ℕ) : List Visit :=
  frontierVisits L.size ++ L.searchLadders target (getFrontier L.size)

section

variable {P : Primitives} {t : Tree} {c : KtClient} {label : Octets} {L : LabelLog}
  {visits done : List Visit} {m target : ℕ} {proof : CombinedTreeProof}

/-! ### The visits -/

namespace LabelLog

theorem searchLadders_cons (target e : ℕ) (entries : List ℕ) :
    L.searchLadders target (e :: entries) = .ladder e (L.searchLadder target e) ::
      L.searchLadders target entries := rfl

theorem laddersOf_searchLadders (target : ℕ) : ∀ entries : List ℕ,
    laddersOf (L.searchLadders target entries) = entries.map fun e => (e, L.searchLadder target e)
  | [] => rfl
  | e :: entries => by
    rw [searchLadders_cons, List.map_cons, ← laddersOf_searchLadders target entries]
    rfl

theorem laddersOf_greatestVisits (target : ℕ) : laddersOf (L.greatestVisits target) =
    (getFrontier L.size).map fun e => (e, L.searchLadder target e) := by
  rw [greatestVisits, laddersOf, List.filterMap_append]
  change laddersOf (frontierVisits L.size) ++ laddersOf (L.searchLadders target (getFrontier L.size)) = _
  rw [frontierVisits, laddersOf_stamps, List.nil_append, laddersOf_searchLadders]

theorem mem_greatestVisits {e : ℕ} :
    e ∈ entriesOf (L.greatestVisits target) ↔ e ∈ getFrontier L.size := by
  rw [mem_entriesOf, greatestVisits]
  constructor
  · rintro ⟨visit, hvisit, rfl⟩
    rcases List.mem_append.1 hvisit with h | h
    · obtain ⟨q, hq, rfl⟩ := List.mem_map.1 h
      exact hq
    · obtain ⟨q, hq, rfl⟩ := List.mem_map.1 h
      exact hq
  · intro h
    exact ⟨.stamp e, List.mem_append_left _ (List.mem_map_of_mem h), rfl⟩

/-- **The versions of a search for the greatest one** stand in the base ladder's order. -/
theorem versionsOf_greatestVisits (h₀ : 0 < L.size) (hn : L.size ≤ 2 ^ 62)
    (hgreatest : L.greatest (L.size - 1) = some target) :
    versionsOf (L.greatestVisits target) = baseBinaryLadder target := by
  have hflat : (laddersOf (L.greatestVisits target)).flatMap Prod.snd =
      ((getFrontier L.size).map (L.searchLadder target)).flatten := by
    rw [laddersOf_greatestVisits, List.flatMap_map, List.flatMap_def]
  rw [versionsOf, hflat]
  refine firstSeen_beginnings (nodup_baseBinaryLadder target) (fun l hl => ?_) ?_
  · obtain ⟨e, -, rfl⟩ := List.mem_map.1 hl
    exact searchLadder_beginning target e
  · rw [← searchLadder_self hgreatest]
    exact List.mem_map_of_mem (last_mem_getFrontier h₀ hn)

/-- No entry has a greater version than the last one. -/
theorem greatest_le (hgreatest : L.greatest (L.size - 1) = some target) {e g : ℕ} (he : e < L.size)
    (hg : L.greatest e = some g) : g ≤ target := by
  obtain ⟨g', hg', hle⟩ := L.growing (show e ≤ L.size - 1 by omega) (by omega) hg
  rw [hgreatest] at hg'
  rw [Option.some.inj hg']
  exact hle

end LabelLog

/-! ### The server -/

/-- **The server's loop** makes the visits, and fetches the value at the rightmost entry. -/
theorem Tree.greatestSearchLoop_honest (hs : t.Serves P label L) {value : UpdateValue}
    {opening : Octets} (hopen : t.extractValueAndOpening (t.store.history label) target =
      .ok (value, opening)) (rightmost : ℕ) : ∀ {nodes : List ℕ} {visits : List Visit}
      {s : TraversalSession}, (∀ e ∈ nodes, e < L.size) →
    s.Gathered P label L (some target) visits → ∃ s',
      greatestSearchLoop P t (t.store.history label) target rightmost nodes s = .ok s' ∧
      s'.Gathered P label L (some target) (visits ++ L.searchLadders target nodes) ∧
      ((rightmost ∈ nodes ∨ s.foundValue = some value ∧ s.foundOpening = opening) →
        s'.foundValue = some value ∧ s'.foundOpening = opening)
  | [], visits, s, _, h => by
    refine ⟨s, rfl, ?_, fun hfound => hfound.resolve_left List.not_mem_nil⟩
    rw [LabelLog.searchLadders, List.map_nil, List.append_nil]
    exact h
  | e :: nodes, visits, s, hlt, h => by
    have he := hlt e List.mem_cons_self
    have hmax : ∀ v ∈ L.searchLadder target e, v ≤ maxVersion :=
      fun v hv => LabelLog.le_of_mem_searchLadder hv
    have hextract : (if e = rightmost then some target else none) = none ∨
        (if e = rightmost then some target else none) = some target := by split_ifs <;> simp
    obtain ⟨s₁, hvisit, h₁, hvalue, hopening⟩ := h.visit_eq hs he hmax hextract
    have hladder : Tree.searchLadder target (t.getMaxVersionAt (t.store.history label) e) =
        L.searchLadder target e := by rw [hs.greatest e he, LabelLog.searchLadder_eq]
    obtain ⟨s₂, hs₂, h₂, hfound₂⟩ : ∃ s₂, TraversalSession.extracted t
        (if e = rightmost then some target else none) s₁ = .ok s₂ ∧
        s₂.Gathered P label L (some target) (visits ++ [.ladder e (L.searchLadder target e)]) ∧
        ((e = rightmost ∨ s.foundValue = some value ∧ s.foundOpening = opening) →
          s₂.foundValue = some value ∧ s₂.foundOpening = opening) := by
      split_ifs with hright
      · refine ⟨_, ?_, h₁.found (some value) opening, fun _ => ⟨rfl, rfl⟩⟩
        rw [TraversalSession.extracted, h₁.label, hopen]
        rfl
      · refine ⟨s₁, rfl, h₁, fun hfound => ?_⟩
        rw [hvalue, hopening]
        exact hfound.resolve_left hright
    obtain ⟨s₃, hs₃, h₃, hfound₃⟩ := greatestSearchLoop_honest hs hopen rightmost
      (fun e' he' => hlt e' (List.mem_cons_of_mem _ he')) h₂
    refine ⟨s₃, ?_, ?_, fun hfound => hfound₃ ?_⟩
    · rw [greatestSearchLoop, hladder, hvisit, hs₂, Result.ok_bind, hs₃]
    · rw [LabelLog.searchLadders_cons, List.append_cons]
      exact h₃
    · rcases hfound with hmem | hbefore
      · rcases List.mem_cons.1 hmem with heq | hmem
        · exact .inr (hfound₂ (.inl heq.symm))
        · exact .inl hmem
      · exact .inr (hfound₂ (.inr hbefore))

/-- **What the server answers** to a search for the greatest version. -/
theorem Tree.traverseGreatestSearch_honest (hs : t.Serves P label L) (hauditors : t.auditors = [])
    (h₀ : 0 < L.size) (hn : L.size ≤ 2 ^ 62) (hm : m ≤ L.size)
    (hgreatest : L.greatest (L.size - 1) = some target) {value : UpdateValue} {opening : Octets}
    (hopen : t.extractValueAndOpening (t.store.history label) target = .ok (value, opening)) :
    ∃ proof steps, traverseGreatestSearch P t L.size label m =
        .ok ⟨proof, steps, some value, opening, target⟩ ∧
      Transcript P L (L.greatestVisits target) m proof ∧
      L.Wire (some target) (laddersOf (L.greatestVisits target)) (baseBinaryLadder target) steps ∧
      steps.length = (baseBinaryLadder target).length := by
  obtain ⟨s₁, hrun₁, h₁, -, -⟩ := (TraversalSession.gathered_new P label L (some target)).visitAll
    hs.servesLog fun e (he : e ∈ getFrontier L.size) => mem_getFrontier_lt hn he
  obtain ⟨s₂, hrun₂, h₂, hfound⟩ := greatestSearchLoop_honest hs hopen (L.size - 1)
    (fun e (he : e ∈ getFrontier L.size) => mem_getFrontier_lt hn he) h₁
  obtain ⟨hvalue, hopening⟩ := hfound (.inl (last_mem_getFrontier h₀ hn))
  obtain ⟨proof, hfinal, htranscript⟩ := h₂.finalize hs hauditors h₀ hn hm
  have horder := LabelLog.versionsOf_greatestVisits h₀ hn hgreatest
  have hvisits : [] ++ (getFrontier L.size).map Visit.stamp ++ L.searchLadders target (getFrontier L.size) =
      L.greatestVisits target := rfl
  rw [hvisits] at htranscript h₂
  have hwire := h₂.steps.wire
  have hversions := h₂.steps.versions
  rw [← versionsOf, horder] at hwire hversions
  refine ⟨proof, s₂.ladder, ?_, htranscript, hwire, ?_⟩
  · rw [traverseGreatestSearch, TraversalSession.visitFrontier, hrun₁, Result.ok_bind]
    dsimp only
    rw [getLast?_getFrontier h₀ hn]
    dsimp only [Option.elim]
    rw [Result.ok_bind, hs.greatest _ (by omega), hgreatest]
    dsimp only
    rw [Result.ok_bind, hrun₂, Result.ok_bind, hfinal, Result.ok_bind, hvalue, hopening]
    rfl
  · rw [← hversions, List.length_map]
    exact List.length_map _

/-! ### The client -/

/-- **A verifier has followed the visits** with its reader and the roots it has recorded. -/
structure SearchState.Follows (P : Primitives) (L : LabelLog) (proof : CombinedTreeProof)
    (done : List Visit) (s : SearchState) : Prop where
  reader : s.reader.At L proof (entriesOf done) (laddersOf done).length
  roots : ∀ e, s.entryRoots e =
    if e ∈ (laddersOf done).map Prod.fst then some (L.root P e) else none

/-- **Following a visit with a ladder**: the proof that is read, and the root that is
recorded. -/
theorem SearchState.Follows.ladder {s : SearchState} (h : s.Follows P L proof done)
    (ht : Transcript P L visits m proof) {e : ℕ} {versions : List ℕ}
    (hladder : (laddersOf visits)[(laddersOf done).length]? = some (e, versions))
    (hstamped : e ∈ entriesOf done) :
    ∃ pp reader entryRoots, s.reader.prefixProof = .ok (pp, reader) ∧
      pp.Proves P (L.contents e) (versions.map L.key) ∧
      ProofReader.recordEntryRoot s.entryRoots e (L.root P e) = .ok entryRoots ∧
      ∀ ladders, (SearchState.mk reader ladders entryRoots).Follows P L proof
        (done ++ [.ladder e versions]) := by
  obtain ⟨pp, reader, hpp, hreader, hproves⟩ := h.reader.prefixProof ht hladder
  have hsame : ∀ prev ∈ s.entryRoots e, prev = L.root P e := fun prev hprev => by
    rw [h.roots] at hprev
    split_ifs at hprev with hmem
    · exact (Option.some.inj hprev).symm
    · cases hprev
  refine ⟨pp, reader, Function.update s.entryRoots e (some (L.root P e)), hpp, hproves,
    by rw [ProofReader.recordEntryRoot, ensure_of hsame]; rfl, fun ladders => ⟨?_, fun e' => ?_⟩⟩
  · rw [entriesOf_ladder, appendNew_of_mem hstamped, laddersOf_ladder, List.length_append]
    exact hreader
  · rw [laddersOf_ladder, List.map_append, List.map_singleton]
    by_cases he : e' = e
    · subst he
      simp
    · change Function.update s.entryRoots e (some (L.root P e)) e' = _
      have hiff : e' ∈ (laddersOf done).map Prod.fst ++ [e] ↔ e' ∈ (laddersOf done).map Prod.fst := by
        simp only [List.mem_append, List.mem_singleton, he, or_false]
      rw [Function.update_of_ne he, h.roots]
      simp only [hiff]

/-- **Following a visit to a timestamp.** -/
theorem SearchState.Follows.stamp {s : SearchState} (h : s.Follows P L proof done)
    (ht : Transcript P L visits m proof) {e : ℕ} (hseen : appendNew (entriesOf done) e <+: entriesOf visits) :
    ∃ reader, s.reader.timestamp e = .ok (L.timestamp e, reader) ∧
      ({ s with reader := reader } : SearchState).Follows P L proof (done ++ [.stamp e]) := by
  obtain ⟨reader, hreader, hat⟩ := h.reader.timestamp ht hseen
  refine ⟨reader, hreader, ?_, fun e' => ?_⟩
  · rw [entriesOf_stamp, laddersOf_stamp]
    exact hat
  · rw [laddersOf_stamp]
    exact h.roots e'

/-- **A loop over a frontier** whose steps find the relations of its entries ends with
the first entry that has the target. -/
theorem frontierWalk_eq {σ : Type} (step : ℕ → σ → Result (Ordering × σ)) (relation : ℕ → Ordering)
    (Inv : List ℕ → List ℕ → σ → Prop)
    (hstep : ∀ seen e rest s, Inv seen (e :: rest) s →
      ∃ s', step e s = .ok (relation e, s') ∧ Inv (seen ++ [e]) rest s') :
    ∀ (entries seen : List ℕ) (first : Option ℕ) (s : σ), Inv seen entries s →
      ∃ s', frontierWalk step entries first s =
        .ok (first.or (entries.find? fun e => relation e = .eq), s') ∧ Inv (seen ++ entries) [] s'
  | [], seen, first, s, h => by
    refine ⟨s, by rw [List.find?_nil, Option.or_none]; rfl, ?_⟩
    rwa [List.append_nil]
  | e :: entries, seen, first, s, h => by
    obtain ⟨s₁, hrun₁, h₁⟩ := hstep seen e entries s h
    obtain ⟨s₂, hrun₂, h₂⟩ := frontierWalk_eq step relation Inv hstep entries (seen ++ [e])
      (if relation e = .eq ∧ first = none then some e else first) s₁ h₁
    refine ⟨s₂, ?_, by rwa [List.append_assoc] at h₂⟩
    rw [frontierWalk, hrun₁, Result.ok_bind]
    dsimp only
    rw [hrun₂, List.find?_cons]
    congr 2
    cases first with
    | some f => simp
    | none => by_cases hrel : relation e = .eq <;> simp [hrel]

end

end KeyTransparency
