/-
# The order of a search's binary ladder

Every ladder of a search for the greatest version is the beginning of the base ladder of its
target, however far the entry's versions go, and the rightmost entry's is the whole of it.  A
session gives each version one step when it is first looked up, so the steps stand in the base
ladder's order, which is the one that the client assumes (`search_ladders_order`).  Nothing is
asked of the store.
-/

import KeyTransparency.Client.GreatestSearch
import KeyTransparency.Client.HonestServer
import KeyTransparency.Tree.Pruning

namespace KeyTransparency

open BinaryLadder LogMath

section

variable {P : Primitives} {t : Tree} {extract : Option ℕ} {s s' : TraversalSession}

namespace TraversalSession

/-- The versions of the binary ladder, in the order of its steps. -/
def versions (s : TraversalSession) : List ℕ := s.binaryLadder.map Prod.fst

/-- **A version gets a step** when it is first looked up. -/
theorem addStep_versions {result : ℕ × Option Octets} (h : s.addStep P t extract result = .ok s') :
    s'.versions = appendNew s.versions result.1 := by
  rw [addStep] at h
  dsimp only at h
  generalize (if extract = some result.1 then none else result.2) = commitment at h
  split_ifs at h with hmem
  · obtain rfl := Except.ok.inj h
    have hfst : ∀ e : ℕ × BinaryLadderStep, (fillStep result.1 commitment e).1 = e.1 := fun e => by
      rw [fillStep]
      split_ifs <;> rfl
    have happend : appendNew s.versions result.1 = s.versions := appendNew_of_mem hmem
    rw [happend, versions, List.map_map]
    exact List.map_congr_left fun e _ => hfst e
  · obtain ⟨x, -, h⟩ := Result.bind_eq_ok.1 h
    obtain rfl := Except.ok.inj h
    have happend : appendNew s.versions result.1 = s.versions ++ [result.1] := appendNew_of_not_mem hmem
    rw [happend, versions, List.map_append]
    rfl

theorem addSteps_versions : ∀ {results : List (ℕ × Option Octets)} {s s' : TraversalSession},
    s.addSteps P t extract results = .ok s' →
      s'.versions = firstSeenAfter s.versions (results.map Prod.fst)
  | [], s, s', h => by
    obtain rfl := Except.ok.inj h
    rfl
  | result :: results, s, s', h => by
    obtain ⟨s₁, h₁, h⟩ := Result.bind_eq_ok.1 h
    rw [addSteps_versions h, addStep_versions h₁, List.map_cons, firstSeenAfter_cons]

theorem addNode_versions (e : ℕ) (ts : U64) : (s.addNode e ts).versions = s.versions := by
  rw [addNode]
  split_ifs <;> rfl

end TraversalSession

theorem Tree.generateLadderProof_versions {ptr : ℕ} {label : Octets} {versions : List ℕ}
    {proof : PrefixProof} {results : List (ℕ × Option Octets)}
    (h : t.generateLadderProof P ptr label versions = .ok (proof, results)) :
    results.map Prod.fst = versions := by
  obtain ⟨found, hfound, h⟩ := Result.bind_eq_ok.1 h
  obtain ⟨-, rfl⟩ := Prod.mk.inj (Except.ok.inj h)
  have hall : List.Forall₂ (fun v e => e.1 = v) versions found :=
    (Batcher.forall₂_of_mapM_eq_ok hfound).imp fun v e he => by
      obtain ⟨x, -, he⟩ := Result.bind_eq_ok.1 he
      obtain ⟨y, -, he⟩ := Result.bind_eq_ok.1 he
      exact (Except.ok.inj he) ▸ rfl
  rw [List.map_map]
  have heq : List.Forall₂ (· = ·) (found.map fun e => e.1) versions :=
    List.forall₂_map_left_iff.2 hall.flip
  rw [List.forall₂_eq_eq_eq] at heq
  exact heq

/-- **A visit appends the versions** that were not looked up before. -/
theorem TraversalSession.visit_versions {e : ℕ} {versions : List ℕ}
    (h : s.visit P t e versions extract = .ok s') :
    s'.versions = firstSeenAfter s.versions versions := by
  obtain ⟨ts, -, h⟩ := Result.bind_eq_ok.1 h
  obtain ⟨ptr, -, h⟩ := Result.bind_eq_ok.1 h
  obtain ⟨⟨proof, results⟩, hproof, h⟩ := Result.bind_eq_ok.1 h
  obtain ⟨s₁, h₁, h⟩ := Result.bind_eq_ok.1 h
  have hversions : s₁.versions = firstSeenAfter s.versions versions := by
    rw [addSteps_versions h₁, Tree.generateLadderProof_versions hproof]
    exact congrArg (firstSeenAfter · versions) (addNode_versions e ts)
  cases extract with
  | none =>
    obtain rfl := Except.ok.inj h
    exact hversions
  | some v =>
    obtain ⟨x, -, h⟩ := Result.bind_eq_ok.1 h
    obtain rfl := Except.ok.inj h
    exact hversions

theorem TraversalSession.visitAll_versions : ∀ {nodes : List ℕ} {s s' : TraversalSession},
    s.visitAll t nodes = .ok s' → s'.versions = s.versions
  | [], s, s', h => by
    obtain rfl := Except.ok.inj h
    rfl
  | e :: nodes, s, s', h => by
    obtain ⟨s₁, h₁, h⟩ := Result.bind_eq_ok.1 h
    obtain ⟨ts, -, h₁⟩ := Result.bind_eq_ok.1 h₁
    rw [visitAll_versions h]
    split at h₁ <;> exact (Except.ok.inj h₁) ▸ addNode_versions e ts

/-! ### Search ladders -/

/-- **A search ladder is the beginning of the target's base ladder.** -/
theorem BinaryLadder.searchBinaryLadder_beginning (target n : ℕ) :
    searchBinaryLadder target n [] [] <+: baseBinaryLadder target := by
  rw [searchBinaryLadder_eq]
  exact cut_beginning_baseBinaryLadder _ target

theorem Tree.searchLadder_beginning (target : ℕ) : ∀ n : Option ℕ,
    Tree.searchLadder target n <+: baseBinaryLadder target
  | some n => searchBinaryLadder_beginning target n
  | none => by
    -- the lookup of version 0 alone, as when no version exists
    have hcut := cut_beginning_baseBinaryLadder (fun _ => false) target
    rwa [ladder, powersTree, ProbeTree.cut] at hcut

theorem Tree.searchLadder_self (target : ℕ) :
    Tree.searchLadder target (some target) = baseBinaryLadder target := by
  rw [searchLadder, searchBinaryLadder_eq, baseBinaryLadder_eq]
  refine ProbeTree.cut_eq_path fun v _ => ?_
  by_cases hv : v ≤ target <;> simp [searchEnds, hv]

variable {history : List (ℕ × ℕ)} {target rightmost : ℕ}

/-- **The loop over the frontier** appends the versions of its ladders. -/
theorem Tree.greatestSearchLoop_versions : ∀ {nodes : List ℕ} {s s' : TraversalSession},
    greatestSearchLoop P t history target rightmost nodes s = .ok s' → s'.versions =
      firstSeenAfter s.versions
        (nodes.map fun e => Tree.searchLadder target (t.getMaxVersionAt history e)).flatten
  | [], s, s', h => by
    obtain rfl := Except.ok.inj h
    rfl
  | e :: nodes, s, s', h => by
    obtain ⟨s₁, h₁, h⟩ := Result.bind_eq_ok.1 h
    rw [greatestSearchLoop_versions h, TraversalSession.visit_versions h₁, List.map_cons,
      List.flatten_cons, firstSeenAfter_append]

/-- **Ladders that end with the target's own** are first seen in the base ladder's order. -/
theorem firstSeen_searchLadders {greatest : List (Option ℕ)} (h : some target ∈ greatest) :
    firstSeen (greatest.map (Tree.searchLadder target)).flatten = baseBinaryLadder target := by
  refine firstSeen_beginnings (nodup_baseBinaryLadder target) (fun l hl => ?_) ?_
  · obtain ⟨n, -, rfl⟩ := List.mem_map.1 hl
    exact Tree.searchLadder_beginning target n
  · exact List.mem_map.2 ⟨some target, h, Tree.searchLadder_self target⟩

/-- **Search ladders are beginnings of the target's base ladder.**  So over any entries whose
greatest versions end at the target, the versions are first looked up in the base ladder's
order, and the steps of a search for the greatest version stand in the slots that the client
assumes. -/
theorem search_ladders_order :
    (∀ target n, n ≤ target → searchBinaryLadder target n [] [] <+: baseBinaryLadder target) ∧
    (∀ (P : Primitives) (t : Tree) (history : List (ℕ × ℕ)) (target rightmost : ℕ) (nodes : List ℕ)
      (s s' : TraversalSession), s.versions = [] →
      (nodes.map (t.getMaxVersionAt history)).getLast? = some (some target) →
      Tree.greatestSearchLoop P t history target rightmost nodes s = .ok s' →
      s'.versions = baseBinaryLadder target) ∧
    ∀ (P : Primitives) (t : Tree) (treeSize : ℕ) (label : Octets) (last : ℕ) (data : SearchResultData),
      t.traverseGreatestSearch P treeSize label last = .ok data → ∃ s : TraversalSession,
        data.binaryLadder = s.ladder ∧ s.versions = baseBinaryLadder data.greatestVersion := by
  have hloop : ∀ (P : Primitives) (t : Tree) (history : List (ℕ × ℕ)) (target rightmost : ℕ)
      (nodes : List ℕ) (s s' : TraversalSession), s.versions = [] →
      (nodes.map (t.getMaxVersionAt history)).getLast? = some (some target) →
      Tree.greatestSearchLoop P t history target rightmost nodes s = .ok s' →
      s'.versions = baseBinaryLadder target := by
    intro P t history target rightmost nodes s s' hs hlast hrun
    have hmap : nodes.map (fun e => Tree.searchLadder target (t.getMaxVersionAt history e)) =
        (nodes.map (t.getMaxVersionAt history)).map (Tree.searchLadder target) := by
      rw [List.map_map]
      rfl
    rw [Tree.greatestSearchLoop_versions hrun, hs, hmap]
    exact firstSeen_searchLadders (List.mem_of_getLast? hlast)
  refine ⟨fun target n _ => searchBinaryLadder_beginning target n, hloop, ?_⟩
  intro P t treeSize label last data h
  obtain ⟨s₁, h₁, h⟩ := Result.bind_eq_ok.1 h
  obtain ⟨rightmost, hright, h⟩ := Result.bind_eq_ok.1 h
  obtain ⟨target, htarget, h⟩ := Result.bind_eq_ok.1 h
  obtain ⟨s₂, h₂, h⟩ := Result.bind_eq_ok.1 h
  obtain ⟨proof, -, h⟩ := Result.bind_eq_ok.1 h
  obtain rfl := Except.ok.inj h
  refine ⟨s₂, rfl, hloop P t _ target rightmost _ s₁ s₂ (TraversalSession.visitAll_versions h₁) ?_ h₂⟩
  have hright' : (getFrontier treeSize).getLast? = some rightmost := by
    cases hlast : (getFrontier treeSize).getLast? with
    | none =>
      rw [hlast] at hright
      cases hright
    | some e =>
      rw [hlast] at hright
      exact congrArg some (Except.ok.inj hright)
  have htarget' : t.getMaxVersionAt (t.store.history label) rightmost = some target := by
    cases hmax : t.getMaxVersionAt (t.store.history label) rightmost with
    | none =>
      rw [hmax] at htarget
      cases htarget
    | some n =>
      rw [hmax] at htarget
      exact congrArg some (Except.ok.inj htarget)
  rw [List.getLast?_map, hright', Option.map_some, htarget']

end

/-- A search in a log of one entry, which brought the first version. -/
theorem search_ladders_order_first : ∃ (t : Tree) (data : SearchResultData) (s : TraversalSession),
    t.traverseGreatestSearch Primitives.ideal 1 [] 0 = .ok data ∧ data.greatestVersion = 0 ∧
      data.binaryLadder = s.ladder ∧ s.versions = [0, 1] := by
  obtain ⟨t, epochs, h, -, hauditors, hplan, hdist, -⟩ := exists_plannedLog 10 [(10, [[]])]
    (List.pairwise_singleton _ _) (by simp) (by simp) (by decide) (by decide)
  have hlength : epochs.length = 1 := by
    have hplanned := congrArg List.length hplan
    rwa [List.length_map] at hplanned
  have hlabel : ([] : Octets).length < 256 := by decide
  have hcount : versionCount epochs [] 0 = 1 := by
    rw [versionCount_planned, hplan]
    decide
  have hserves := h.serves hlabel hdist fun _ => false
  rw [Tree.without_none] at hserves
  have hgreatest : (h.labelLog hlabel hdist).greatest (epochs.length - 1) = some 0 := by
    change lastVersion (versionCount epochs [] (epochs.length - 1)) = some 0
    rw [hlength, hcount]
    rfl
  obtain ⟨p, hp⟩ : ∃ p, (0, p) ∈ t.store.history [] := h.exists_position (e := 0) (by omega)
  obtain ⟨⟨value, opening⟩, hopen⟩ := h.stored hp
  obtain ⟨proof, steps, hrun, -⟩ := Tree.traverseGreatestSearch_honest (m := 0) hserves hauditors
    (show 0 < epochs.length by omega) h.run.size_le (Nat.zero_le _) hgreatest hopen
  have hsize : (h.labelLog hlabel hdist).size = 1 := hlength
  rw [hsize] at hrun
  obtain ⟨s, hladder, hversions⟩ := search_ladders_order.2.2 _ t 1 [] 0 _ hrun
  exact ⟨t, _, s, hrun, rfl, hladder, hversions.trans (show baseBinaryLadder 0 = [0, 1] by decide)⟩

end KeyTransparency
