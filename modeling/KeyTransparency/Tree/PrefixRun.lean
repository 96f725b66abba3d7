/-
# Runs of the prefix tree

A run is any sequence of batches, searches and cache evictions, each batch starting
from the pointer that the last one returned (`PrefixRun`).  `PrefixState.Sound` is what
holds of every state of it: the entries stored are those of the history, and the
cache holds nothing else.
-/

import KeyTransparency.Tree.PrefixInsert

namespace KeyTransparency

/-- The prefix tree between two calls, with the insertions made so far and the roots
returned for them, the newest first. -/
structure PrefixState where
  store : Store
  cache : NodeCache
  ptr : Option ℕ
  history : List Insertion
  roots : List Octets

def PrefixState.nodes (st : PrefixState) : Nodes := ⟨fun _ => none, st.cache⟩

inductive PrefixRun (P : Primitives) : PrefixState → Prop
  | start (store : Store) (hempty : ∀ p, store.prefixes p = none) :
      PrefixRun P ⟨store, fun _ => none, none, [], []⟩
  | batch {st : PrefixState} (run : PrefixRun P st) (evict : Eviction) (startVersion : ℕ)
      (entries : List (Octets × Octets)) (hkeys : ∀ e ∈ entries, IsKey e.1)
      (hfresh : ∀ x ∈ st.history, x.position < startVersion) {roots : List Octets}
      {results : List PrefixSearch} {ptr : ℕ} {cache : NodeCache} {store : Store}
      (hcall : (PrefixTree.batchInsert P evict startVersion st.ptr entries st.cache).Runs st.store
        (roots, results, ptr, cache) store) :
      PrefixRun P ⟨store, cache, some ptr, (insertionsFrom startVersion entries).reverse ++ st.history,
        roots.reverse ++ st.roots⟩
  | search {st : PrefixState} (run : PrefixRun P st) (evict : Eviction) (ptr : ℕ) (index : Octets)
      {proof : ProofResult} {nodes : Nodes}
      (hcall : PrefixTree.searchForProof P evict st.store ptr index st.nodes = .ok (proof, nodes)) :
      PrefixRun P { st with cache := nodes.cache }
  | evict {st : PrefixState} (run : PrefixRun P st) (cache : NodeCache)
      (hsub : ∀ p, cache p = none ∨ cache p = st.cache p) : PrefixRun P { st with cache }

/-- The roots of the maps that a history and its past stand for. -/
def rootsOf (P : Primitives) : List Insertion → List Octets
  | [] => []
  | x :: history => prefixRoot P (commitmentsOf (x :: history)) :: rootsOf P history

structure PrefixState.Sound (P : Primitives) (st : PrefixState) : Prop where
  keys : KeysValid st.history
  sorted : st.history.Pairwise fun x y => y.position < x.position
  recorded : Recorded P st.history st.store.prefixes
  hold : st.nodes.Hold P st.store st.store.prefixes
  written : ∀ p, st.store.prefixes p ≠ none → ∃ x ∈ st.history, x.position = p
  /-- An empty batch on an empty tree returns the pointer 0, where nothing is. -/
  ptr : st.ptr = rootPtr st.history ∨ st.history = [] ∧ st.ptr = some 0
  roots : st.roots = rootsOf P st.history

section

variable {P : Primitives} {evict : Eviction} {st : PrefixState}

theorem rootsOf_append (h : List Insertion) :
    ∀ xs : List Insertion, rootsOf P (xs.reverse ++ h) = (rootsFrom P h xs).reverse ++ rootsOf P h
  | [] => rfl
  | x :: xs => by
    rw [List.reverse_cons, List.append_assoc, List.singleton_append, rootsOf_append (x :: h) xs,
      rootsFrom, List.reverse_cons, List.append_assoc]
    rfl

theorem mem_insertionsFrom {x : Insertion} :
    ∀ {version : ℕ} {entries : List (Octets × Octets)}, x ∈ insertionsFrom version entries →
      version ≤ x.position ∧ (x.key, x.commitment) ∈ entries
  | _, [], h => by simp [insertionsFrom] at h
  | version, _ :: entries, h => by
    rcases List.mem_cons.1 h with rfl | h
    · exact ⟨le_rfl, List.mem_cons_self⟩
    · obtain ⟨h₁, h₂⟩ := mem_insertionsFrom h
      exact ⟨by omega, List.mem_cons_of_mem _ h₂⟩

theorem sorted_insertionsFrom :
    ∀ (version : ℕ) (entries : List (Octets × Octets)),
      (insertionsFrom version entries).Pairwise fun x y => x.position < y.position
  | _, [] => List.Pairwise.nil
  | version, _ :: entries =>
    List.pairwise_cons.2 ⟨fun _ hx => (mem_insertionsFrom hx).1,
      sorted_insertionsFrom (version + 1) entries⟩

theorem putAll_ne_none {es : List (ℕ × LogEntry)} {t : ℕ → Option LogEntry} {p : ℕ}
    (h : Store.putAll es t p ≠ none) : t p ≠ none ∨ ∃ e ∈ es, e.1 = p := by
  rcases Classical.em (∃ e ∈ es, e.1 = p) with he | he
  · exact .inr he
  · rw [Store.putAll_of_not_mem fun e hmem heq => he ⟨e, hmem, heq⟩] at h
    exact .inl h

theorem PrefixState.Sound.below (hs : st.Sound P) {version : ℕ}
    (hfresh : ∀ x ∈ st.history, x.position < version) :
    Below st.history st.store.prefixes version where
  position_lt := hfresh
  free p hp := by
    by_contra hne
    obtain ⟨x, hx, rfl⟩ := hs.written p hne
    exact absurd (hfresh x hx) (by omega)

theorem NodeCache.Of.putAll {entries : ℕ → Option LogEntry} :
    ∀ {written : List (ℕ × CachedLogEntry)} {cache : NodeCache}, cache.Of P entries →
      (∀ e ∈ written, entries e.1 = some e.2.inner ∧ e.2.Filled P) →
      NodeCache.Of P entries (written.foldl (fun c e => c.put evict e.1 e.2) cache)
  | [], _, hc, _ => hc
  | e :: written, _, hc, hw => by
    obtain ⟨h₁, h₂⟩ := hw e List.mem_cons_self
    rw [List.foldl_cons]
    exact NodeCache.Of.putAll (hc.put h₁ h₂) fun e' he' => hw e' (List.mem_cons_of_mem _ he')

/-- **A batch succeeds**, and leaves a sound state. -/
theorem batchInsert_runs (evict : Eviction) (startVersion : ℕ) (hs : st.Sound P)
    (hptr : st.ptr = rootPtr st.history)
    {batch : List (Octets × Octets)} (hkeys : ∀ e ∈ batch, IsKey e.1)
    (hfresh : ∀ x ∈ st.history, x.position < startVersion) :
    ∃ results ptr cache store,
      (PrefixTree.batchInsert P evict startVersion st.ptr batch st.cache).Runs st.store
        (rootsFrom P st.history (insertionsFrom startVersion batch), results, ptr, cache) store ∧
      PrefixState.Sound P ⟨store, cache, some ptr,
        (insertionsFrom startVersion batch).reverse ++ st.history,
        (rootsFrom P st.history (insertionsFrom startVersion batch)).reverse ++ st.roots⟩ := by
  obtain ⟨results, written, nodes', entries', hall, hwritten, hput, hold', -, hrec'⟩ :=
    insertAll_eq evict hs.keys hkeys hs.recorded (hs.below hfresh) hs.hold
  obtain ⟨final, hfinal⟩ : ∃ final, final = written.map fun e =>
      (e.1, (nodes'.overlay e.1).getD e.2) := ⟨_, rfl⟩
  have hfinal_of : ∀ e ∈ final, (entries' e.1 = some e.2.inner ∧ e.2.Filled P) ∧
      ∃ x ∈ insertionsFrom startVersion batch, x.position = e.1 := by
    rw [hfinal]
    intro e he
    obtain ⟨e', he', rfl⟩ := List.mem_map.1 he
    obtain ⟨hw, hx⟩ := hwritten e' he'
    refine ⟨?_, hx⟩
    cases ho : nodes'.overlay e'.1 with
    | none => exact hw
    | some ce => exact hold'.overlay _ _ ho
  have hput' : Store.putAll (final.map fun e => (e.1, e.2.inner)) st.store.prefixes = entries' := by
    rw [← hput, hfinal, List.map_map]
    congr 1
    refine List.map_congr_left fun e he => ?_
    obtain ⟨⟨h₁, -⟩, -⟩ := hwritten e he
    obtain ⟨⟨h₂, -⟩, -⟩ := hfinal_of (e.1, (nodes'.overlay e.1).getD e.2)
      (hfinal ▸ List.mem_map_of_mem he)
    rw [h₁] at h₂
    exact congrArg (Prod.mk e.1) (Option.some.inj h₂).symm
  refine ⟨results, (rootPtr ((insertionsFrom startVersion batch).reverse ++ st.history)).getD 0,
    final.foldl (fun c e => c.put evict e.1 e.2) nodes'.cache, { st.store with prefixes := entries' },
    ?_, ?_⟩
  · refine (Db.runs_read (hptr ▸ hall)).bind ?_
    dsimp only
    rw [← hfinal]
    refine Db.Runs.bind (Db.runs_write _ st.store) ?_
    rw [hput']
    exact Db.runs_pure _ _
  · have hlower : ∀ x ∈ insertionsFrom startVersion batch, ∀ y ∈ st.history,
        y.position < x.position := fun x hx y hy =>
      (hfresh y hy).trans_le (mem_insertionsFrom hx).1
    have hcache : NodeCache.Of P entries' (final.foldl (fun c e => c.put evict e.1 e.2) nodes'.cache) :=
      NodeCache.Of.putAll hold'.cache fun e he => (hfinal_of e he).1
    refine ⟨fun x hx => ?_, ?_, hrec', hcache.hold hold'.leaf, fun p hp => ?_, ?_, ?_⟩
    · rcases List.mem_append.1 hx with hx | hx
      · exact hkeys _ (mem_insertionsFrom (List.mem_reverse.1 hx)).2
      · exact hs.keys x hx
    · refine List.pairwise_append.2 ⟨?_, hs.sorted, fun x hx => hlower x (List.mem_reverse.1 hx)⟩
      exact List.pairwise_reverse.2 (sorted_insertionsFrom startVersion batch)
    · rw [← hput'] at hp
      rcases putAll_ne_none hp with hp | ⟨e, he, rfl⟩
      · obtain ⟨x, hx, hpos⟩ := hs.written p hp
        exact ⟨x, List.mem_append_right _ hx, hpos⟩
      · obtain ⟨e', he', rfl⟩ := List.mem_map.1 he
        obtain ⟨-, x, hx, hpos⟩ := hfinal_of e' he'
        exact ⟨x, List.mem_append_left _ (List.mem_reverse.2 hx), hpos⟩
    · cases hh : (insertionsFrom startVersion batch).reverse ++ st.history with
      | nil => exact .inr ⟨rfl, rfl⟩
      | cons x h => exact .inl rfl
    · rw [rootsOf_append, hs.roots]

/-- From the pointer that an empty batch returns on an empty tree, no insertion
succeeds. -/
theorem batchInsert_dangling (hs : st.Sound P) (hempty : st.history = []) (hptr : st.ptr = some 0)
    {startVersion : ℕ} {batch : List (Octets × Octets)}
    {r : List Octets × List PrefixSearch × ℕ × NodeCache} {store : Store}
    (hcall : (PrefixTree.batchInsert P evict startVersion st.ptr batch st.cache).Runs st.store r store) :
    batch = [] := by
  have hnone : st.store.prefixes 0 = none := by
    by_contra hne
    obtain ⟨x, hx, -⟩ := hs.written 0 hne
    simp [hempty] at hx
  cases batch with
  | nil => rfl
  | cons e batch =>
    obtain ⟨index, commitment⟩ := e
    have hpath := insertPath_answers evict hs.hold (some 0) index
    rw [coldPath, coldSearch, hnone] at hpath
    have herr : PrefixTree.insertPath P evict st.store (some 0) index st.nodes =
      fail s!"Missing prefix entry {0}" := hpath
    have hall : PrefixTree.insertAll P evict st.store startVersion st.ptr
        ((index, commitment) :: batch) ⟨fun _ => none, st.cache⟩ =
        fail s!"Missing prefix entry {0}" := by
      unfold PrefixTree.insertAll PrefixTree.insertInternal
      rw [hptr]
      change (PrefixTree.insertPath P evict st.store (some 0) index st.nodes >>= _) >>= _ = _
      rw [herr]
      rfl
    obtain ⟨a, ha, -⟩ := Db.runs_read_bind hcall
    cases hall.symm.trans ha

theorem batchInsert_nil {startVersion : ℕ} :
    (PrefixTree.batchInsert P evict startVersion st.ptr [] st.cache).Runs st.store
      ([], [], st.ptr.getD 0, st.cache) st.store := by
  have hread : PrefixTree.insertAll P evict st.store startVersion st.ptr [] ⟨fun _ => none, st.cache⟩ =
    .ok ([], [], [], st.ptr, ⟨fun _ => none, st.cache⟩) := rfl
  exact (Db.runs_read hread).bind ((Db.runs_write _ _).bind (Db.runs_pure _ _))

/-- **Every state of a run is sound.** -/
theorem PrefixRun.sound (run : PrefixRun P st) : st.Sound P := by
  induction run with
  | start store hempty =>
    refine ⟨by simp [KeysValid], List.Pairwise.nil, ?_, NodeCache.Of.hold ?_ ?_, ?_, .inl rfl, rfl⟩
    · intro x before hs
      exact absurd hs (by simp)
    · intro _ _ h
      cases h
    · intro p entry hp
      simp [hempty] at hp
    · intro p hp
      exact absurd (hempty p) hp
  | batch run evict startVersion entries hkeys hfresh hcall ih =>
    rcases ih.ptr with hptr | ⟨hempty, hptr⟩
    · obtain ⟨results, ptr, cache, store, hruns, hsound⟩ :=
        batchInsert_runs evict startVersion ih hptr hkeys hfresh
      obtain ⟨heq, rfl⟩ := hcall.unique hruns
      obtain ⟨rfl, rfl, rfl, rfl⟩ := heq
      exact hsound
    · obtain rfl := batchInsert_dangling ih hempty hptr hcall
      obtain ⟨heq, rfl⟩ := hcall.unique batchInsert_nil
      obtain ⟨rfl, rfl, rfl, rfl⟩ := heq
      exact ⟨ih.keys, ih.sorted, ih.recorded, ih.hold, ih.written,
        .inr ⟨hempty, congrArg some (by rw [hptr]; rfl)⟩, ih.roots⟩
  | search run evict ptr index hcall ih =>
    have hans := searchForProof_answers evict ih.hold ptr index
    rw [hcall] at hans
    cases hcold : coldProof P _ ptr index with
    | error e =>
      rw [hcold] at hans
      cases hans
    | ok proof =>
      rw [hcold] at hans
      obtain ⟨nodes, heq, hold⟩ := hans
      obtain ⟨-, rfl⟩ := Prod.mk.inj (Except.ok.inj heq)
      exact { ih with hold := hold.cache.hold hold.leaf }
  | evict run cache hsub ih =>
    refine { ih with hold := NodeCache.Of.hold (fun p ce hp => ?_) ih.hold.leaf }
    rcases hsub p with h | h
    · cases h.symm.trans hp
    · exact ih.hold.cache p ce (h.symm.trans hp)

end

end KeyTransparency
