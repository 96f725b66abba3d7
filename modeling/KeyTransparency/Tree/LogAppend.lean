/-
# Appending to the log

`batch_append` keeps `Holds`, in whatever batches the leaves arrive
(`batchAppend_spec`).  Inside a batch the chunks that were touched are ahead of the
store; `CacheHolds` says what they hold meanwhile.
-/

import KeyTransparency.Tree.LogStore

namespace KeyTransparency

open LogMath InOrder MerkleLog

namespace LogTree

variable {P : Primitives} {s : Store} {old new : List Octets}

/-- The leaf hash of a log entry. -/
def entryLeaf (P : Primitives) (entry : U64 × Octets) : Octets := logLeafValue P entry.1 entry.2

/-- The timestamps and prefix roots of entries, recorded from an index on. -/
def recordEntries : ℕ → List (U64 × Octets) → Store → Store
  | _, [], s => s
  | logIndex, entry :: entries, s =>
    recordEntries (logIndex + 1) entries
      { s with
        timestamp := Function.update s.timestamp logIndex (some entry.1)
        prefixRoot := Function.update s.prefixRoot logIndex (some entry.2) }

@[simp] theorem recordEntries_log (i : ℕ) (es : List (U64 × Octets)) (s : Store) :
    (recordEntries i es s).log = s.log := by
  induction es generalizing i s with
  | nil => rfl
  | cons e es ih => rw [recordEntries, ih]

/-- The chunks a batch has touched, when the store holds the leaves `old` and the
batch has come to `new`. -/
structure CacheHolds (old new : List Octets) (chunkCache : List (ℕ × NodeChunk)) : Prop where
  extends_old : ∃ ext, new = old ++ ext
  chunk : ∀ c ∈ chunkCache, ∃ j, c.1 = node 3 j ∧ c.2.chunkRootId = node 3 j ∧
    8 * j < new.length ∧ ∀ t < 8, c.2.nodes (2 * t) = new[8 * j + t]?
  nodup : (chunkCache.map Prod.fst).Nodup
  covers : ∀ q, old.length ≤ q → q < new.length → ∃ c ∈ chunkCache, c.1 = node 3 (q / 8)

theorem lookup_eq_some_mem {α : Type} {es : List (ℕ × α)} {k : ℕ} {v : α}
    (h : es.lookup k = some v) : (k, v) ∈ es := by
  obtain ⟨l₁, l₂, rfl, -⟩ := List.lookup_eq_some_iff.1 h
  simp

/-- Where the batch has touched no chunk, the store is up to date. -/
theorem CacheHolds.getElem?_of_untouched {chunkCache : List (ℕ × NodeChunk)}
    (h : CacheHolds old new chunkCache) {j : ℕ} (hj : ∀ c ∈ chunkCache, c.1 ≠ node 3 j) {t : ℕ}
    (ht : t < 8) : new[8 * j + t]? = old[8 * j + t]? := by
  obtain ⟨ext, rfl⟩ := h.extends_old
  by_cases hlt : 8 * j + t < old.length
  · rw [List.getElem?_append_left hlt]
  · rw [List.getElem?_eq_none (Nat.not_lt.1 hlt), List.getElem?_eq_none]
    by_contra hlt'
    obtain ⟨c, hc, e⟩ := h.covers (8 * j + t) (by omega) (by omega)
    exact hj c hc (by rw [e, show (8 * j + t) / 8 = j by omega])

/-- The chunk an entry goes into, from the batch or from the store. -/
theorem CacheHolds.read_chunk {chunkCache : List (ℕ × NodeChunk)}
    (h : CacheHolds old new chunkCache) (hs : Holds s old) (j : ℕ) :
    ∃ c : NodeChunk, c.chunkRootId = node 3 j ∧ (∀ t < 8, c.nodes (2 * t) = new[8 * j + t]?) ∧
      Db.Runs (loadChunk P (node 3 j) chunkCache) s c s := by
  rw [loadChunk]
  cases hl : chunkCache.lookup (node 3 j) with
  | some c =>
    obtain ⟨j', e, hc, -, ht⟩ := h.chunk _ (lookup_eq_some_mem hl)
    obtain rfl := (node_inj e).2
    exact ⟨c, hc, ht, Db.runs_pure c s⟩
  | none =>
    have hj : ∀ c ∈ chunkCache, c.1 ≠ node 3 j := fun c hc e => by
      have := List.lookup_eq_none_iff.1 hl c hc
      simp [e] at this
    refine ⟨NodeChunk.new P (node 3 j) (s.log (node 3 j)), ?_, fun t ht => ?_,
      Db.Runs.bind (a := s.log (node 3 j)) (Db.runs_read rfl) (Db.runs_pure _ s)⟩
    · cases s.log (node 3 j) <;> rfl
    · rw [h.getElem?_of_untouched hj ht, hs.chunk]
      split_ifs with hlt
      · have hdig : ∀ l ∈ NodeChunk.chunkLeaves old j, l.length = 32 := fun l hl =>
          hs.digest l (List.mem_of_mem_drop (List.mem_of_mem_take hl))
        simp only [NodeChunk.new]
        rw [NodeChunk.recomputeIntermediates_even, NodeChunk.parseLeaves_flatten hdig ht,
          NodeChunk.getElem?_chunkLeaves ht]
        congr 1
        omega
      · rw [List.getElem?_eq_none (by omega)]
        rfl

/-- A position not yet reached has no leaf. -/
theorem getElem?_append_leaf (leaf : Octets) {q : ℕ} (hq : q ≠ new.length) :
    (new ++ [leaf])[q]? = new[q]? := by
  rcases Nat.lt_or_ge q new.length with hlt | hge
  · exact List.getElem?_append_left hlt
  · rw [List.getElem?_eq_none hge, List.getElem?_eq_none]
    simp only [List.length_append, List.length_singleton]
    omega

/-- The batch comes to one more leaf when the chunk of that leaf holds it. -/
theorem CacheHolds.insert {chunkCache : List (ℕ × NodeChunk)} (h : CacheHolds old new chunkCache)
    {leaf : Octets} {c : NodeChunk} (hc : c.chunkRootId = node 3 (new.length / 8))
    (hnodes : ∀ t < 8, c.nodes (2 * t) = (new ++ [leaf])[8 * (new.length / 8) + t]?) :
    CacheHolds old (new ++ [leaf])
      ((node 3 (new.length / 8), c) :: chunkCache.filter fun c => c.1 != node 3 (new.length / 8)) := by
  have hlen : (new ++ [leaf]).length = new.length + 1 := by simp
  obtain ⟨ext, hext⟩ := h.extends_old
  refine ⟨⟨ext ++ [leaf], by rw [hext, List.append_assoc]⟩, ?_, ?_, ?_⟩
  · intro d hd
    rcases List.mem_cons.1 hd with rfl | hd
    · exact ⟨new.length / 8, rfl, hc, by omega, hnodes⟩
    · obtain ⟨hd, hne⟩ := List.mem_filter.1 hd
      obtain ⟨j, e, hr, hlt, ht⟩ := h.chunk d hd
      have hj : j ≠ new.length / 8 := by
        rintro rfl
        simp [e] at hne
      refine ⟨j, e, hr, by omega, fun t ht' => ?_⟩
      rw [ht t ht', getElem?_append_leaf leaf (by omega)]
  · rw [List.map_cons, List.nodup_cons]
    refine ⟨fun hmem => ?_, h.nodup.sublist (List.filter_sublist.map _)⟩
    obtain ⟨d, hd, e⟩ := List.mem_map.1 hmem
    have := (List.mem_filter.1 hd).2
    simp [e] at this
  · intro q h₁ h₂
    by_cases hq : q / 8 = new.length / 8
    · exact ⟨_, List.mem_cons_self, by rw [hq]⟩
    · have hlt : q < new.length := by
        rcases Nat.lt_succ_iff_lt_or_eq.1 (hlen ▸ h₂) with h₂ | rfl
        · exact h₂
        · exact absurd rfl hq
      obtain ⟨d, hd, e⟩ := h.covers q h₁ hlt
      refine ⟨d, List.mem_cons_of_mem _ (List.mem_filter.2 ⟨hd, ?_⟩), e⟩
      simp only [e, bne_iff_ne]
      exact fun hn => hq (node_inj hn).2

/-- The store after an entry's timestamp and prefix root are recorded. -/
theorem recordEntries_singleton (i : ℕ) (entry : U64 × Octets) (s : Store) :
    recordEntries i [entry] s = { s with
      timestamp := Function.update s.timestamp i (some entry.1)
      prefixRoot := Function.update s.prefixRoot i (some entry.2) } := rfl

/-- **One entry** extends the chunk it goes into. -/
theorem appendEntry_spec {chunkCache : List (ℕ × NodeChunk)} (h : CacheHolds old new chunkCache)
    (hs : Holds s old) (entry : U64 × Octets) :
    ∃ chunkCache', CacheHolds old (new ++ [entryLeaf P entry]) chunkCache' ∧
      Db.Runs (appendEntry P new.length entry chunkCache) s chunkCache'
        (recordEntries new.length [entry] s) := by
  have hcid : chunkId (new.length * 2) = node 3 (new.length / 8) := by
    rw [show new.length * 2 = node 0 new.length by rw [node_zero]; ring, chunkId_node (by omega)]
    rfl
  obtain ⟨c, hc, hnodes, hrun⟩ := h.read_chunk (P := P) hs (new.length / 8)
  have hslot : c.slot (new.length * 2) = some (2 * (new.length % 8)) := by
    rw [show new.length * 2 = 16 * (new.length / 8) + 2 * (new.length % 8) by omega]
    exact NodeChunk.slot_eq hc (by omega)
  have hset : c.setValue (new.length * 2) (entryLeaf P entry) = .ok ⟨c.chunkRootId,
      Function.update c.nodes (2 * (new.length % 8)) (some (entryLeaf P entry))⟩ := by
    rw [NodeChunk.setValue, hslot, okOr_some, Result.ok_bind,
      ensure_of (by omega : 2 * (new.length % 8) % 2 = 0), Result.ok_bind]
    rfl
  refine ⟨_, h.insert (c := ⟨c.chunkRootId,
    Function.update c.nodes (2 * (new.length % 8)) (some (entryLeaf P entry))⟩) hc
    fun t ht => ?_, ?_⟩
  · by_cases htq : t = new.length % 8
    · subst htq
      dsimp only
      rw [Function.update_self, show 8 * (new.length / 8) + new.length % 8 = new.length by omega]
      simp
    · dsimp only
      rw [Function.update_of_ne (by omega), hnodes t ht, getElem?_append_leaf _ (by omega)]
  · rw [appendEntry]
    simp only [hcid]
    exact hrun.bind ((Db.runs_ofResult hset s).bind ((Db.runs_write _ _).bind
      ((Db.runs_write _ _).bind (Db.runs_pure _ _))))

/-- **A run of entries** extends the chunks they go into. -/
theorem appendEntries_spec {entries : List (U64 × Octets)} :
    ∀ {s : Store} {new : List Octets} {chunkCache : List (ℕ × NodeChunk)},
      CacheHolds old new chunkCache → Holds s old →
      ∃ chunkCache', CacheHolds old (new ++ entries.map (entryLeaf P)) chunkCache' ∧
        Db.Runs (appendEntries P new.length entries chunkCache) s chunkCache'
          (recordEntries new.length entries s) := by
  induction entries with
  | nil =>
    intro s new chunkCache h _
    exact ⟨chunkCache, by simpa using h, Db.runs_pure _ _⟩
  | cons entry entries ih =>
    intro s new chunkCache h hs
    obtain ⟨cache₁, h₁, hrun₁⟩ := appendEntry_spec (P := P) h hs entry
    have hs₁ : Holds (recordEntries new.length [entry] s) old := ⟨hs.digest, hs.chunk, hs.high⟩
    obtain ⟨cache₂, h₂, hrun₂⟩ := ih h₁ hs₁
    rw [List.length_append, List.length_singleton] at hrun₂
    exact ⟨cache₂, by simpa using h₂, hrun₁.bind hrun₂⟩

/-- The store after a batch: its entries recorded, its chunks written. -/
theorem CacheHolds.holds_put {chunkCache : List (ℕ × NodeChunk)}
    (h : CacheHolds old new chunkCache) (hs : Holds s old) (hnew : ∀ l ∈ new, l.length = 32) :
    Holds { s with log := Store.putAll (chunkCache.map fun c =>
      ((c.2.recompute P).chunkRootId, (c.2.recompute P).serialize)) s.log } new := by
  have hkey : ∀ c ∈ chunkCache, (c.2.recompute P).chunkRootId = c.1 := fun c hc => by
    obtain ⟨j, e, hr, -⟩ := h.chunk c hc
    exact hr.trans e.symm
  refine ⟨hnew, fun j => ?_, fun k i hk => ?_⟩
  · by_cases hj : ∃ c ∈ chunkCache, c.1 = node 3 j
    · obtain ⟨c, hc, e⟩ := hj
      obtain ⟨j', e', hr, hlt, ht⟩ := h.chunk c hc
      obtain rfl := (node_inj (e.symm.trans e')).2
      have hn : ∀ t < 8, (c.2.recompute P).nodes (2 * t) = (NodeChunk.chunkLeaves new j)[t]? := by
        intro t ht'
        simp only [NodeChunk.recompute]
        rw [NodeChunk.recomputeIntermediates_even, ht t ht', NodeChunk.getElem?_chunkLeaves ht']
        congr 1
        omega
      have hser : (c.2.recompute P).serialize = (NodeChunk.chunkLeaves new j).flatten := by
        rw [NodeChunk.serialize, ← Nat.mul_zero 2, NodeChunk.serializeFrom_eq hn 8 0 rfl,
          NodeChunk.chunkLeaves, List.take_take, List.drop_zero, Nat.min_self]
      rw [if_pos hlt]
      refine Store.putAll_of_mem ?_ (List.mem_map.2 ⟨c, hc, by rw [hkey c hc, e, hser]⟩)
      rw [List.map_map]
      convert h.nodup using 1
      exact List.map_congr_left hkey
    · push Not at hj
      have hun : ∀ t < 8, new[8 * j + t]? = old[8 * j + t]? := fun t ht =>
        h.getElem?_of_untouched hj ht
      have hcl : NodeChunk.chunkLeaves new j = NodeChunk.chunkLeaves old j := by
        refine List.ext_getElem? fun t => ?_
        by_cases ht : t < 8
        · rw [NodeChunk.getElem?_chunkLeaves ht, NodeChunk.getElem?_chunkLeaves ht,
            show t + j * 2 ^ 3 = 8 * j + t by ring, hun t ht]
        · rw [List.getElem?_eq_none, List.getElem?_eq_none] <;>
            · rw [NodeChunk.chunkLeaves, List.length_take]
              omega
      have hlt : 8 * j < new.length ↔ 8 * j < old.length := by
        have := hun 0 (by omega)
        rw [Nat.add_zero] at this
        constructor <;> intro hlt <;> by_contra hge
        · rw [List.getElem?_eq_none (Nat.not_lt.1 hge), List.getElem?_eq_getElem hlt] at this
          simp at this
        · rw [List.getElem?_eq_none (Nat.not_lt.1 hge), List.getElem?_eq_getElem hlt] at this
          simp at this
      refine (Store.putAll_of_not_mem fun e he => ?_).trans ((hs.chunk j).trans ?_)
      · obtain ⟨c, hc, rfl⟩ := List.mem_map.1 he
        rw [hkey c hc]
        exact hj c hc
      · simp only [hlt, hcl]
  · refine (Store.putAll_of_not_mem fun e he => ?_).trans (hs.high k i hk)
    obtain ⟨c, hc, rfl⟩ := List.mem_map.1 he
    obtain ⟨j, e, -⟩ := h.chunk c hc
    rw [hkey c hc, e]
    exact fun hn => absurd (node_inj hn).1 (by omega)

/-- The store after `batch_append`. -/
def Appended (P : Primitives) (old : List Octets) (entries : List (U64 × Octets)) (s s' : Store) :
    Prop :=
  Holds s' (old ++ entries.map (entryLeaf P)) ∧
    s' = { recordEntries old.length entries s with log := s'.log }

/-- A batch writes chunks of the lowest levels only. -/
theorem CacheHolds.put_other {chunkCache : List (ℕ × NodeChunk)} (h : CacheHolds old new chunkCache)
    (table : ℕ → Option Octets) {id : ℕ} (hid : ∀ j, id ≠ node 3 j) :
    Store.putAll (chunkCache.map fun c => ((c.2.recompute P).chunkRootId, (c.2.recompute P).serialize))
      table id = table id := by
  refine Store.putAll_of_not_mem fun e he => ?_
  obtain ⟨c, hc, rfl⟩ := List.mem_map.1 he
  obtain ⟨j, -, hroot, -⟩ := h.chunk c hc
  exact fun heq => hid j (heq.symm.trans hroot)

/-- **Appending** extends what the store holds, whether or not a root can be read. -/
theorem batchAppend_appended (hs : Holds s old) (entries : List (U64 × Octets)) :
    ∃ s', Appended P old entries s s' ∧ (∀ id, (∀ j, id ≠ node 3 j) → s'.log id = s.log id) ∧
      batchAppend P old.length entries ⟨s, none⟩ =
        (getRoot P s' (old.length + entries.length), ⟨s', none⟩) := by
  have h₀ : CacheHolds old old [] :=
    ⟨⟨[], (List.append_nil _).symm⟩, by simp, by simp, fun q h₁ h₂ => by omega⟩
  obtain ⟨cache, hc, hrun⟩ := @appendEntries_spec P old entries s old [] h₀ hs
  have hs₁ : Holds (recordEntries old.length entries s) old :=
    ⟨hs.digest, by simpa using hs.chunk, by simpa using hs.high⟩
  have hdig : ∀ l ∈ old ++ entries.map (entryLeaf P), l.length = 32 := by
    intro l hl
    rcases List.mem_append.1 hl with hl | hl
    · exact hs.digest l hl
    · obtain ⟨e, -, rfl⟩ := List.mem_map.1 hl
      exact length_logLeafValue P _ _
  refine ⟨_, ⟨hc.holds_put (P := P) hs₁ hdig, rfl⟩, fun id hid => ?_, ?_⟩
  · exact (hc.put_other _ hid).trans (congrFun (recordEntries_log old.length entries s) id)
  rw [batchAppend, Db.bind_apply, hrun]
  rfl

/-- **Appending** returns the new root. -/
theorem batchAppend_spec (hs : Holds s old) {entries : List (U64 × Octets)}
    (hn : old.length + entries.length ≤ 2 ^ 62) :
    ∃ s', Appended P old entries s s' ∧
      Db.Runs (batchAppend P old.length entries) s
        (logRoot P (old ++ entries.map (entryLeaf P))) s' := by
  obtain ⟨s', happended, -, hrun⟩ := batchAppend_appended (P := P) hs entries
  have hroot := getRoot_current (P := P) happended.1 (by simpa using hn)
  rw [List.length_append, List.length_map] at hroot
  exact ⟨s', happended, by rw [Db.Runs, hrun, hroot]⟩

/-- The stores whose log was filled by `batch_append`, in any batches; what it does
to the other tables, and what else happens to them, is left open. -/
inductive Filled (P : Primitives) : Store → List Octets → Prop
  | empty {s : Store} (h : ∀ id, s.log id = none) : Filled P s []
  | append {s s' : Store} {leaves : List Octets} {entries : List (U64 × Octets)} {r : Octets}
      (h : Filled P s leaves) (hrun : Db.Runs (batchAppend P leaves.length entries) s r s') :
      Filled P s' (leaves ++ entries.map (entryLeaf P))
  | other {s s' : Store} {leaves : List Octets} (h : Filled P s leaves) (hlog : s'.log = s.log) :
      Filled P s' leaves

/-- **Every partition into batches** gives a store that holds the leaves. -/
theorem Filled.holds {s : Store} {leaves : List Octets} (h : Filled P s leaves)
    (hn : leaves.length ≤ 2 ^ 62) : Holds s leaves := by
  induction h with
  | empty h => exact ⟨by simp, fun j => by simp [h], fun k i _ => h _⟩
  | append h hrun ih =>
    rw [List.length_append, List.length_map] at hn
    obtain ⟨s', hs', hrun'⟩ := batchAppend_spec (P := P) (ih (by omega)) hn
    obtain rfl : _ = s' := congrArg (fun r => r.2.store) (hrun.symm.trans hrun')
    exact hs'.1
  | other h hlog ih => exact ⟨(ih hn).digest, by rw [hlog]; exact (ih hn).chunk, by
      rw [hlog]
      exact (ih hn).high⟩

end LogTree

/-- Four entries, appended in one batch. -/
def fourEntries : List (U64 × Octets) :=
  [(1, Octets.zeros 32), (2, Octets.zeros 32), (3, Octets.zeros 32), (4, Octets.zeros 32)]

/-- The store after these entries. -/
theorem exists_fourEntries_store : ∃ r s,
    Db.Runs (LogTree.batchAppend Primitives.ideal 0 fourEntries) Store.empty r s ∧
      LogTree.Filled Primitives.ideal s (fourEntries.map (LogTree.entryLeaf Primitives.ideal)) := by
  have hempty : LogTree.Filled Primitives.ideal Store.empty [] := .empty fun _ => rfl
  obtain ⟨s, -, hrun⟩ := @LogTree.batchAppend_spec Primitives.ideal _ _
    (hempty.holds (by simp)) fourEntries (by decide)
  exact ⟨_, s, hrun, .append hempty hrun⟩

end KeyTransparency
