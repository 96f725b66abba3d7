/-
# A batch commits

On a disk that does not fail, and with keys and a clock to sign with, `apply_batch`
succeeds: it assigns the versions that its labels' histories call for (`assigned`) and
turns the store of a log into that of the log with one more epoch (`applyBatch_sound`).
-/

import KeyTransparency.Tree.Server

namespace KeyTransparency

section

variable {P : Primitives} {epochs : List Epoch} {e : Epoch} {t : Tree}

/-! ### The prefix tree of a server -/

theorem mem_insertionsOf {x : Insertion} (hx : x ∈ insertionsOf epochs) :
    x.position < (updatesOf epochs).length ∧
      ∃ update ∈ updatesOf epochs, update.entry = (x.key, x.commitment) := by
  have key : ∀ (entries : List (Octets × Octets)) version, x ∈ insertionsFrom version entries →
      x.position < version + entries.length := by
    intro entries
    induction entries with
    | nil => intro version h; cases h
    | cons entry entries ih =>
      intro version h
      rw [List.length_cons]
      rcases List.mem_cons.1 h with rfl | h
      · dsimp only
        omega
      · have := ih _ h
        omega
  have hx' := List.mem_reverse.1 hx
  have h₁ := key _ _ hx'
  rw [List.length_map, Nat.zero_add] at h₁
  exact ⟨h₁, List.mem_map.1 (mem_insertionsFrom hx').2⟩

namespace Tree.Sound

theorem keysValid (hs : t.Sound P epochs) : KeysValid (insertionsOf epochs) := by
  intro x hx
  obtain ⟨-, update, hmem, heq⟩ := mem_insertionsOf hx
  have hkey := hs.keys update hmem
  rwa [show update.index = x.key from congrArg Prod.fst heq] at hkey

theorem leaf (hs : t.Sound P epochs) {p : ℕ} {entry : LogEntry}
    (hp : t.store.prefixes p = some entry) : entry.leaf.isSome := by
  obtain ⟨x, hx, rfl⟩ := hs.written p (by rw [hp]; simp)
  obtain ⟨newer, before, heq⟩ := List.append_of_mem hx
  obtain ⟨entry', h₁, h₂⟩ := hs.recorded x before (heq ▸ List.suffix_append _ _)
  obtain rfl := Option.some.inj (hp.symm.trans h₁)
  obtain ⟨ctr, hctr⟩ := h₂.leaf
  rw [hctr]
  rfl

/-- The prefix tree of a server, its cache left out. -/
def prefixState (P : Primitives) (t : Tree) (epochs : List Epoch) : PrefixState :=
  ⟨t.store, fun _ => none, rootPtr (insertionsOf epochs), insertionsOf epochs,
    rootsOf P (insertionsOf epochs)⟩

theorem prefixState_sound (hs : t.Sound P epochs) : (prefixState P t epochs).Sound P where
  keys := hs.keysValid
  sorted := List.pairwise_reverse.2 (sorted_insertionsFrom _ _)
  recorded := hs.recorded
  hold := NodeCache.Of.hold (fun _ _ h => by cases h) fun _ _ => hs.leaf
  written := hs.written
  ptr := .inl rfl
  roots := rfl

theorem fresh (hs : t.Sound P epochs) :
    ∀ x ∈ insertionsOf epochs, x.position < LogTree.getNextPrefixVersion t.store := by
  intro x hx
  rw [hs.next]
  exact (mem_insertionsOf hx).1

end Tree.Sound

theorem rootPtr_insertionsOf (epochs : List Epoch) (hne : updatesOf epochs ≠ []) :
    rootPtr (insertionsOf epochs) = some ((updatesOf epochs).length - 1) := by
  have key : ∀ (entries : List (Octets × Octets)) version, entries ≠ [] →
      rootPtr (insertionsFrom version entries).reverse = some (version + entries.length - 1) := by
    intro entries
    induction entries with
    | nil => intro version h; exact absurd rfl h
    | cons entry entries ih =>
      intro version _
      rw [insertionsFrom, List.reverse_cons]
      cases entries with
      | nil => rfl
      | cons entry' entries =>
        have h := ih (version + 1) (by simp)
        rw [rootPtr, List.head?_append_of_ne_nil _ (by simp [insertionsFrom])]
        rw [rootPtr] at h
        rw [h]
        simp only [List.length_cons]
        congr 1
        omega
  rw [insertionsOf, key _ _ (by simpa using hne), List.length_map, Nat.zero_add]

theorem updatesOf_ne_nil (hc : ∀ e ∈ epochs, e.updates ≠ []) (hne : epochs ≠ []) :
    updatesOf epochs ≠ [] := by
  cases epochs with
  | nil => exact absurd rfl hne
  | cons e epochs =>
    have := hc e List.mem_cons_self
    simp [updatesOf, this]

/-- The number of updates up to an entry. -/
theorem updatesOf_take_lt (hc : ∀ e ∈ epochs, e.updates ≠ []) {i j : ℕ} (hij : i < j)
    (hj : j ≤ epochs.length) :
    (updatesOf (epochs.take i)).length < (updatesOf (epochs.take j)).length := by
  have hsplit : epochs.take j = epochs.take i ++ (epochs.take j).drop i := by
    have h := List.take_append_drop i (epochs.take j)
    rw [List.take_take, Nat.min_eq_left hij.le] at h
    exact h.symm
  have hne : updatesOf ((epochs.take j).drop i) ≠ [] := by
    refine updatesOf_ne_nil (fun e he => hc e (List.mem_of_mem_take (List.mem_of_mem_drop he))) ?_
    rw [Ne, ← List.length_eq_zero_iff, List.length_drop, List.length_take]
    omega
  have hpos := List.length_pos_iff.2 hne
  have happ : updatesOf (epochs.take j) =
      updatesOf (epochs.take i) ++ updatesOf ((epochs.take j).drop i) := by
    rw [hsplit, updatesOf, List.flatMap_append, ← hsplit]
    rfl
  rw [happ, List.length_append]
  exact Nat.lt_add_of_pos_right hpos

/-- **The pointers increase** from entry to entry. -/
theorem Tree.Sound.pointers (hs : t.Sound P epochs) {i j : ℕ} (hij : i < j) (hj : j < t.treeSize) :
    ∃ p q, t.store.prefixPtr i = some p ∧ t.store.prefixPtr j = some q ∧ p < q := by
  rw [hs.size] at hj
  have h₀ := updatesOf_take_lt hs.committed (show 0 < i + 1 by omega) (by omega)
  have h₁ := updatesOf_take_lt hs.committed (show i + 1 < j + 1 by omega) (by omega)
  exact ⟨_, _, hs.ptr i (by omega), hs.ptr j hj, by omega⟩

/-! ### The tables of a batch -/

/-- Searches as a batch returns them: at consecutive places. -/
def Placed : ℕ → List PrefixSearch → Prop
  | _, [] => True
  | version, result :: found => result.logPosition = version ∧ Placed (version + 1) found

theorem insertAll_placed {evict : Eviction} {s : Store} :
    ∀ {batch : List (Octets × Octets)} {version : ℕ} {ptr : Option ℕ} {nodes : Nodes}
      {r : List Octets × List PrefixSearch × List (ℕ × CachedLogEntry) × Option ℕ × Nodes},
      PrefixTree.insertAll P evict s version ptr batch nodes = .ok r →
      Placed version r.2.1 ∧ r.2.1.length = batch.length
  | [], _, _, _, _, h => by
    obtain rfl := Except.ok.inj h
    exact ⟨trivial, rfl⟩
  | (index, commitment) :: batch, version, ptr, nodes, r, h => by
    unfold PrefixTree.insertAll at h
    obtain ⟨⟨root, found, ce, nodes₁⟩, h₁, h⟩ := Result.bind_eq_ok.1 h
    obtain ⟨r', h₂, h⟩ := Result.bind_eq_ok.1 h
    obtain rfl := Except.ok.inj h
    obtain ⟨ih, hlen⟩ := insertAll_placed h₂
    unfold PrefixTree.insertInternal at h₁
    obtain ⟨path, -, h₁⟩ := Result.bind_eq_ok.1 h₁
    obtain ⟨-, h₁⟩ := Prod.mk.inj (Except.ok.inj h₁)
    obtain ⟨rfl, -⟩ := Prod.mk.inj h₁
    exact ⟨⟨rfl, ih⟩, by simp [hlen]⟩

theorem batchInsert_placed {evict : Eviction} {s s' : Store} {version : ℕ} {ptr : Option ℕ}
    {batch : List (Octets × Octets)} {cache : NodeCache}
    {r : List Octets × List PrefixSearch × ℕ × NodeCache}
    (h : (PrefixTree.batchInsert P evict version ptr batch cache).Runs s r s') :
    (Placed version r.2.1 ∧ r.2.1.length = batch.length) ∧
      s' = { s with prefixes := s'.prefixes } := by
  obtain ⟨a, ha, h⟩ := Db.runs_read_bind h
  obtain ⟨heq, rfl⟩ := h.unique ((Db.runs_write _ _).bind (Db.runs_pure _ _))
  rw [heq]
  exact ⟨insertAll_placed ha, rfl⟩

/-- A table filled from a version on, one row for each search. -/
theorem putAll_placed {α β : Type} {f : β → α} :
    ∀ {found : List PrefixSearch} {version : ℕ} {rows : List β} (table : ℕ → Option α),
      Placed version found → found.length = rows.length →
      ∀ p, Store.putAll ((rows.zip found).map fun e => (e.2.logPosition, f e.1)) table p =
        if version ≤ p ∧ p < version + rows.length then (rows[p - version]?).map f else table p
  | [], version, rows, table, _, hlen, p => by
    obtain rfl := List.length_eq_zero_iff.1 hlen.symm
    rw [if_neg (by simp)]
    rfl
  | result :: found, version, [], table, _, hlen, p => by simp at hlen
  | result :: found, version, row :: rows, table, hpl, hlen, p => by
    obtain ⟨hpos, hpl⟩ := hpl
    have ih := fun table => putAll_placed (f := f) table hpl (Nat.succ.inj hlen) p
    rw [List.zip_cons_cons, List.map_cons, Store.putAll, List.foldl_cons, ← Store.putAll, hpos, ih,
      List.length_cons]
    rcases Nat.lt_trichotomy p version with hlt | rfl | hgt
    · rw [if_neg (by omega), if_neg (by omega), Function.update_of_ne (by omega)]
    · rw [if_neg (by omega), if_pos (by omega), Function.update_self, Nat.sub_self]
      rfl
    · rw [Function.update_of_ne (by omega), show p - version = p - (version + 1) + 1 by omega,
        List.getElem?_cons_succ]
      simp only [show (version + 1 ≤ p ∧ p < version + 1 + rows.length) ↔
        (version ≤ p ∧ p < version + (rows.length + 1)) by omega]

theorem putHistoryBatch_placed (label : Octets) :
    ∀ {found : List PrefixSearch} {version : ℕ} {valid : List PreUpdateData}
      (table : Octets → List (ℕ × ℕ)), Placed version found → found.length = valid.length →
      Store.putHistoryBatch (Tree.historyBatch valid found) table label =
        table label ++ historyFrom label version valid
  | [], version, valid, table, _, hlen => by
    obtain rfl := List.length_eq_zero_iff.1 hlen.symm
    exact (List.append_nil _).symm
  | result :: found, version, [], table, _, hlen => by simp at hlen
  | result :: found, version, update :: valid, table, hpl, hlen => by
    obtain ⟨hpos, hpl⟩ := hpl
    have ih := fun table => putHistoryBatch_placed label table hpl (Nat.succ.inj hlen)
    rw [Tree.historyBatch, List.zip_cons_cons, List.map_cons, Store.putHistoryBatch, List.foldl_cons,
      ← Store.putHistoryBatch, ← Tree.historyBatch, hpos, ih, historyFrom]
    split_ifs with hl
    · rw [hl, Function.update_self, List.append_assoc]
      rfl
    · rw [Function.update_of_ne (Ne.symm hl)]

/-! ### The audit record -/

theorem searchForProof_ends {x : Insertion} {before : List Insertion} {s : Store} {key : Octets}
    (evict : Eviction) (hk : KeysValid (x :: before)) (hkey : IsKey key)
    (hrec : Recorded P (x :: before) s.prefixes)
    (hleaf : ∀ p entry, s.prefixes p = some entry → entry.leaf.isSome) :
    ∃ searchEnd r nodes, PrefixTree.searchForProof P evict s x.position key Nodes.cold = .ok (r, nodes) ∧
      EndsAs P (x :: before) key searchEnd ∧ searchEnd.proof = .ok r := by
  obtain ⟨searchEnd, hcold, hends⟩ := coldSearch_ends (P := P) hk hkey hrec
  have hproof : ∃ r, searchEnd.proof = .ok r := by
    cases searchEnd with
    | found entry =>
      obtain ⟨y, ctr, hl, -⟩ := hends
      exact ⟨_, by rw [PrefixTree.SearchEnd.proof, hl]⟩
    | failed copath entry =>
      obtain ⟨-, -, -, -, y, ctr, -, -, hl⟩ := hends
      exact ⟨_, by rw [PrefixTree.SearchEnd.proof, hl]⟩
  obtain ⟨r, hr⟩ := hproof
  have hold : Nodes.Hold P s s.prefixes Nodes.cold :=
    NodeCache.Of.hold (fun _ _ h => by cases h) hleaf
  have hans := searchForProof_answers evict hold x.position key
  rw [coldProof, hcold, Result.ok_bind, hr] at hans
  obtain ⟨nodes, h, -⟩ := hans
  exact ⟨searchEnd, r, nodes, h, hends, hr⟩

/-- **The record of a batch** is made, and is one for the insertions before it. -/
theorem auditorUpdate_for {before : List Insertion} {s : Store} {updates : List PreUpdateData}
    (timestamp : U64) (hk : KeysValid before) (hkeys : ∀ u ∈ updates, IsKey u.index)
    (hrec : Recorded P before s.prefixes)
    (hleaf : ∀ p entry, s.prefixes p = some entry → entry.leaf.isSome) :
    ∃ record, Tree.auditorUpdate P s (rootPtr before) (auditKeys updates) timestamp = .ok record ∧
      AuditRecordFor P before ⟨timestamp, updates⟩ record := by
  cases before with
  | nil => exact ⟨_, rfl, rfl⟩
  | cons x before =>
    have hsearch : ∀ key ∈ auditKeys updates, ∃ e : (Octets × Octets) × ProofResult,
        (do let r ← PrefixTree.searchForProof P Tree.dropAll s x.position key.1 Nodes.cold
            return (key, r.1)) = Except.ok e ∧
          (e.1 = key ∧ ∃ searchEnd, EndsAs P (x :: before) e.1.1 searchEnd ∧
            searchEnd.proof = .ok e.2) := by
      intro key hkey
      obtain ⟨u, hu, rfl⟩ := List.mem_map.1 (List.mem_mergeSort.1 hkey)
      obtain ⟨searchEnd, r, nodes, h, hends, hr⟩ :=
        searchForProof_ends Tree.dropAll hk (hkeys u hu) hrec hleaf
      refine ⟨(u.entry, r), ?_, rfl, searchEnd, hends, hr⟩
      rw [show u.entry.1 = u.index from rfl, h]
      rfl
    obtain ⟨found, hrun, hfound⟩ := Result.exists_mapM_eq_ok hsearch
    have hfst : found.map Prod.fst = auditKeys updates := by
      refine List.forall₂_eq_eq_eq ▸ List.forall₂_map_left_iff.2 ?_
      exact hfound.flip.imp fun _ _ h => h.1
    refine ⟨auditRecord timestamp found, ?_, found, hfst, rfl, fun f hf => ?_⟩
    · rw [rootPtr, List.head?_cons, Option.map_some, Tree.auditorUpdate, hrun, Result.ok_bind]
      simp only [auditRecord, ← hfst, List.map_map]
      rfl
    · obtain ⟨i, hi, rfl⟩ := List.mem_iff_getElem.1 hf
      have h := List.Forall₂.get hfound (by rw [hfound.length_eq]; exact hi) hi
      exact h.2

/-! ### Signing -/

/-- The configuration of a server can be serialized, so that it can sign heads. -/
def Signs (P : Primitives) (config : PrivateConfig) : Prop :=
  ∃ c, serializeConfiguration P config
    (if config.mode = deploymentModeThirdPartyAuditing then config.auditorKeys.head? else none) = .ok c

theorem signHead_eq {config : PrivateConfig} (h : Signs P config) (n : ℕ) (timestamp : U64)
    {root : Octets} (hroot : root.length = 32) :
    ∃ signature, Tree.signHead P config n timestamp root = .ok ⟨n, asI64 timestamp, [signature]⟩ := by
  obtain ⟨c, hc⟩ := h
  unfold Tree.signHead constructTreeHeadTbs treeHeadTbs
  dsimp only
  rw [hc, Result.ok_bind, ensure_of hroot]
  exact ⟨_, rfl⟩

/-! ### Committing -/

theorem Tree.afterRefresh_config (now : Option U64) : (t.afterRefresh none now).2.config = t.config := by
  unfold Tree.afterRefresh
  rcases Tree.refreshHeadTimestamp t now ⟨t.store, none⟩ with ⟨_ | _, _⟩ <;> rfl

theorem Holds.congr {s s' : Store} {leaves : List Octets} (h : Holds s leaves)
    (hlog : s'.log = s.log) : Holds s' leaves :=
  ⟨h.digest, by rw [hlog]; exact h.chunk, by rw [hlog]; exact h.high⟩

theorem rootsFrom_getLast? :
    ∀ (before : List Insertion) {xs : List Insertion}, xs ≠ [] → (rootsFrom P before xs).getLast? =
      some (prefixRoot P (commitmentsOf (xs.reverse ++ before)))
  | _, [], h => absurd rfl h
  | _, [x], _ => rfl
  | before, x :: y :: xs, _ => by
    have ih := rootsFrom_getLast? (x :: before) (List.cons_ne_nil y xs)
    rw [rootsFrom]
    rw [rootsFrom] at ih ⊢
    rw [List.getLast?_cons_cons, ih, List.reverse_cons, List.reverse_cons, List.reverse_cons,
      List.append_assoc, List.append_assoc]
    simp

/-- The store after a commit, given what its batch made. -/
def committedStore (s : Store) (n : ℕ) (entry : U64 × Octets) (prefixes : ℕ → Option LogEntry)
    (ptr : ℕ) (log : ℕ → Option Octets) (record : AuditorUpdate) (valid : List PreUpdateData)
    (found : List PrefixSearch) (th : TreeHead) : Store where
  log := log
  prefixes := prefixes
  value := Store.putAll (Tree.valueBatch valid found) s.value
  opening := Store.putAll (Tree.openingBatch valid found) s.opening
  head := some th
  nextPrefixVersion := some (ptr + 1)
  timestamp := Function.update s.timestamp n (some entry.1)
  prefixRoot := Function.update s.prefixRoot n (some entry.2)
  prefixPtr := Function.update s.prefixPtr n (some ptr)
  history := Store.putHistoryBatch (Tree.historyBatch valid found) s.history
  auditBlob := Function.update s.auditBlob n (some record)

namespace Tree.Sound

/-- The pointer that a batch starts from. -/
theorem runs_currentLogPtr (hs : t.Sound P epochs) :
    Db.Runs (Tree.currentLogPtr t.treeSize) t.store (rootPtr (insertionsOf epochs)) t.store := by
  unfold Tree.currentLogPtr
  rcases Nat.eq_zero_or_pos t.treeSize with h | h
  · rw [if_neg (by omega)]
    have hnil : epochs = [] := List.length_eq_zero_iff.1 (hs.size.symm.trans h)
    rw [hnil]
    exact Db.runs_pure _ _
  · have hlen := hs.size
    have hne : epochs ≠ [] := List.length_pos_iff.1 (by omega)
    have hptr := hs.ptr (t.treeSize - 1) (by omega)
    rw [show t.treeSize - 1 + 1 = epochs.length by omega, List.take_length] at hptr
    rw [if_pos h, rootPtr_insertionsOf epochs (updatesOf_ne_nil hs.committed hne)]
    exact Db.runs_read (by rw [LogTree.getPrefixPtr, hptr]; rfl)

/-- **A batch commits**, and its store is the one `committedStore` describes. -/
theorem runs_commit (hs : t.Sound P epochs) (hsign : Signs P t.config)
    (hn : epochs.length + 1 ≤ 2 ^ 62) (now : U64) (slots : List (Result PreUpdateData))
    {valid : List PreUpdateData} (hne : valid ≠ []) (hkeys : ∀ u ∈ valid, IsKey u.index) :
    ∃ prefixes ptr log record found signature,
      rootPtr (insertionsOf (epochs ++ [⟨now, valid⟩])) = some ptr ∧
      Recorded P (insertionsOf (epochs ++ [⟨now, valid⟩])) prefixes ∧
      (∀ p, prefixes p ≠ none → ∃ x ∈ insertionsOf (epochs ++ [⟨now, valid⟩]), x.position = p) ∧
      Holds { t.store with log := log } (leavesOf P (epochs ++ [⟨now, valid⟩])) ∧
      AuditRecordFor P (insertionsOf epochs) ⟨now, valid⟩ record ∧
      Placed (updatesOf epochs).length found ∧ found.length = valid.length ∧
      Tree.signHead P t.config (epochs.length + 1) now
          (logRoot P (leavesOf P (epochs ++ [⟨now, valid⟩]))) =
        .ok ⟨epochs.length + 1, asI64 now, [signature]⟩ ∧
      (Tree.commitUpdates P t (some now) slots valid).Runs t.store
        (Tree.fillSlots (Tree.getFullTreeHead
            { t with latest := some ⟨epochs.length + 1, asI64 now, [signature]⟩ } none) slots found,
          ⟨epochs.length + 1, asI64 now, [signature]⟩)
        (committedStore t.store epochs.length (lastEntry P epochs ⟨now, valid⟩) prefixes ptr log record
          valid found ⟨epochs.length + 1, asI64 now, [signature]⟩) := by
  obtain ⟨e, he⟩ : ∃ e : Epoch, e = ⟨now, valid⟩ := ⟨_, rfl⟩
  rw [← he]
  have hval : e.updates = valid := by rw [he]
  obtain ⟨record, hrecord, hfor⟩ := auditorUpdate_for (P := P) now hs.keysValid hkeys
    hs.recorded fun _ _ => hs.leaf
  have hentries : ∀ b ∈ valid.map PreUpdateData.entry, IsKey b.1 := fun b hb => by
    obtain ⟨u, hu, rfl⟩ := List.mem_map.1 hb
    exact hkeys u hu
  obtain ⟨found, ptr, cache, s₁, hbatch, hsound⟩ := batchInsert_runs (P := P) Tree.dropAll
    (updatesOf epochs).length hs.prefixState_sound rfl hentries fun x hx => (mem_insertionsOf hx).1
  obtain ⟨⟨hplaced, hlen⟩, hs₁⟩ := batchInsert_placed hbatch
  obtain ⟨prefixes, rfl⟩ : ∃ prefixes, s₁ = { t.store with prefixes } := ⟨_, hs₁⟩
  have hins : insertionsOf (epochs ++ [e]) =
      (insertionsFrom (updatesOf epochs).length (valid.map PreUpdateData.entry)).reverse ++
        insertionsOf epochs := by
    rw [insertionsOf_append, hval]
  have hnew : insertionsFrom (updatesOf epochs).length (valid.map PreUpdateData.entry) ≠ [] := by
    rw [← List.length_pos_iff, length_insertionsFrom, List.length_map, List.length_pos_iff]
    exact hne
  have hptr : rootPtr (insertionsOf (epochs ++ [e])) = some ptr := by
    rcases hsound.ptr with h | ⟨h, -⟩
    · rw [hins]
      exact h.symm
    · have h := congrArg List.length h
      simp only [List.length_append, List.length_reverse, List.length_nil] at h
      exact absurd (List.length_eq_zero_iff.1 (by omega)) hnew
  have hlast : Tree.lastRoot (rootsFrom P (insertionsOf epochs) (insertionsFrom
      (updatesOf epochs).length (valid.map PreUpdateData.entry))) = .ok (rootAfter P (epochs ++ [e])) := by
    rw [Tree.lastRoot, rootsFrom_getLast? _ hnew, ← hins]
    rfl
  have hlen' : found.length = valid.length := by rw [hlen, List.length_map]
  -- the log is appended to in the store that the prefix tree's tables were written to
  have hholds : Holds { t.store with
      prefixes
      prefixPtr := Function.update t.store.prefixPtr t.treeSize (some ptr)
      nextPrefixVersion := some (ptr + 1) } (leavesOf P epochs) := hs.log.congr rfl
  have hlen₁ : (leavesOf P epochs).length + [lastEntry P epochs e].length ≤ 2 ^ 62 := by
    simpa using hn
  obtain ⟨s₃, ⟨hholds', hs₃⟩, happend⟩ := LogTree.batchAppend_spec (P := P) hholds hlen₁
  rw [List.map_singleton, ← leavesOf_append] at hholds' happend
  rw [length_leavesOf, LogTree.recordEntries_singleton] at hs₃
  rw [length_leavesOf] at happend
  obtain ⟨log, rfl⟩ : ∃ log, s₃ = { t.store with
      prefixes
      prefixPtr := Function.update t.store.prefixPtr t.treeSize (some ptr)
      nextPrefixVersion := some (ptr + 1)
      timestamp := Function.update t.store.timestamp epochs.length (some (lastEntry P epochs e).1)
      prefixRoot := Function.update t.store.prefixRoot epochs.length (some (lastEntry P epochs e).2)
      log } := ⟨_, hs₃⟩
  obtain ⟨signature, hhead⟩ := signHead_eq hsign (epochs.length + 1) now
    (length_logRoot hholds'.digest)
  refine ⟨prefixes, ptr, log, record, found, signature, hptr, by rw [hins]; exact hsound.recorded,
    fun p hp => by rw [hins]; exact hsound.written p hp, hholds'.congr rfl, he ▸ hfor, hplaced, hlen',
    hhead, ?_⟩
  have hnext : Db.Runs (Db.read fun s => .ok (LogTree.getNextPrefixVersion s)) t.store
      (updatesOf epochs).length t.store := Db.runs_read (by rw [hs.next])
  unfold Tree.commitUpdates
  refine (Db.runs_ofResult rfl _).bind (hnext.bind
    (hs.runs_currentLogPtr.bind ((Db.runs_read hrecord).bind (hbatch.bind ?_))))
  refine (Db.runs_write _ _).bind ((Db.runs_write _ _).bind ((Db.runs_ofResult hlast _).bind ?_))
  have hentry : (now, rootAfter P (epochs ++ [e])) = lastEntry P epochs e := by rw [he]; rfl
  rw [hentry]
  rw [hs.size] at happend ⊢
  refine happend.bind ((Db.runs_write _ _).bind ((Db.runs_write _ _).bind ((Db.runs_write _ _).bind
    ((Db.runs_write _ _).bind ((Db.runs_ofResult hhead _).bind ((Db.runs_write _ _).bind ?_))))))
  exact Db.runs_pure _ _

theorem getElem?_append_single {α : Type} {l : List α} {a b : α} {i : ℕ} (h : (l ++ [a])[i]? = some b) :
    (i < l.length ∧ l[i]? = some b) ∨ (i = l.length ∧ a = b) := by
  rcases Nat.lt_trichotomy i l.length with hi | rfl | hi
  · exact .inl ⟨hi, by rwa [List.getElem?_append_left hi] at h⟩
  · exact .inr ⟨rfl, by simpa using h⟩
  · rw [List.getElem?_eq_none (by simp; omega)] at h
    cases h

/-- The server after a commit is sound. -/
theorem committed_sound (hs : t.Sound P epochs) {now : U64} {valid : List PreUpdateData}
    (hne : valid ≠ []) (hkeys : ∀ u ∈ valid, IsKey u.index) {prefixes : ℕ → Option LogEntry} {ptr : ℕ}
    {log : ℕ → Option Octets} {record : AuditorUpdate} {found : List PrefixSearch}
    (hptr : rootPtr (insertionsOf (epochs ++ [⟨now, valid⟩])) = some ptr)
    (hrecorded : Recorded P (insertionsOf (epochs ++ [⟨now, valid⟩])) prefixes)
    (hwritten : ∀ p, prefixes p ≠ none → ∃ x ∈ insertionsOf (epochs ++ [⟨now, valid⟩]), x.position = p)
    (hlog : Holds { t.store with log := log } (leavesOf P (epochs ++ [⟨now, valid⟩])))
    (hrecord : AuditRecordFor P (insertionsOf epochs) ⟨now, valid⟩ record)
    (hplaced : Placed (updatesOf epochs).length found) (hlen : found.length = valid.length)
    {th : TreeHead} (hth : th.treeSize = epochs.length + 1) :
    Sound P { t with
      store := committedStore t.store epochs.length (lastEntry P epochs ⟨now, valid⟩) prefixes ptr log
        record valid found th
      latest := some th } (epochs ++ [⟨now, valid⟩]) := by
  obtain ⟨e, he⟩ : ∃ e : Epoch, e = ⟨now, valid⟩ := ⟨_, rfl⟩
  have hval : e.updates = valid := by rw [he]
  have htime : e.timestamp = now := by rw [he]
  rw [← he] at hptr hrecorded hwritten hlog hrecord ⊢
  have hupdates : updatesOf (epochs ++ [e]) = updatesOf epochs ++ valid := by
    rw [updatesOf_append, hval]
  have hne' : updatesOf (epochs ++ [e]) ≠ [] := by simp [hupdates, hne]
  have hcount : ptr = (updatesOf (epochs ++ [e])).length - 1 :=
    Option.some.inj (hptr.symm.trans (rootPtr_insertionsOf _ hne'))
  have hpos := List.length_pos_iff.2 hne'
  have hlast : ∀ i ≤ epochs.length, (epochs ++ [e]).take i = epochs.take i := fun i hi =>
    take_append_of_le hi
  have hall : (epochs ++ [e]).take (epochs.length + 1) = epochs ++ [e] :=
    List.take_of_length_le (by simp)
  have hsplit : ∀ i < (epochs ++ [e]).length, i ≠ epochs.length → i < epochs.length := by
    intro i hi hne
    rw [List.length_append, List.length_singleton] at hi
    omega
  have hcells : ∀ (f : PreUpdateData → Octets) (table : ℕ → Option Octets),
      (∀ i (h : i < (updatesOf epochs).length), table i = some (f (updatesOf epochs)[i])) →
      ∀ i (h : i < (updatesOf (epochs ++ [e])).length),
        Store.putAll ((valid.zip found).map fun e => (e.2.logPosition, f e.1)) table i =
          some (f (updatesOf (epochs ++ [e]))[i]) := by
    intro f table htable i hi
    rw [putAll_placed _ hplaced hlen]
    simp only [hupdates] at hi ⊢
    rw [List.length_append] at hi
    split_ifs with hge
    · rw [List.getElem_append_right (by omega), List.getElem?_eq_getElem (by omega)]
      rfl
    · rw [List.getElem_append_left (by omega)]
      exact htable i (by omega)
  refine ⟨rfl, ?_, fun e' he' => ?_, fun u hu => ?_, hlog.congr rfl, fun i hi => ?_, fun i hi => ?_,
    fun i hi => ?_, ?_, hrecorded, hwritten, fun label => ?_, hcells _ _ hs.value,
    hcells _ _ hs.opening, fun i hi => ?_⟩
  · rw [List.length_append]
    exact hth
  · rcases List.mem_append.1 he' with he' | he'
    · exact hs.committed e' he'
    · rw [List.mem_singleton.1 he', hval]
      exact hne
  · rw [hupdates] at hu
    rcases List.mem_append.1 hu with hu | hu
    · exact hs.keys u hu
    · exact hkeys u hu
  · dsimp only [committedStore]
    rcases eq_or_ne i epochs.length with rfl | hi'
    · rw [Function.update_self, lastEntry]
      simp
    · have hlt := hsplit i hi hi'
      rw [Function.update_of_ne hi', hs.timestamp i hlt, List.getElem_append_left hlt]
  · dsimp only [committedStore]
    rcases eq_or_ne i epochs.length with rfl | hi'
    · rw [Function.update_self, lastEntry, hall]
    · have hlt := hsplit i hi hi'
      rw [Function.update_of_ne hi', hs.root i hlt, hlast _ hlt]
  · dsimp only [committedStore]
    rcases eq_or_ne i epochs.length with rfl | hi'
    · rw [Function.update_self, hall, hcount]
    · have hlt := hsplit i hi hi'
      rw [Function.update_of_ne hi', hs.ptr i hlt, hlast _ hlt]
  · rw [LogTree.getNextPrefixVersion, committedStore, Option.getD_some]
    omega
  · dsimp only [committedStore]
    rw [historyOf_append, hval, putHistoryBatch_placed label _ hplaced hlen, hs.history]
  · dsimp only [committedStore]
    rcases eq_or_ne i epochs.length with rfl | hi'
    · refine ⟨record, Function.update_self _ _ _, ?_⟩
      rw [hlast _ le_rfl, List.take_length]
      simpa using hrecord
    · have hlt := hsplit i hi hi'
      obtain ⟨record', h₁, h₂⟩ := hs.blob i hlt
      refine ⟨record', by rw [Function.update_of_ne hi', h₁], ?_⟩
      rw [hlast _ hlt.le, List.getElem_append_left hlt]
      exact h₂

/-- What a store says does not depend on its head's timestamp. -/
theorem restamp (hs : t.Sound P epochs) (th : TreeHead) (hsize : th.treeSize = t.treeSize) :
    Sound P { t with store := { t.store with head := some th }, latest := some th } epochs :=
  { hs with
    head := rfl
    size := hsize.trans hs.size
    log := hs.log.congr rfl }

/-- A tick keeps what a store says. -/
theorem tick (hs : t.Sound P epochs) (now : Option U64) :
    (t.afterRefresh none now).2.Sound P epochs := by
  obtain ⟨store, config, latest, auditors⟩ := t
  cases latest with
  | none => exact hs
  | some th =>
    cases now with
    | none => exact hs
    | some now =>
      have hread : (Db.ofResult (okOr (some now) "second time provided was later than self"))
          ⟨store, none⟩ = (.ok now, ⟨store, none⟩) := rfl
      unfold Tree.afterRefresh Tree.refreshHeadTimestamp
      dsimp only
      rw [Db.bind_apply, hread]
      dsimp only
      split_ifs
      · exact hs
      · exact hs.restamp { th with timestamp := asI64 now } rfl

end Tree.Sound

/-! ### Versions -/

/-- What `assignVersions` makes of the updates of a batch. -/
def assigned (s : Store) : List PreUpdateData → (Octets → Option ℕ) → List (Result PreUpdateData)
  | [], _ => []
  | update :: updates, overlay =>
    let nextVer := Tree.nextVersion (s.history update.label) (overlay update.label)
    if update.version ≠ nextVer then
      fail s!"Version assignment raced: precomputed {update.version} but batch assigns {nextVer}" ::
        assigned s updates overlay
    else .ok update :: assigned s updates (Function.update overlay update.label (some nextVer))

theorem runs_assignVersions (s : Store) :
    ∀ (updates : List PreUpdateData) (overlay : Octets → Option ℕ),
      (Tree.assignVersions updates overlay).Runs s (assigned s updates overlay) s
  | [], _ => Db.runs_pure _ _
  | update :: updates, overlay => by
    have hread : (Db.read fun s => .ok (s.history update.label)).Runs s (s.history update.label) s :=
      Db.runs_read rfl
    unfold Tree.assignVersions assigned
    refine hread.bind ?_
    dsimp only
    split_ifs
    · exact (runs_assignVersions s updates _).bind (Db.runs_pure _ _)
    · exact (runs_assignVersions s updates _).bind (Db.runs_pure _ _)

/-- The updates of a batch that it commits. -/
def validUpdates (s : Store) (updates : List PreUpdateData) : List PreUpdateData :=
  (assigned s updates fun _ => none).filterMap Except.toOption

theorem mem_validUpdates {s : Store} {updates : List PreUpdateData} {u : PreUpdateData}
    (h : u ∈ validUpdates s updates) : u ∈ updates := by
  have key : ∀ (updates : List PreUpdateData) (overlay : Octets → Option ℕ),
      .ok u ∈ assigned s updates overlay → u ∈ updates := by
    intro updates
    induction updates with
    | nil => intro overlay h; cases h
    | cons update updates ih =>
      intro overlay h
      unfold assigned at h
      dsimp only at h
      split_ifs at h
      · rcases List.mem_cons.1 h with h | h
        · cases h
        · exact List.mem_cons_of_mem _ (ih _ h)
      · rcases List.mem_cons.1 h with h | h
        · obtain rfl := Except.ok.inj h
          exact List.mem_cons_self
        · exact List.mem_cons_of_mem _ (ih _ h)
  obtain ⟨r, hr, hu⟩ := List.mem_filterMap.1 h
  cases r with
  | error e => cases hu
  | ok u' =>
    obtain rfl := Option.some.inj hu
    exact key _ _ hr

theorem runs_applyBatch {now : Option U64} {updates : List PreUpdateData}
    {r : List (Result PostUpdateData) × TreeHead} {s : Store} (hne : validUpdates t.store updates ≠ [])
    (hrun : (Tree.commitUpdates P t now (assigned t.store updates fun _ => none)
      (validUpdates t.store updates)).Runs t.store r s) :
    (Tree.applyBatch P t now updates).Runs t.store r s := by
  have hupdates : updates ≠ [] := by
    rintro rfl
    exact hne rfl
  unfold Tree.applyBatch
  refine (Db.runs_ofResult (ensure_of hupdates _) _).bind
    ((runs_assignVersions t.store updates _).bind ?_)
  dsimp only
  rw [← validUpdates, if_neg hne]
  exact hrun

/-- **A batch with a valid update adds an epoch.** -/
theorem afterBatch_sound (hs : t.Sound P epochs) (hsign : Signs P t.config)
    (hn : epochs.length + 1 ≤ 2 ^ 62) (now : U64) {updates : List PreUpdateData}
    (hkeys : ∀ u ∈ updates, IsKey u.index) (hne : validUpdates t.store updates ≠ []) :
    ∃ th store found,
      Tree.afterBatch P t none (some now) updates =
        (.ok (Tree.fillSlots (Tree.getFullTreeHead { t with latest := some th } none)
          (assigned t.store updates fun _ => none) found), { t with store, latest := some th }) ∧
      found.length = (validUpdates t.store updates).length ∧
      Tree.signHead P t.config (epochs.length + 1) now
        (logRoot P (leavesOf P (epochs ++ [⟨now, validUpdates t.store updates⟩]))) = .ok th ∧
      Tree.Sound P { t with store, latest := some th }
        (epochs ++ [⟨now, validUpdates t.store updates⟩]) := by
  have hkeys' : ∀ u ∈ validUpdates t.store updates, IsKey u.index := fun u hu =>
    hkeys u (mem_validUpdates hu)
  obtain ⟨prefixes, ptr, log, record, found, signature, hptr, hrec, hwritten, hlog, hfor, hplaced, hlen,
    hsigned, hrun⟩ := hs.runs_commit hsign hn now (assigned t.store updates fun _ => none) hne hkeys'
  have hbatch := runs_applyBatch hne hrun
  rw [Db.Runs] at hbatch
  refine ⟨⟨epochs.length + 1, asI64 now, [signature]⟩, _, found, ?_, hlen, hsigned,
    hs.committed_sound hne hkeys' hptr hrec hwritten hlog hfor hplaced hlen rfl⟩
  rw [Tree.afterBatch, hbatch]

/-- A batch without a valid update leaves the server as it is. -/
theorem afterBatch_of_none (now : Option U64) {updates : List PreUpdateData}
    (hnone : validUpdates t.store updates = []) :
    (Tree.afterBatch P t none now updates).2 = t := by
  rcases eq_or_ne updates [] with rfl | hupdates
  · rfl
  have hbatch : Tree.applyBatch P t now updates ⟨t.store, none⟩ =
      ((okOr t.latest "No tree head available").map fun th =>
        (Tree.fillSlots (Tree.getFullTreeHead t none) (assigned t.store updates fun _ => none) [], th),
        ⟨t.store, none⟩) := by
    have hens : (Db.ofResult (ensure (updates ≠ []) "Empty batch")) ⟨t.store, none⟩ =
        (.ok (), ⟨t.store, none⟩) := Db.runs_ofResult (ensure_of hupdates _) _
    have hassign := runs_assignVersions t.store updates fun _ => none
    rw [Db.Runs] at hassign
    unfold Tree.applyBatch
    rw [Db.bind_apply, hens]
    dsimp only
    rw [Db.bind_apply, hassign]
    dsimp only
    rw [← validUpdates, if_pos hnone, Db.bind_apply]
    cases t.latest <;> rfl
  rw [Tree.afterBatch, hbatch]
  obtain ⟨store, config, latest, auditors⟩ := t
  cases latest <;> rfl

/-- A server that has committed nothing. -/
def emptyServer (config : PrivateConfig) : Tree := ⟨Store.empty, config, none, []⟩

theorem emptyServer_sound (config : PrivateConfig) : (emptyServer config).Sound P [] where
  head := rfl
  size := rfl
  committed _ h := by cases h
  keys _ h := by cases h
  log := ⟨fun _ h => (by cases h), fun _ => rfl, fun _ _ _ => rfl⟩
  timestamp _ h := absurd h (Nat.not_lt_zero _)
  root _ h := absurd h (Nat.not_lt_zero _)
  ptr _ h := absurd h (Nat.not_lt_zero _)
  next := rfl
  recorded x before h := absurd (h.mem List.mem_cons_self) (by simp [insertionsOf, updatesOf, insertionsFrom])
  written _ h := absurd rfl h
  history _ := rfl
  value _ h := absurd h (Nat.not_lt_zero _)
  opening _ h := absurd h (Nat.not_lt_zero _)
  blob _ h := absurd h (Nat.not_lt_zero _)

/-- A configuration without auditing. -/
def plainConfig : PrivateConfig where
  cipherSuite := 1
  mode := deploymentModeContactMonitoring
  sigKey := []
  vrfKey := []
  vrfPublicKey := []
  auditorKeys := []
  auditorPublicKey := none
  auditorStartPos := 0
  maxAuditorLag := 0
  maxAhead := 0
  maxBehind := 0
  reasonableMonitoringWindow := 0
  maximumLifetime := none
  leafPublicKey := none

theorem plainConfig_signs : Signs Primitives.ideal plainConfig := ⟨_, rfl⟩

end

end KeyTransparency
