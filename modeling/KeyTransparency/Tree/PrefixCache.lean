/-
# Caches do not change answers

A memo is filled with the hashes that a cold entry rolls up to (`rollup_eq`), so a
search gives what it gives over the entries alone (`coldSearch`), whatever the
overlay and the shared cache hold and the cache drops (`searchLoop_eq`).
-/

import KeyTransparency.Tree.Prefix

namespace KeyTransparency

open SparseMerkle

variable {P : Primitives} {evict : Eviction} {s : Store}

/-! ### Memos -/

/-- The hash of an entry's path at a level. -/
def rolledUp (P : Primitives) (entry : LogEntry) (leaf : LeafNode) (level : ℕ) : Octets :=
  fold (parentHash P) zeroValue ((keyBits entry.index).drop level)
    ((entry.copath.map ParentNode.hash).drop level) (leafHash P entry.index leaf.commitment)

/-- A memo holds nothing but the hashes of its entry. -/
def CachedLogEntry.Filled (P : Primitives) (ce : CachedLogEntry) : Prop :=
  ∀ leaf, ce.inner.leaf = some leaf → ∀ level value, ce.parents level = some value →
    value = rolledUp P ce.inner leaf level

theorem CachedLogEntry.filled_new (entry : LogEntry) : (CachedLogEntry.new entry).Filled P :=
  fun _ _ _ _ h => by simp [CachedLogEntry.new] at h

theorem rolledUp_full (entry : LogEntry) (leaf : LeafNode) :
    rolledUp P entry leaf (8 * indexLength) = leafHash P entry.index leaf.commitment := by
  rw [rolledUp, List.drop_of_length_le (by simp [indexLength]), fold]

theorem rolledUp_succ {entry : LogEntry} {leaf : LeafNode} {level : ℕ} (hl : level < 256) :
    rolledUp P entry leaf level =
      branch (parentHash P) (getBit entry.index level == 1)
        ((entry.copath[level]?.map ParentNode.hash).getD (CachedLogEntry.standIn (level + 1)))
        (rolledUp P entry leaf (level + 1)) := by
  rw [rolledUp, List.drop_eq_getElem_cons (by simpa using hl), fold_cons, getElem_keyBits,
    List.tail_drop, rolledUp]
  congr 1
  rw [List.headD_eq_head?_getD, List.head?_drop, List.getElem?_map]
  rfl

private theorem rollupLoop_eq {entry : LogEntry} {leaf : LeafNode} {level : ℕ} :
    ∀ {curr : ℕ} {parents : ℕ → Option Octets}, level ≤ curr → curr ≤ 256 →
      (∀ l v, parents l = some v → v = rolledUp P entry leaf l) →
      ∃ parents', CachedLogEntry.rollupLoop P entry level curr (rolledUp P entry leaf curr) parents =
          (rolledUp P entry leaf level, parents') ∧
        ∀ l v, parents' l = some v → v = rolledUp P entry leaf l
  | 0, parents, hlevel, _, hp => ⟨parents, by rw [Nat.le_zero.1 hlevel]; rfl, hp⟩
  | curr + 1, parents, hlevel, hcurr, hp => by
    unfold CachedLogEntry.rollupLoop
    split_ifs with hle
    · cases hm : parents curr with
      | some val =>
        rw [hp _ _ hm]
        exact rollupLoop_eq hle (by omega) hp
      | none =>
        dsimp only
        rw [← rolledUp_succ (by omega)]
        refine rollupLoop_eq hle (by omega) fun l v hl => ?_
        rcases eq_or_ne l curr with rfl | hne
        · rw [Function.update_self] at hl
          exact (Option.some.inj hl).symm
        · exact hp l v (by rwa [Function.update_of_ne hne] at hl)
    · exact ⟨parents, by rw [show level = curr + 1 by omega], hp⟩

/-- **A memo does not change a rollup**, and a rollup keeps it right. -/
theorem CachedLogEntry.rollup_eq {c : CachedLogEntry} {leaf : LeafNode} {l : ℕ}
    (hleaf : c.inner.leaf = some leaf) (hfill : c.Filled P) (hl : l ≤ 256) :
    (c.rollup P l).1 = rolledUp P c.inner leaf l ∧ (c.rollup P l).2.Filled P ∧
      (c.rollup P l).2.inner = c.inner := by
  obtain ⟨parents, h, hp⟩ := rollupLoop_eq (P := P) hl le_rfl (hfill leaf hleaf)
  have hrw : c.rollup P l = (rolledUp P c.inner leaf l, { c with parents }) := by
    rw [rollup, hleaf]
    dsimp only
    rw [← rolledUp_full, show 8 * indexLength = 256 from rfl, h]
  rw [hrw]
  exact ⟨rfl, fun leaf' h' => by cases hleaf.symm.trans h'; exact hp, rfl⟩

/-! ### Steps -/

/-- What a step returns, with the entry's memo forgotten. -/
def outcome (r : Result (StepResult × List ParentNode × CachedLogEntry)) :
    Result (StepResult × List ParentNode) := r.map fun x => (x.1, x.2.1)

/-- An entry that a step may return in place of another: only its memo differs. -/
def SameEntry (P : Primitives) (ce ce' : CachedLogEntry) : Prop :=
  ce'.inner = ce.inner ∧ ce'.Filled P

private theorem stepLoop_outcome {t : Octets} {ptr : ℕ} {leaf : LeafNode} {ce₁ ce₂ : CachedLogEntry}
    (hleaf : ce₁.inner.leaf = some leaf) (hin : ce₁.inner = ce₂.inner) (h₁ : ce₁.Filled P)
    (h₂ : ce₂.Filled P) :
    ∀ {fuel : ℕ} {copath : List ParentNode}, fuel ≤ 256 - copath.length →
      outcome (PrefixTree.stepLoop P t ptr ce₁ fuel copath) =
          outcome (PrefixTree.stepLoop P t ptr ce₂ fuel copath) ∧
        ∀ r, PrefixTree.stepLoop P t ptr ce₁ fuel copath = .ok r → SameEntry P ce₁ r.2.2
  | 0, copath, _ => by
    unfold PrefixTree.stepLoop
    rw [← hin, hleaf]
    simp [outcome]
  | fuel + 1, copath, hf => by
    have hroll₁ := CachedLogEntry.rollup_eq (l := copath.length + 1) hleaf h₁ (by omega)
    have hroll₂ := CachedLogEntry.rollup_eq (l := copath.length + 1) (hin ▸ hleaf) h₂ (by omega)
    have hroll : (ce₁.rollup P (copath.length + 1)).1 = (ce₂.rollup P (copath.length + 1)).1 := by
      rw [hroll₁.1, hroll₂.1, hin]
    have hlen : ∀ node : ParentNode, fuel ≤ 256 - (copath ++ [node]).length := fun node => by
      rw [List.length_append, List.length_singleton]
      omega
    have hnone : ¬ ce₁.inner.leaf = none := by simp [hleaf]
    unfold PrefixTree.stepLoop
    dsimp only
    rw [← hin, ← hroll]
    cases ce₁.inner.copath[copath.length]? with
    | some parent =>
      dsimp only
      split_ifs
      · exact stepLoop_outcome hleaf hin h₁ h₂ (hlen _)
      · cases parent.ptr <;> refine ⟨rfl, fun r hr => ?_⟩ <;> obtain rfl := Except.ok.inj hr <;>
          exact ⟨hroll₁.2.2, hroll₁.2.1⟩
    | none =>
      dsimp only
      rw [if_neg hnone, if_neg hnone]
      split_ifs
      · exact stepLoop_outcome hleaf hin h₁ h₂ (hlen _)
      · refine ⟨rfl, fun r hr => ?_⟩
        obtain rfl := Except.ok.inj hr
        exact ⟨hroll₁.2.2, hroll₁.2.1⟩

/-- **A step depends on the entry alone.** -/
theorem step_outcome (t : Octets) (ptr : ℕ) (copath : List ParentNode) {ce : CachedLogEntry}
    (hleaf : ce.inner.leaf.isSome) (hfill : ce.Filled P) :
    outcome (PrefixTree.step P t ptr copath ce) =
        outcome (PrefixTree.step P t ptr copath (.new ce.inner)) ∧
      ∀ r, PrefixTree.step P t ptr copath ce = .ok r → SameEntry P ce r.2.2 := by
  obtain ⟨leaf, hl⟩ := Option.isSome_iff_exists.1 hleaf
  have hin : (CachedLogEntry.new ce.inner).inner = ce.inner := rfl
  unfold PrefixTree.step
  rw [hin]
  split_ifs
  · refine ⟨rfl, fun r hr => ?_⟩
    obtain rfl := Except.ok.inj hr
    exact ⟨rfl, hfill⟩
  · exact stepLoop_outcome hl hin.symm hfill (CachedLogEntry.filled_new ce.inner) le_rfl

/-! ### Searches -/

/-- A cache of the given entries. -/
def NodeCache.Of (P : Primitives) (entries : ℕ → Option LogEntry) (cache : NodeCache) : Prop :=
  ∀ ptr ce, cache ptr = some ce → entries ptr = some ce.inner ∧ ce.Filled P

/-- What the nodes hold of a tree with the given entries: the overlay and the store
hold all of it, the shared cache what it holds. -/
structure Nodes.Hold (P : Primitives) (s : Store) (entries : ℕ → Option LogEntry) (nodes : Nodes) :
    Prop where
  store : ∀ ptr, nodes.overlay ptr = none → s.prefixes ptr = entries ptr
  overlay : nodes.overlay.Of P entries
  cache : nodes.cache.Of P entries
  leaf : ∀ ptr entry, entries ptr = some entry → entry.leaf.isSome

/-- The search, with nothing cached. -/
def coldSearch (P : Primitives) (entries : ℕ → Option LogEntry) (index : Octets) :
    ℕ → ℕ → List ParentNode → Result PrefixTree.SearchEnd
  | 0, _, _ => .error .diverge
  | fuel + 1, curr, copath => do
    let entry ← okOr (entries curr) s!"Missing prefix entry {curr}"
    let (result, copath) ← outcome (PrefixTree.step P index curr copath (.new entry))
    match result with
    | .found finalEntry => return .found finalEntry
    | .next nextPtr => coldSearch P entries index fuel nextPtr copath
    | .failed failedCopath => return .failed failedCopath entry

/-- A computation with caches answers what one without them does, and its caches
stay right. -/
def Answers {α : Type} (P : Primitives) (s : Store) (entries : ℕ → Option LogEntry)
    (x : Result (α × Nodes)) (y : Result α) : Prop :=
  match y with
  | .error e => x = .error e
  | .ok a => ∃ nodes, x = .ok (a, nodes) ∧ nodes.Hold P s entries

section

variable {entries : ℕ → Option LogEntry} {nodes : Nodes}

theorem Answers.bind {α β : Type} {x : Result (α × Nodes)} {y : Result α}
    {f : α × Nodes → Result (β × Nodes)} {g : α → Result β} (h : Answers P s entries x y)
    (hf : ∀ a nodes, y = .ok a → nodes.Hold P s entries → Answers P s entries (f (a, nodes)) (g a)) :
    Answers P s entries (x >>= f) (y >>= g) := by
  cases y with
  | error e =>
    rw [show x = .error e from h]
    rfl
  | ok a =>
    obtain ⟨nodes, rfl, hold⟩ := h
    exact hf a nodes rfl hold

theorem NodeCache.Of.update {cache : NodeCache} (hc : cache.Of P entries) {ptr : ℕ}
    {ce : CachedLogEntry} (hin : entries ptr = some ce.inner) (hfill : ce.Filled P) :
    NodeCache.Of P entries (Function.update cache ptr (some ce)) := fun p ce' h => by
  rcases eq_or_ne p ptr with rfl | hne
  · rw [Function.update_self] at h
    obtain rfl := Option.some.inj h
    exact ⟨hin, hfill⟩
  · exact hc p ce' (by rwa [Function.update_of_ne hne] at h)

theorem NodeCache.Of.put {cache : NodeCache} (hc : cache.Of P entries) {ptr : ℕ}
    {ce : CachedLogEntry} (hin : entries ptr = some ce.inner) (hfill : ce.Filled P) :
    (cache.put evict ptr ce).Of P entries := fun p ce' h => by
  unfold NodeCache.put at h
  dsimp only at h
  split_ifs at h
  exact hc.update hin hfill p ce' h

theorem NodeCache.Of.hold {cache : NodeCache} (hc : cache.Of P s.prefixes)
    (hleaf : ∀ ptr entry, s.prefixes ptr = some entry → entry.leaf.isSome) :
    Nodes.Hold P s s.prefixes ⟨fun _ => none, cache⟩ where
  store _ _ := rfl
  overlay ptr ce h := by cases h
  cache := hc
  leaf := hleaf

theorem getEntry_answers (evict : Eviction) (hold : nodes.Hold P s entries) (ptr : ℕ) :
    match entries ptr with
    | none => PrefixTree.getEntry evict s ptr nodes = fail s!"Missing prefix entry {ptr}"
    | some entry => ∃ ce nodes', PrefixTree.getEntry evict s ptr nodes = .ok (ce, nodes') ∧
        ce.inner = entry ∧ ce.Filled P ∧ nodes'.Hold P s entries := by
  unfold PrefixTree.getEntry
  cases ho : nodes.overlay ptr with
  | some ce =>
    obtain ⟨he, hfill⟩ := hold.overlay ptr ce ho
    rw [he]
    exact ⟨ce, nodes, rfl, rfl, hfill, hold⟩
  | none =>
    cases hc : nodes.cache ptr with
    | some ce =>
      obtain ⟨he, hfill⟩ := hold.cache ptr ce hc
      rw [he]
      exact ⟨ce, nodes, rfl, rfl, hfill, hold⟩
    | none =>
      dsimp only
      rw [hold.store ptr ho]
      cases he : entries ptr with
      | none => rfl
      | some entry =>
        have hfill : (CachedLogEntry.new entry).Filled P := CachedLogEntry.filled_new entry
        exact ⟨.new entry, _, rfl, rfl, hfill, hold.store, hold.overlay, hold.cache.put he hfill,
          hold.leaf⟩

theorem Nodes.Hold.share (hold : nodes.Hold P s entries) {ptr : ℕ} {ce : CachedLogEntry}
    (hin : entries ptr = some ce.inner) (hfill : ce.Filled P) :
    (nodes.share ptr ce).Hold P s entries where
  store p hp := by
    refine hold.store p ?_
    simp only [Nodes.share] at hp
    split_ifs at hp
    · rcases eq_or_ne p ptr with rfl | hne
      · simp at hp
      · rwa [Function.update_of_ne hne] at hp
    · exact hp
  overlay := by
    simp only [Nodes.share]
    split_ifs
    · exact hold.overlay.update hin hfill
    · exact hold.overlay
  cache := by
    simp only [Nodes.share]
    split_ifs
    · exact hold.cache.update hin hfill
    · exact hold.cache
  leaf := hold.leaf

/-- **Caches do not change a search.** -/
theorem searchLoop_answers {index : Octets} :
    ∀ {fuel curr : ℕ} {copath : List ParentNode} {nodes : Nodes}, nodes.Hold P s entries →
      Answers P s entries (PrefixTree.searchLoop P evict s index fuel curr copath nodes)
        (coldSearch P entries index fuel curr copath)
  | 0, _, _, _, _ => rfl
  | fuel + 1, curr, copath, nodes, hold => by
    have hget := getEntry_answers evict hold curr
    unfold PrefixTree.searchLoop coldSearch
    cases he : entries curr with
    | none =>
      rw [he] at hget
      rw [hget]
      rfl
    | some entry =>
      rw [he] at hget
      obtain ⟨ce, nodes', hget, rfl, hfill, hold'⟩ := hget
      rw [hget, okOr_some, Result.ok_bind, Result.ok_bind]
      have hstep := step_outcome index curr copath (hold.leaf curr _ he) hfill
      rw [← hstep.1]
      dsimp only
      cases hr : PrefixTree.step P index curr copath ce with
      | error e => rfl
      | ok r =>
        obtain ⟨result, copath', ce'⟩ := r
        obtain ⟨hin, hfill'⟩ := hstep.2 _ hr
        have hshare : (nodes'.share curr ce').Hold P s entries :=
          hold'.share (by rw [hin]; exact he) hfill'
        cases result with
        | next nextPtr => exact searchLoop_answers hshare
        | found entry => exact ⟨_, rfl, hshare⟩
        | failed copath => exact ⟨_, rfl, hshare⟩

/-- `search_for_proof`, with nothing cached. -/
def coldProof (P : Primitives) (entries : ℕ → Option LogEntry) (ptr : ℕ) (index : Octets) :
    Result ProofResult := do
  let found ← coldSearch P entries index (8 * indexLength + 1) ptr []
  found.proof

theorem searchForProof_answers (evict : Eviction) (hold : nodes.Hold P s entries) (ptr : ℕ) (index : Octets) :
    Answers P s entries (PrefixTree.searchForProof P evict s ptr index nodes)
      (coldProof P entries ptr index) := by
  refine (searchLoop_answers hold).bind fun found nodes' _ hold' => ?_
  dsimp only
  cases found.proof with
  | error e => rfl
  | ok proof => exact ⟨nodes', rfl, hold'⟩

end

end KeyTransparency
