/-
# Inserting into the prefix tree

A batch makes an entry of each insertion for the history before it (`EntryFor`), and
its roots are those of the maps the histories stand for (`insertAll_eq`,
`batchInsert_runs`).
-/

import KeyTransparency.Tree.PrefixWalk

namespace KeyTransparency

open SparseMerkle

/-- The insertions of a batch, from a version on. -/
def insertionsFrom : ℕ → List (Octets × Octets) → List Insertion
  | _, [] => []
  | version, (index, commitment) :: entries =>
    ⟨version, index, commitment⟩ :: insertionsFrom (version + 1) entries

/-- The roots of the histories that a list of insertions makes of a history. -/
def rootsFrom (P : Primitives) : List Insertion → List Insertion → List Octets
  | _, [] => []
  | history, x :: xs => prefixRoot P (commitmentsOf (x :: history)) :: rootsFrom P (x :: history) xs

/-- The pointer to the root of a history. -/
def rootPtr (history : List Insertion) : Option ℕ := history.head?.map Insertion.position

section

variable {P : Primitives} {s : Store} {h before : List Insertion}
  {x y : Insertion} {t : Octets} {entries : ℕ → Option LogEntry} {nodes : Nodes}

/-! ### One insertion -/

/-- `insert_internal`'s search, with nothing cached. -/
def coldPath (P : Primitives) (entries : ℕ → Option LogEntry) (index : Octets) :
    Option ℕ → Result (List ParentNode × ℕ)
  | none => .ok ([], 0)
  | some ptr => do
    let found ← coldSearch P entries index (8 * indexLength + 1) ptr []
    found.path

theorem insertPath_answers (evict : Eviction) (hold : nodes.Hold P s entries) (ptr : Option ℕ) (index : Octets) :
    Answers P s entries (PrefixTree.insertPath P evict s ptr index nodes)
      (coldPath P entries index ptr) := by
  cases ptr with
  | none => exact ⟨nodes, rfl, hold⟩
  | some ptr =>
    refine (searchLoop_answers hold).bind fun found nodes' _ hold' => ?_
    dsimp only
    cases found.path with
    | error e => rfl
    | ok path => exact ⟨nodes', rfl, hold'⟩

/-- A search that fails leaves nothing beside the path further down. -/
theorem EndsAs.path_eq {found : PrefixTree.SearchEnd} (hf : EndsAs P h t found) :
    ∃ copath ctr, found.path = .ok (copath, ctr) ∧ CompleteCopath P h t copath := by
  cases found with
  | found entry =>
    obtain ⟨y, ctr, hleaf, hc, -⟩ := hf
    refine ⟨entry.copath, ctr + 1, ?_, hc⟩
    rw [PrefixTree.SearchEnd.path, hleaf]
  | failed copath entry =>
    obtain ⟨hc, -, -, hnone, -⟩ := hf
    exact ⟨copath, 0, rfl, hc, fun l h₁ _ => latestBelow_longer (take_prefix_beside h₁) hnone⟩

theorem coldPath_eq (hk : KeysValid h) (ht : IsKey t) (hrec : Recorded P h entries) :
    ∃ copath ctr, coldPath P entries t (rootPtr h) = .ok (copath, ctr) ∧
      CompleteCopath P h t copath := by
  cases h with
  | nil =>
    exact ⟨[], 0, rfl, ⟨by simp, fun l node hn => by simp at hn⟩, fun _ _ _ => rfl⟩
  | cons x before =>
    obtain ⟨found, hfound, hends⟩ := coldSearch_ends (P := P) hk ht hrec
    obtain ⟨copath, ctr, hpath, hc⟩ := hends.path_eq
    refine ⟨copath, ctr, ?_, hc⟩
    rw [rootPtr, List.head?_cons, Option.map_some, coldPath, hfound, Result.ok_bind, hpath]

/-- **One insertion**: its entry is one for the history before it, and its root the root
of the map after it. -/
theorem insertInternal_eq (evict : Eviction) (hk : KeysValid (x :: h)) (hrec : Recorded P h entries)
    (hold : nodes.Hold P s entries) :
    ∃ found ce nodes', PrefixTree.insertInternal P evict s x.position (rootPtr h) x.key x.commitment
        nodes = .ok (prefixRoot P (commitmentsOf (x :: h)), found, ce, nodes') ∧
      EntryFor P h x ce.inner ∧ ce.Filled P ∧ nodes'.Hold P s entries := by
  obtain ⟨copath, ctr, hpath, hc⟩ := coldPath_eq (P := P)
    (fun z hz => hk z (List.mem_cons_of_mem _ hz)) (hk x List.mem_cons_self) hrec
  have hans := insertPath_answers evict hold (rootPtr h) x.key
  rw [hpath] at hans
  obtain ⟨nodes', hins, hold'⟩ := hans
  have he : EntryFor P h x ⟨x.key, copath, x.position, some ⟨ctr, x.commitment⟩⟩ :=
    ⟨rfl, ⟨ctr, rfl⟩, hc⟩
  obtain ⟨hroll, hfill, hinner⟩ := CachedLogEntry.rollup_eq (l := 0) (P := P)
    (c := .new ⟨x.key, copath, x.position, some ⟨ctr, x.commitment⟩⟩) rfl
    (CachedLogEntry.filled_new _) (Nat.zero_le _)
  have hroot := he.rolledUp_eq hk rfl (Nat.zero_le 256)
  rw [List.take_zero, subtreeHash_nil] at hroot
  refine ⟨⟨x.position, x.commitment, copath.map ParentNode.hash, ctr, copath.length⟩, _, nodes', ?_,
    by rw [hinner]; exact he, hfill, hold'⟩
  unfold PrefixTree.insertInternal
  rw [hins, Result.ok_bind]
  dsimp only
  rw [hroll, CachedLogEntry.new, hroot]
  rfl

/-! ### A batch -/

theorem Recorded.cons (hrec : Recorded P h entries) {entry : LogEntry} (he : EntryFor P h x entry)
    (hfresh : ∀ z ∈ h, z.position ≠ x.position) :
    Recorded P (x :: h) (Function.update entries x.position (some entry)) := by
  intro y before hs
  rcases List.suffix_cons_iff.1 hs with heq | hs
  · obtain ⟨rfl, rfl⟩ := List.cons.inj heq
    exact ⟨entry, Function.update_self _ _ _, he⟩
  · obtain ⟨entry', hentry', he'⟩ := hrec y before hs
    refine ⟨entry', ?_, he'⟩
    rw [Function.update_of_ne (hfresh y (hs.mem List.mem_cons_self))]
    exact hentry'

theorem NodeCache.Of.extend {cache : NodeCache} (hc : cache.Of P entries) {ptr : ℕ}
    {entry : LogEntry} (hfree : entries ptr = none) :
    cache.Of P (Function.update entries ptr (some entry)) := by
  intro p ce hp
  have hne : p ≠ ptr := by
    rintro rfl
    cases (hc p ce hp).1.symm.trans hfree
  rw [Function.update_of_ne hne]
  exact hc p ce hp

/-- The nodes after a batch has written an entry. -/
theorem Nodes.Hold.insert (hold : nodes.Hold P s entries) {ptr : ℕ} {ce : CachedLogEntry}
    (hfill : ce.Filled P) (hleaf : ce.inner.leaf.isSome) (hfree : entries ptr = none) :
    Nodes.Hold P s (Function.update entries ptr (some ce.inner))
      { nodes with overlay := Function.update nodes.overlay ptr (some ce) } where
  store p hp := by
    rcases eq_or_ne p ptr with rfl | hne
    · simp at hp
    · rw [Function.update_of_ne hne]
      exact hold.store p (by simpa [Function.update_of_ne hne] using hp)
  overlay := (hold.overlay.extend hfree).update (Function.update_self _ _ _) hfill
  cache := hold.cache.extend hfree
  leaf p entry hp := by
    rcases eq_or_ne p ptr with rfl | hne
    · rw [Function.update_self] at hp
      rwa [← Option.some.inj hp]
    · exact hold.leaf p entry (by rwa [Function.update_of_ne hne] at hp)

/-- The positions of a history lie below a version, and hold its entries. -/
structure Below (h : List Insertion) (entries : ℕ → Option LogEntry) (version : ℕ) : Prop where
  position_lt : ∀ z ∈ h, z.position < version
  free : ∀ p, version ≤ p → entries p = none

/-- **A batch**: its roots are those of the histories it makes, and what it has
written are the entries for them. -/
theorem insertAll_eq (evict : Eviction) :
    ∀ {batch : List (Octets × Octets)} {version : ℕ} {h : List Insertion}
      {entries : ℕ → Option LogEntry} {nodes : Nodes}, KeysValid h → (∀ e ∈ batch, IsKey e.1) →
      Recorded P h entries → Below h entries version → nodes.Hold P s entries →
      ∃ results written nodes' entries',
        PrefixTree.insertAll P evict s version (rootPtr h) batch nodes =
          .ok (rootsFrom P h (insertionsFrom version batch), results, written,
            rootPtr ((insertionsFrom version batch).reverse ++ h), nodes') ∧
        (∀ e ∈ written, (entries' e.1 = some e.2.inner ∧ e.2.Filled P) ∧
          ∃ x ∈ insertionsFrom version batch, x.position = e.1) ∧
        Store.putAll (written.map fun e => (e.1, e.2.inner)) entries = entries' ∧
        nodes'.Hold P s entries' ∧ (∀ p < version, entries' p = entries p) ∧
        Recorded P ((insertionsFrom version batch).reverse ++ h) entries'
  | [], version, h, entries, nodes, _, _, hrec, _, hold =>
    ⟨[], [], nodes, entries, rfl, by simp, rfl, hold, fun _ _ => rfl, hrec⟩
  | (index, commitment) :: batch, version, h, entries, nodes, hk, hb, hrec, hbelow, hold => by
    obtain ⟨x, hx⟩ : ∃ x : Insertion, x = ⟨version, index, commitment⟩ := ⟨_, rfl⟩
    have hxp : x.position = version := by rw [hx]
    have hk' : KeysValid (x :: h) := by
      intro z hz
      rcases List.mem_cons.1 hz with rfl | hz
      · rw [hx]
        exact hb _ List.mem_cons_self
      · exact hk z hz
    obtain ⟨found, ce, nodes₁, hins, he, hfill, hold₁⟩ :=
      insertInternal_eq evict hk' hrec hold
    have hfree : entries x.position = none := hbelow.free _ hxp.ge
    have hleaf : ce.inner.leaf.isSome := by
      obtain ⟨ctr, hctr⟩ := he.leaf
      rw [hctr]
      rfl
    have hrec' := hrec.cons he fun z hz => by
      have := hbelow.position_lt z hz
      omega
    have hbelow' : Below (x :: h) (Function.update entries x.position (some ce.inner))
        (version + 1) := by
      refine ⟨fun z hz => ?_, fun p hp => ?_⟩
      · rcases List.mem_cons.1 hz with rfl | hz
        · omega
        · exact (hbelow.position_lt z hz).trans (Nat.lt_succ_self _)
      · rw [Function.update_of_ne (by omega)]
        exact hbelow.free p (by omega)
    obtain ⟨results, written, nodes', entries', hall, hwritten, hput, hold', hsame, hrec''⟩ :=
      insertAll_eq evict hk' (fun e he => hb e (List.mem_cons_of_mem _ he)) hrec' hbelow'
        (hold₁.insert hfill hleaf hfree)
    have hlist : (insertionsFrom version ((index, commitment) :: batch)).reverse ++ h =
        (insertionsFrom (version + 1) batch).reverse ++ x :: h := by
      simp [insertionsFrom, hx]
    refine ⟨found :: results, (version, ce) :: written, nodes', entries', ?_, ?_, ?_, hold',
      fun p hp => ?_, by rwa [hlist]⟩
    · unfold PrefixTree.insertAll
      subst hx
      rw [hins, Result.ok_bind]
      dsimp only
      rw [show (some version) = rootPtr (⟨version, index, commitment⟩ :: h) from rfl, hall, hlist]
      rfl
    · intro e he'
      rcases List.mem_cons.1 he' with rfl | he'
      · rw [hsame version (Nat.lt_succ_self _), ← hxp, Function.update_self]
        exact ⟨⟨rfl, hfill⟩, _, List.mem_cons_self, rfl⟩
      · obtain ⟨hw, y, hy, hpos⟩ := hwritten e he'
        exact ⟨hw, y, List.mem_cons_of_mem _ hy, hpos⟩
    · rw [← hput, ← hxp]
      rfl
    · rw [hsame p (by omega), Function.update_of_ne (by omega)]

end

end KeyTransparency
