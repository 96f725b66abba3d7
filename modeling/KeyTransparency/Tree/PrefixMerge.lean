/-
# Searching merged entries

A search asks an entry only for what its copath holds from the level on at which it has come
to the entry (`step_congr`).  So it does not matter what an entry holds further up, as long as
no search comes to it there: the entries of a merged tree need be right at the levels only at
which they are the last insertions below their paths (`Mended`), and a search over them ends
as one over the entries of a tree that was built in order (`Mended.search`).
-/

import KeyTransparency.Tree.PrefixInsert

namespace KeyTransparency

open SparseMerkle

variable {P : Primitives} {h before : List Insertion} {x y : Insertion} {t : Octets}
  {entry entry' : LogEntry} {copath : List ParentNode} {level ptr : ℕ}

/-! ### What a step asks an entry for -/

/-- Two entries are the same from a level on. -/
structure LogEntry.AgreesFrom (level : ℕ) (entry entry' : LogEntry) : Prop where
  index : entry'.index = entry.index
  leaf : entry'.leaf = entry.leaf
  position : entry'.firstUpdatePosition = entry.firstUpdatePosition
  copath : entry'.copath.drop level = entry.copath.drop level

namespace LogEntry.AgreesFrom

theorem later (a : AgreesFrom level entry entry') {level' : ℕ} (hl : level ≤ level') :
    AgreesFrom level' entry entry' where
  index := a.index
  leaf := a.leaf
  position := a.position
  copath := by
    obtain ⟨d, rfl⟩ := Nat.exists_eq_add_of_le hl
    rw [← List.drop_drop, a.copath, List.drop_drop]

theorem getElem? (a : AgreesFrom level entry entry') : entry'.copath[level]? = entry.copath[level]? := by
  have h := congrArg List.head? a.copath
  rwa [List.head?_drop, List.head?_drop] at h

/-- Both roll up to the same hash further down. -/
theorem rolledUp (a : AgreesFrom level entry entry') (leaf : LeafNode) :
    rolledUp P entry' leaf level = rolledUp P entry leaf level := by
  rw [KeyTransparency.rolledUp, KeyTransparency.rolledUp, a.index, ← List.map_drop, ← List.map_drop, a.copath]

theorem combine (a : AgreesFrom copath.length entry entry') :
    combineCopaths copath entry'.copath = combineCopaths copath entry.copath := by
  have happend : ∀ secondary : List ParentNode,
      combineCopaths copath secondary = copath ++ secondary.drop copath.length := by
    intro secondary
    unfold combineCopaths
    split_ifs with hle
    · rw [List.drop_of_length_le hle, List.append_nil]
    · rfl
  rw [happend, happend, a.copath]

end LogEntry.AgreesFrom

private theorem stepLoop_congr (hleaf : entry.leaf.isSome) :
    ∀ {fuel : ℕ} {copath : List ParentNode}, fuel ≤ 256 - copath.length →
      LogEntry.AgreesFrom copath.length entry entry' →
      outcome (PrefixTree.stepLoop P t ptr (.new entry') fuel copath) =
        outcome (PrefixTree.stepLoop P t ptr (.new entry) fuel copath)
  | 0, copath, _, a => by
    obtain ⟨leaf, hl⟩ := Option.isSome_iff_exists.1 hleaf
    unfold PrefixTree.stepLoop
    simp [CachedLogEntry.new, outcome, a.leaf, hl]
  | fuel + 1, copath, hf, a => by
    obtain ⟨leaf, hl⟩ := Option.isSome_iff_exists.1 hleaf
    have hl' : entry'.leaf = some leaf := a.leaf.trans hl
    have hlen : ∀ node : ParentNode, (copath ++ [node]).length = copath.length + 1 := fun node => by
      rw [List.length_append, List.length_singleton]
    have hroll : ((CachedLogEntry.new entry').rollup P (copath.length + 1)).1 =
        ((CachedLogEntry.new entry).rollup P (copath.length + 1)).1 := by
      rw [(CachedLogEntry.rollup_eq (c := .new entry') (P := P) (l := copath.length + 1) hl'
          (CachedLogEntry.filled_new entry') (by omega)).1,
        (CachedLogEntry.rollup_eq (c := .new entry) (P := P) (l := copath.length + 1) hl
          (CachedLogEntry.filled_new entry) (by omega)).1]
      exact (a.later (Nat.le_succ _)).rolledUp leaf
    have hrest : ∀ node : ParentNode,
        outcome (PrefixTree.stepLoop P t ptr (.new entry') fuel (copath ++ [node])) =
          outcome (PrefixTree.stepLoop P t ptr (.new entry) fuel (copath ++ [node])) := fun node =>
      stepLoop_congr hleaf (by rw [hlen]; omega) (by rw [hlen]; exact a.later (Nat.le_succ _))
    have hinner : ∀ e : LogEntry, (CachedLogEntry.new e).inner = e := fun _ => rfl
    unfold PrefixTree.stepLoop
    dsimp only
    rw [hinner, hinner, a.getElem?, a.index, a.position, hl', hl, hroll]
    cases entry.copath[copath.length]? with
    | some parent =>
      dsimp only
      split_ifs
      · exact hrest parent
      · cases parent.ptr <;> rfl
    | none =>
      dsimp only
      rw [if_neg (Option.some_ne_none leaf), if_neg (Option.some_ne_none leaf)]
      split_ifs
      · exact hrest _
      · rfl

/-- **A step asks an entry** for what it holds from the level on that the walk has come to. -/
theorem step_congr (hleaf : entry.leaf.isSome) (a : LogEntry.AgreesFrom copath.length entry entry') :
    outcome (PrefixTree.step P t ptr copath (.new entry')) =
      outcome (PrefixTree.step P t ptr copath (.new entry)) := by
  have hinner : ∀ e : LogEntry, (CachedLogEntry.new e).inner = e := fun _ => rfl
  unfold PrefixTree.step
  rw [hinner, hinner, a.leaf, a.index]
  split_ifs
  · have hsame : ({ entry' with copath := combineCopaths copath entry'.copath } : LogEntry) =
        { entry with copath := combineCopaths copath entry.copath } := by
      rw [a.combine]
      cases entry
      cases entry'
      obtain ⟨rfl, rfl, rfl, -⟩ := a
      rfl
    simp only [outcome, Except.map, hsame]
  · exact stepLoop_congr hleaf le_rfl a

/-! ### Entries that are right where they are asked -/

/-- **The entries of a history, mended**: at each level at which an insertion is the last one
below its path, its entry is from there on one that was made in order. -/
def Mended (P : Primitives) (h : List Insertion) (entries : ℕ → Option LogEntry) : Prop :=
  ∀ t level y before, IsKey t → level ≤ 256 → Standing h t level y before →
    ∃ entry entry', entries y.position = some entry ∧ EntryFor P before y entry' ∧
      LogEntry.AgreesFrom level entry' entry

namespace Mended

variable {entries : ℕ → Option LogEntry}

theorem coldSearch_walk (hm : Mended P h entries) (hk : KeysValid h) (ht : IsKey t) :
    ∀ {fuel : ℕ} {copath : List ParentNode} {y : Insertion}, 256 < copath.length + fuel →
      CopathFor P h t copath → latestBelow h ((keyBits t).take copath.length) = some y →
      ∃ found, coldSearch P entries t fuel y.position copath = .ok found ∧ EndsAs P h t found
  | 0, copath, y, hf, hc, _ => absurd hc.length_le (by omega)
  | fuel + 1, copath, y, hf, hc, hy => by
    obtain ⟨before, st⟩ := exists_standing hy
    obtain ⟨entry, entry', hentry, he, a⟩ := hm t copath.length y before ht hc.length_le st
    obtain ⟨ctr, hleaf⟩ := he.leaf
    obtain ⟨r, hr, hw⟩ := step_walk hk ht hc st he rfl
    unfold coldSearch
    rw [hentry, okOr_some, Result.ok_bind, step_congr (by rw [hleaf]; rfl) a, hr, Result.ok_bind]
    cases hw with
    | next z copath' hc' hlevel hz => exact hm.coldSearch_walk hk ht (by omega) hc' hz
    | found final copath' y' ctr' hfinal hcomplete hy' => exact ⟨_, rfl, y', ctr', hfinal, hcomplete, hy'⟩
    | failed copath' hc' hlevel hlast hnone =>
      have hlatest : latestBelow h (keyBits y.key) = some y := by
        rw [st.frozen _ st.on_path, latestBelow_cons_of List.prefix_rfl]
      exact ⟨_, rfl, hc', by omega, hlast, hnone, y, ctr, hlatest, a.index.trans he.index, a.leaf.trans hleaf⟩

/-- **A search from the last insertion** of a mended tree. -/
theorem search (hm : Mended P (x :: before) entries) (hk : KeysValid (x :: before)) (ht : IsKey t) :
    ∃ found, coldSearch P entries t (8 * indexLength + 1) x.position [] = .ok found ∧
      EndsAs P (x :: before) t found :=
  hm.coldSearch_walk hk ht (by simp [indexLength]) ⟨by simp, fun l node hnode => by simp at hnode⟩
    (latestBelow_cons_of List.nil_prefix)

end Mended

end KeyTransparency
