/-
# Finite maps and the lists of their entries

A hash map is iterated in an order of its own: any list of its entries (`Enumerates`).
Collecting such a list gives the map back (`collect_eq`), whatever the order, and collecting
the entries of an ordered map gives the ordered map (`OrderedMap.collect_entries`).
-/

import KeyTransparency.Library.OrderedMap
import Mathlib.Data.Finmap

namespace KeyTransparency

/-- A map from keys to values, without an order. -/
abbrev FiniteMap (α β : Type) : Type := Finmap fun _ : α => β

namespace FiniteMap

variable {α β : Type}

/-- A list has the entries of a map. -/
def Enumerates (l : List (α × β)) (m : FiniteMap α β) : Prop :=
  ((l.map fun e => ⟨e.1, e.2⟩ : List (Σ _ : α, β)) : Multiset (Σ _ : α, β)) = m.entries

/-- An order in which each map is iterated. -/
structure Iteration where
  order : ∀ {α β : Type}, FiniteMap α β → List (α × β)
  enumerates : ∀ {α β : Type} (m : FiniteMap α β), Enumerates (order m) m

/-- Some order. -/
noncomputable def Iteration.some : Iteration where
  order m := m.entries.toList.map fun e => (e.1, e.2)
  enumerates m := by
    rw [Enumerates, List.map_map]
    exact (congrArg _ (List.map_id _)).trans m.entries.coe_toList

theorem Enumerates.nodup {l : List (α × β)} {m : FiniteMap α β} (h : Enumerates l m) :
    (l.map Prod.fst).Nodup := by
  have hkeys := m.nodupKeys
  rw [← h, Multiset.coe_nodupKeys, List.NodupKeys, List.keys, List.map_map] at hkeys
  exact hkeys

variable [DecidableEq α]

/-- The map of a list of entries, of which the last one with a key counts. -/
def collect (l : List (α × β)) : FiniteMap α β := l.foldl (fun m e => m.insert e.1 e.2) ∅

theorem lookup_collect {l : List (α × β)} (h : (l.map Prod.fst).Nodup) {a : α} {b : β} :
    (collect l).lookup a = some b ↔ (a, b) ∈ l := by
  induction l using List.reverseRecOn with
  | nil => simp [collect]
  | append_singleton l e ih =>
    rw [List.map_append, List.nodup_append] at h
    obtain ⟨hl, -, hnew⟩ := h
    have hstep : collect (l ++ [e]) = (collect l).insert e.1 e.2 := List.foldl_append
    rw [hstep, List.mem_append, List.mem_singleton]
    by_cases ha : a = e.1
    · subst ha
      rw [Finmap.lookup_insert, Option.some.injEq]
      constructor
      · rintro rfl
        exact .inr rfl
      · rintro (hmem | heq)
        · exact absurd rfl (hnew _ (List.mem_map.2 ⟨_, hmem, rfl⟩) _ (by simp))
        · rw [← heq]
    · rw [Finmap.lookup_insert_of_ne _ ha, ih hl]
      constructor
      · exact .inl
      · rintro (hmem | heq)
        · exact hmem
        · exact absurd (congrArg Prod.fst heq) ha

theorem Enumerates.mem_iff {l : List (α × β)} {m : FiniteMap α β} (h : Enumerates l m) {a : α}
    {b : β} : (a, b) ∈ l ↔ m.lookup a = some b := by
  rw [Finmap.lookup_eq_some_iff, ← h, Multiset.mem_coe, List.mem_map]
  constructor
  · exact fun hmem => ⟨(a, b), hmem, rfl⟩
  · rintro ⟨⟨a', b'⟩, hmem, heq⟩
    cases heq
    exact hmem

/-- **A map is what its entries collect to**, in whatever order. -/
theorem collect_eq {l : List (α × β)} {m : FiniteMap α β} (h : Enumerates l m) : collect l = m := by
  refine Finmap.ext_lookup fun a => Option.ext fun b => ?_
  rw [lookup_collect h.nodup, h.mem_iff]

end FiniteMap

namespace OrderedMap

variable {α : Type*}

/-- **An ordered map is what its entries collect to.** -/
theorem collect_entries (m : OrderedMap α) : collect m.entries = m := by
  obtain ⟨entries, sorted⟩ := m
  induction entries using List.reverseRecOn with
  | nil => rfl
  | append_singleton l e ih =>
    obtain ⟨hl, -, hlast⟩ := List.pairwise_append.1 sorted
    have hstep : collect (l ++ [e]) = (collect l).insert e.1 e.2 := List.foldl_append
    rw [hstep, ih hl]
    have hbefore : l.filter (fun p => decide (p.1 < e.1)) = l :=
      List.filter_eq_self.2 fun p hp => decide_eq_true (hlast p hp e (by simp))
    have hafter : l.filter (fun p => decide (e.1 < p.1)) = [] :=
      List.filter_eq_nil_iff.2 fun p hp => by
        have := hlast p hp e (by simp)
        simp only [decide_eq_true_eq]
        omega
    simp only [insert, before, after, hbefore, hafter]

end OrderedMap

end KeyTransparency
