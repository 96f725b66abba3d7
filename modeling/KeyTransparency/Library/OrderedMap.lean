/-
# Ordered maps

Maps from numbers whose entries are listed in the order of their keys.  The order is
a field of a map, so that a key occurs once in it.
-/

import Mathlib.Data.List.Induction
import Mathlib.Data.List.Pairwise
import Mathlib.Data.Nat.Notation

namespace KeyTransparency

structure OrderedMap (α : Type*) where
  entries : List (ℕ × α)
  sorted : entries.Pairwise fun a b => a.1 < b.1

namespace OrderedMap

variable {α : Type*} {m : OrderedMap α} {k k' : ℕ} {a b : α}

def empty : OrderedMap α := ⟨[], List.Pairwise.nil⟩

def get (m : OrderedMap α) (k : ℕ) : Option α := m.entries.lookup k

/-- The entries left of a key. -/
def before (m : OrderedMap α) (k : ℕ) : List (ℕ × α) := m.entries.filter (·.1 < k)

/-- The entries right of a key. -/
def after (m : OrderedMap α) (k : ℕ) : List (ℕ × α) := m.entries.filter (k < ·.1)

def erase (m : OrderedMap α) (k : ℕ) : OrderedMap α :=
  ⟨m.entries.filter (·.1 ≠ k), m.sorted.sublist List.filter_sublist⟩

@[simp] theorem mem_before {p : ℕ × α} : p ∈ m.before k ↔ p ∈ m.entries ∧ p.1 < k := by
  simp [before]

@[simp] theorem mem_after {p : ℕ × α} : p ∈ m.after k ↔ p ∈ m.entries ∧ k < p.1 := by
  simp [after]

theorem before_sublist (m : OrderedMap α) (k : ℕ) : (m.before k).Sublist m.entries :=
  List.filter_sublist

theorem after_sublist (m : OrderedMap α) (k : ℕ) : (m.after k).Sublist m.entries :=
  List.filter_sublist

/-- What holds between all entries and on both sides of a new one holds after it is
put in its place. -/
theorem pairwise_insert {R : ℕ × α → ℕ × α → Prop} (h : m.entries.Pairwise R)
    (hbefore : ∀ p ∈ m.before k, R p (k, a)) (hafter : ∀ p ∈ m.after k, R (k, a) p)
    (hacross : ∀ p ∈ m.before k, ∀ q ∈ m.after k, R p q) :
    (m.before k ++ (k, a) :: m.after k).Pairwise R := by
  refine List.pairwise_append.2 ⟨h.sublist (m.before_sublist k),
    List.pairwise_cons.2 ⟨hafter, h.sublist (m.after_sublist k)⟩, fun p hp q hq => ?_⟩
  rcases List.mem_cons.1 hq with rfl | hq
  · exact hbefore p hp
  · exact hacross p hp q hq

def insert (m : OrderedMap α) (k : ℕ) (a : α) : OrderedMap α where
  entries := m.before k ++ (k, a) :: m.after k
  sorted := pairwise_insert m.sorted (fun _ hp => (mem_before.1 hp).2)
    (fun _ hq => (mem_after.1 hq).2) fun _ hp _ hq =>
      Nat.lt_trans (mem_before.1 hp).2 (mem_after.1 hq).2

/-- The map of a list of entries, of which the last one with a key counts. -/
def collect (l : List (ℕ × α)) : OrderedMap α := l.foldl (fun m e => m.insert e.1 e.2) empty

theorem get_eq_some : m.get k = some a ↔ (k, a) ∈ m.entries := by
  have key : ∀ l : List (ℕ × α), (l.Pairwise fun p q => p.1 < q.1) →
      (l.lookup k = some a ↔ (k, a) ∈ l) := by
    intro l hl
    induction l with
    | nil => simp
    | cons p l ih =>
      obtain ⟨hp, hl⟩ := List.pairwise_cons.1 hl
      rw [List.lookup_cons, List.mem_cons]
      split
      · rename_i heq
        obtain rfl := eq_of_beq heq
        constructor
        · rintro h
          exact .inl (by rw [← Option.some.inj h])
        · rintro (h | h)
          · rw [← h]
          · exact absurd (hp _ h) (Nat.lt_irrefl _)
      · rename_i heq
        rw [ih hl]
        constructor
        · exact .inr
        · rintro (h | h)
          · rw [← h] at heq
            simp at heq
          · exact h
  exact key m.entries m.sorted

@[simp] theorem get_empty : (empty : OrderedMap α).get k = none := rfl

theorem get_insert : (m.insert k a).get k' = if k' = k then some a else m.get k' := by
  refine Option.ext fun b => ?_
  rw [get_eq_some, insert, List.mem_append, List.mem_cons, mem_before, mem_after]
  by_cases h : k' = k
  · subst h
    simp [eq_comm]
  · rw [if_neg h, get_eq_some]
    simp only [Prod.mk.injEq, h, false_and, false_or]
    constructor
    · rintro (⟨h, -⟩ | ⟨h, -⟩) <;> exact h
    · intro hm
      rcases Nat.lt_or_gt_of_ne h with h | h
      · exact .inl ⟨hm, h⟩
      · exact .inr ⟨hm, h⟩

theorem mem_insert {e : ℕ × α} :
    e ∈ (m.insert k a).entries ↔ e ∈ m.entries ∧ e.1 ≠ k ∨ e = (k, a) := by
  obtain ⟨k', b⟩ := e
  rw [← get_eq_some, ← get_eq_some, get_insert]
  by_cases h : k' = k
  · subst h
    simp [eq_comm]
  · simp [h]

/-- A collected map has the entries of the list, if these agree on each key. -/
theorem mem_collect {l : List (ℕ × α)} {e : ℕ × α}
    (h : ∀ e ∈ l, ∀ e' ∈ l, e.1 = e'.1 → e = e') : e ∈ (collect l).entries ↔ e ∈ l := by
  induction l using List.reverseRecOn with
  | nil => simp [collect, empty]
  | append_singleton l e' ih =>
    have hl : ∀ x ∈ l, ∀ y ∈ l, x.1 = y.1 → x = y := fun x hx y hy =>
      h x (List.mem_append_left _ hx) y (List.mem_append_left _ hy)
    have hstep : collect (l ++ [e']) = (collect l).insert e'.1 e'.2 := List.foldl_append
    rw [hstep, mem_insert, ih hl, List.mem_append, List.mem_singleton]
    constructor
    · rintro (⟨he, -⟩ | he)
      · exact .inl he
      · exact .inr he
    · rintro (he | he)
      · by_cases hk : e.1 = e'.1
        · exact .inr (h e (List.mem_append_left _ he) e' (List.mem_append_right _
            (List.mem_singleton_self _)) hk)
        · exact .inl ⟨he, hk⟩
      · exact .inr he

theorem get_erase : (m.erase k).get k' = if k' = k then none else m.get k' := by
  refine Option.ext fun b => ?_
  rw [get_eq_some, erase, List.mem_filter]
  by_cases h : k' = k
  · simp [h]
  · simp [h, get_eq_some]

/-- What holds of all entries holds of them after an insertion, and of what is left
after a removal. -/
theorem forall_insert {Q : ℕ × α → Prop} (h : ∀ e ∈ m.entries, Q e) (hnew : Q (k, a)) :
    ∀ e ∈ (m.insert k a).entries, Q e := by
  intro e he
  rcases List.mem_append.1 he with he | he
  · exact h e (mem_before.1 he).1
  · rcases List.mem_cons.1 he with rfl | he
    · exact hnew
    · exact h e (mem_after.1 he).1

theorem forall_erase {Q : ℕ × α → Prop} (h : ∀ e ∈ m.entries, Q e) :
    ∀ e ∈ (m.erase k).entries, Q e :=
  fun e he => h e (List.mem_filter.1 he).1

@[simp] theorem get_insert_self : (m.insert k a).get k = some a := by rw [get_insert, if_pos rfl]

theorem get_insert_of_ne (h : k' ≠ k) : (m.insert k a).get k' = m.get k' := by
  rw [get_insert, if_neg h]

@[simp] theorem get_erase_self : (m.erase k).get k = none := by rw [get_erase, if_pos rfl]

theorem get_erase_of_ne (h : k' ≠ k) : (m.erase k).get k' = m.get k' := by
  rw [get_erase, if_neg h]

/-- The entry of the next key on the left is the last one before the key. -/
theorem le_getLast_before {R : α → α → Prop} (hR : ∀ {a b c}, R a b → R b c → R a c)
    (h : m.entries.Pairwise fun p q => R p.2 q.2)
    (hlast : ∀ p ∈ (m.before k).getLast?, R p.2 a) : ∀ p ∈ m.before k, R p.2 a := by
  intro p hp
  have hsub := h.sublist (m.before_sublist k)
  obtain ⟨init, last, heq⟩ := (List.eq_nil_or_concat (m.before k)).resolve_left
    (List.ne_nil_of_mem hp)
  rw [heq, List.concat_eq_append] at hsub hlast hp
  have hl := hlast last (by simp)
  rcases List.mem_append.1 hp with hp | hp
  · exact hR ((List.pairwise_append.1 hsub).2.2 p hp last (by simp)) hl
  · rwa [List.mem_singleton.1 hp]

/-- The entry of the next key on the right is the first one after the key. -/
theorem le_head_after {R : α → α → Prop} (hR : ∀ {a b c}, R a b → R b c → R a c)
    (h : m.entries.Pairwise fun p q => R p.2 q.2)
    (hhead : ∀ p ∈ (m.after k).head?, R a p.2) : ∀ p ∈ m.after k, R a p.2 := by
  intro p hp
  have hsub := h.sublist (m.after_sublist k)
  cases hrest : m.after k with
  | nil => exact absurd (hrest ▸ hp) List.not_mem_nil
  | cons first rest =>
    rw [hrest] at hsub hhead hp
    have hf := hhead first rfl
    rcases List.mem_cons.1 hp with rfl | hp
    · exact hf
    · exact hR hf ((List.pairwise_cons.1 hsub).1 p hp)

end OrderedMap

end KeyTransparency
