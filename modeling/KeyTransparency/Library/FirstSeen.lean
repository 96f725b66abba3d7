/-
# The order of first occurrence

A list without its repetitions, each element where it occurs first (`firstSeen`).  It
grows at its end when the list does, so that what comes first keeps its place.
-/

import Mathlib.Data.List.Induction
import Mathlib.Data.List.Nodup
import Mathlib.Data.List.Perm.Subperm
import Mathlib.Tactic.SplitIfs

namespace KeyTransparency

variable {α : Type*} [DecidableEq α]

/-- Appends an element unless it is there already. -/
def appendNew (l : List α) (a : α) : List α := if a ∈ l then l else l ++ [a]

/-- The elements of a list in the order of their first occurrence, after those of
another list. -/
def firstSeenAfter (seen l : List α) : List α := l.foldl appendNew seen

/-- The elements of a list in the order of their first occurrence. -/
def firstSeen (l : List α) : List α := firstSeenAfter [] l

variable {a : α} {l l' seen : List α}

theorem appendNew_of_mem (h : a ∈ l) : appendNew l a = l := if_pos h

theorem appendNew_of_not_mem (h : a ∉ l) : appendNew l a = l ++ [a] := if_neg h

@[simp] theorem mem_appendNew {b : α} : b ∈ appendNew l a ↔ b ∈ l ∨ b = a := by
  rw [appendNew]
  split_ifs with h
  · constructor
    · exact .inl
    · rintro (hb | rfl)
      · exact hb
      · exact h
  · simp

theorem nodup_appendNew (h : l.Nodup) : (appendNew l a).Nodup := by
  rw [appendNew]
  split_ifs with ha
  · exact h
  · exact List.nodup_append.2 ⟨h, List.nodup_singleton a, fun x hx y hy hxy =>
      ha (List.mem_singleton.1 hy ▸ hxy ▸ hx)⟩

theorem prefix_appendNew (l : List α) (a : α) : l <+: appendNew l a := by
  rw [appendNew]
  split_ifs
  · exact List.prefix_rfl
  · exact List.prefix_append l [a]

@[simp] theorem firstSeenAfter_nil : firstSeenAfter seen ([] : List α) = seen := rfl

@[simp] theorem firstSeenAfter_cons :
    firstSeenAfter seen (a :: l) = firstSeenAfter (appendNew seen a) l := rfl

theorem firstSeenAfter_append :
    firstSeenAfter seen (l ++ l') = firstSeenAfter (firstSeenAfter seen l) l' :=
  List.foldl_append

@[simp] theorem mem_firstSeenAfter {b : α} : b ∈ firstSeenAfter seen l ↔ b ∈ seen ∨ b ∈ l := by
  induction l generalizing seen with
  | nil => simp
  | cons a l ih => rw [firstSeenAfter_cons, ih, mem_appendNew, List.mem_cons, or_assoc]

theorem nodup_firstSeenAfter (h : seen.Nodup) : (firstSeenAfter seen l).Nodup := by
  induction l generalizing seen with
  | nil => exact h
  | cons a l ih => exact ih (nodup_appendNew h)

theorem prefix_firstSeenAfter (seen l : List α) : seen <+: firstSeenAfter seen l := by
  induction l generalizing seen with
  | nil => exact List.prefix_rfl
  | cons a l ih => exact (prefix_appendNew seen a).trans (ih _)

/-- Nothing new comes from elements that are there already. -/
theorem firstSeenAfter_of_subset (h : ∀ a ∈ l, a ∈ seen) : firstSeenAfter seen l = seen := by
  induction l with
  | nil => rfl
  | cons a l ih =>
    rw [firstSeenAfter_cons, appendNew_of_mem (h a List.mem_cons_self)]
    exact ih fun b hb => h b (List.mem_cons_of_mem _ hb)

theorem firstSeen_append : firstSeen (l ++ l') = firstSeenAfter (firstSeen l) l' :=
  firstSeenAfter_append

theorem firstSeen_concat : firstSeen (l ++ [a]) = appendNew (firstSeen l) a := firstSeen_append

@[simp] theorem mem_firstSeen : a ∈ firstSeen l ↔ a ∈ l := by simp [firstSeen]

theorem nodup_firstSeen (l : List α) : (firstSeen l).Nodup := nodup_firstSeenAfter List.nodup_nil

/-- A new element stands where the ones seen before it end. -/
theorem getElem?_firstSeenAfter (h : a ∉ seen) :
    (firstSeenAfter seen (a :: l))[seen.length]? = some a := by
  obtain ⟨rest, hrest⟩ := prefix_firstSeenAfter (seen ++ [a]) l
  rw [firstSeenAfter_cons, appendNew_of_not_mem h, ← hrest]
  simp

/-- **The beginnings of one list without repetitions** are seen in its order. -/
theorem firstSeenAfter_beginning {b : List α} (hb : b.Nodup) (hseen : seen <+: b) (hl : l <+: b) :
    firstSeenAfter seen l = if l.length ≤ seen.length then seen else l := by
  induction l using List.reverseRecOn with
  | nil => simp
  | append_singleton l a ih =>
    have hl' : l <+: b := (List.prefix_append l [a]).trans hl
    rw [firstSeenAfter_append, ih hl', firstSeenAfter_cons, firstSeenAfter_nil, List.length_append,
      List.length_singleton]
    obtain ⟨rest, rfl⟩ := hl
    rw [List.append_assoc, List.singleton_append] at hb hseen
    have ha : a ∉ l := fun h => (List.nodup_append.1 hb).2.2 a h a List.mem_cons_self rfl
    split_ifs with h₁ h₂ h₂
    · refine appendNew_of_mem ?_
      have hpre : l ++ [a] <+: seen := List.prefix_of_prefix_length_le
        (by simp) hseen (by simpa using h₂)
      exact hpre.subset (by simp)
    · have hlen : l.length = seen.length := by omega
      have heq : seen = l := List.IsPrefix.eq_of_length
        (List.prefix_of_prefix_length_le hseen (List.prefix_append l (a :: rest)) (by omega)) hlen.symm
      rw [heq, appendNew_of_not_mem ha]
    · omega
    · exact appendNew_of_not_mem ha

/-- The beginnings of a list, one after the other, are no more than it. -/
theorem firstSeenAfter_beginnings {b : List α} (hb : b.Nodup) : ∀ {ls : List (List α)} {seen : List α},
    seen <+: b → (∀ l ∈ ls, l <+: b) → firstSeenAfter seen ls.flatten <+: b
  | [], _, hseen, _ => hseen
  | l :: ls, seen, hseen, h => by
    rw [List.flatten_cons, firstSeenAfter_append]
    refine firstSeenAfter_beginnings hb ?_ fun l' hl' => h l' (List.mem_cons_of_mem _ hl')
    rw [firstSeenAfter_beginning hb hseen (h l List.mem_cons_self)]
    split_ifs
    · exact hseen
    · exact h l List.mem_cons_self

/-- **Beginnings of a list, the whole list among them,** are seen as the list. -/
theorem firstSeen_beginnings {b : List α} (hb : b.Nodup) {ls : List (List α)} (h : ∀ l ∈ ls, l <+: b)
    (hmem : b ∈ ls) : firstSeen ls.flatten = b := by
  have hpre : firstSeen ls.flatten <+: b := firstSeenAfter_beginnings hb List.nil_prefix h
  refine hpre.eq_of_length_le ((List.subperm_of_subset hb fun a ha => ?_).length_le)
  exact mem_firstSeen.2 (List.mem_flatten.2 ⟨b, hmem, ha⟩)

end KeyTransparency
