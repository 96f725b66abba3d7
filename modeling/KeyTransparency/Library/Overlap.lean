/-
# Overlapping lists

Two lists that are windows of one sequence, each cut to the length of the shorter one at
its end, overlap when an end of one is a beginning of the other.  Members that are told
apart by a function may be exchanged for their images (`overlaps_map`), lists that overlap
have a member in common, and of two lists that begin one sequence the shorter one must
have more than half of the members (`overlaps_take`).
-/

import Mathlib.Data.List.DropRight
import Mathlib.Data.List.Nodup

namespace List

variable {α β : Type*} {l l' : List α}

/-- **Two lists overlap**, cut to their common length at their ends. -/
def Overlaps (l l' : List α) : Prop :=
  ∃ x < min l.length l'.length,
    (l.rtake (min l.length l'.length)).take (min l.length l'.length - x) =
        (l'.rtake (min l.length l'.length)).drop x ∨
      (l'.rtake (min l.length l'.length)).take (min l.length l'.length - x) =
        (l.rtake (min l.length l'.length)).drop x

theorem length_rtake_of_le {n : ℕ} (h : n ≤ l.length) : (l.rtake n).length = n := by
  rw [rtake, length_drop]
  omega

theorem mem_of_mem_rtake {n : ℕ} {a : α} (h : a ∈ l.rtake n) : a ∈ l := mem_of_mem_drop h

theorem map_rtake (f : α → β) (n : ℕ) : (l.map f).rtake n = (l.rtake n).map f := by
  rw [rtake, rtake, length_map, map_drop]

/-- Lists have the same image when they are the same. -/
theorem map_eq_map_iff_of_inj {f : α → β} (hf : ∀ a ∈ l, ∀ b ∈ l', f a = f b → a = b) :
    l.map f = l'.map f ↔ l = l' := by
  refine ⟨fun h => ?_, congrArg _⟩
  induction l generalizing l' with
  | nil => exact (map_eq_nil_iff.1 h.symm).symm
  | cons a l ih =>
    cases l' with
    | nil => cases h
    | cons b l' =>
      obtain ⟨hab, hl⟩ := List.cons.inj h
      rw [hf a mem_cons_self b mem_cons_self hab,
        ih (fun a ha b hb => hf a (mem_cons_of_mem _ ha) b (mem_cons_of_mem _ hb)) hl]

/-- **The images overlap** when the lists do. -/
theorem overlaps_map {f : α → β} (hf : ∀ a ∈ l, ∀ b ∈ l', f a = f b → a = b) :
    (l.map f).Overlaps (l'.map f) ↔ l.Overlaps l' := by
  rw [Overlaps, Overlaps, length_map, length_map, map_rtake, map_rtake]
  refine exists_congr fun x => and_congr_right fun _ => or_congr ?_ ?_
  · rw [← map_take, ← map_drop]
    exact map_eq_map_iff_of_inj fun a ha b hb =>
      hf a (mem_of_mem_rtake (mem_of_mem_take ha)) b (mem_of_mem_rtake (mem_of_mem_drop hb))
  · rw [← map_take, ← map_drop]
    exact map_eq_map_iff_of_inj fun b hb a ha heq =>
      (hf a (mem_of_mem_rtake (mem_of_mem_drop ha)) b (mem_of_mem_rtake (mem_of_mem_take hb)) heq.symm).symm

/-- Lists that overlap have a member in common. -/
theorem Overlaps.exists_mem (h : l.Overlaps l') : ∃ a ∈ l, a ∈ l' := by
  obtain ⟨x, hx, h⟩ := h
  have hlen : (l.rtake (min l.length l'.length)).length = min l.length l'.length :=
    length_rtake_of_le (min_le_left _ _)
  have hlen' : (l'.rtake (min l.length l'.length)).length = min l.length l'.length :=
    length_rtake_of_le (min_le_right _ _)
  rcases h with h | h
  · obtain ⟨a, ha⟩ := exists_mem_of_length_pos (l := (l.rtake (min l.length l'.length)).take
      (min l.length l'.length - x)) (by rw [length_take]; omega)
    exact ⟨a, mem_of_mem_rtake (mem_of_mem_take ha), mem_of_mem_rtake (mem_of_mem_drop (h ▸ ha))⟩
  · obtain ⟨a, ha⟩ := exists_mem_of_length_pos (l := (l'.rtake (min l.length l'.length)).take
      (min l.length l'.length - x)) (by rw [length_take]; omega)
    exact ⟨a, mem_of_mem_rtake (mem_of_mem_drop (h ▸ ha)), mem_of_mem_rtake (mem_of_mem_take ha)⟩

/-- **A beginning overlaps the whole list** when it is more than half of it. -/
theorem overlaps_take (hl : l.Nodup) {k : ℕ} (hk : k ≤ l.length) :
    (l.take k).Overlaps l ↔ l.length < 2 * k := by
  have hmin : min (l.take k).length l.length = k := by rw [length_take]; omega
  have hleft : (l.take k).rtake k = l.take k := by
    rw [rtake, length_take, Nat.min_eq_left hk, Nat.sub_self, drop_zero]
  rw [Overlaps, hmin, hleft, rtake]
  constructor
  · rintro ⟨x, hx, h | h⟩
    · -- the first member of the list is at its first place
      have hget := congrArg (fun l => l[0]?) h
      simp only [getElem?_take, getElem?_drop] at hget
      rw [if_pos (by omega), if_pos (by omega), getElem?_eq_getElem (by omega),
        getElem?_eq_getElem (by omega)] at hget
      have := (hl.getElem_inj_iff).1 (Option.some.inj hget)
      omega
    · have hget := congrArg (fun l => l[0]?) h
      simp only [getElem?_take, getElem?_drop] at hget
      rw [if_pos (by omega), if_pos (by omega), getElem?_eq_getElem (by omega),
        getElem?_eq_getElem (by omega)] at hget
      have := (hl.getElem_inj_iff).1 (Option.some.inj hget)
      omega
  · intro h
    refine ⟨l.length - k, by omega, .inr ?_⟩
    rw [drop_take]

end List
