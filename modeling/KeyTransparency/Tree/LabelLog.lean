/-
# What a log says of a label

`LabelLog` is the view that the walks over a log rest on: the timestamp and the map of
each entry, and how the versions of one label lie in these maps.  A version's key is its
VRF output; from the entry that brought it on it is held with one commitment.  Timestamps
and greatest versions never decrease.

A search ladder shows how an entry's greatest version relates to its target
(`searchLadder_eq`): it ends early exactly where the two differ.
-/

import KeyTransparency.Crypto.PrefixPath
import KeyTransparency.Library.FirstSeen
import KeyTransparency.Tree.BinaryLadder
import KeyTransparency.Proto

namespace KeyTransparency

open BinaryLadder

structure LabelLog where
  size : ℕ
  timestamp : ℕ → U64
  contents : ℕ → Octets → Option Octets
  /-- The greatest version in an entry's map. -/
  greatest : ℕ → Option ℕ
  key : ℕ → Octets
  vrfProof : ℕ → Octets
  commitment : ℕ → Octets
  ordered : ∀ {e e' : ℕ}, e ≤ e' → e' < size → timestamp e ≤ timestamp e'
  growing : ∀ {e e' g : ℕ}, e ≤ e' → e' < size → greatest e = some g →
    ∃ g', greatest e' = some g' ∧ g ≤ g'
  lookup : ∀ {e v : ℕ}, e < size → v ≤ maxVersion →
    contents e (key v) = if (greatest e).any (v ≤ ·) then some (commitment v) else none
  small : ∀ {e g : ℕ}, e < size → greatest e = some g → g ≤ maxVersion

namespace LabelLog

variable (L : LabelLog)

/-- Whether a version exists at an entry. -/
def present (e v : ℕ) : Bool := (L.greatest e).any (v ≤ ·)

/-- The prefix root of an entry. -/
def root (P : Primitives) (e : ℕ) : Octets := prefixRoot P (L.contents e)

/-- The leaf hashes of the log. -/
def leaves (P : Primitives) : List Octets :=
  (List.range L.size).map fun e => logLeafValue P (L.timestamp e) (L.root P e)

/-- How an entry's greatest version relates to a target. -/
def relation (target e : ℕ) : Ordering :=
  match L.greatest e with
  | none => .lt
  | some g => compare g target

@[simp] theorem length_leaves (P : Primitives) : (L.leaves P).length = L.size := by simp [leaves]

variable {L} {e e' v g target : ℕ}

theorem present_eq (h : L.greatest e = some g) : L.present e v = decide (v ≤ g) := by
  simp [present, h]

theorem present_of_none (h : L.greatest e = none) : L.present e v = false := by
  simp [present, h]

theorem contents_key (he : e < L.size) (hv : v ≤ maxVersion) :
    L.contents e (L.key v) = if L.present e v then some (L.commitment v) else none := L.lookup he hv

theorem present_iff : L.present e v = true ↔ ∃ g, L.greatest e = some g ∧ v ≤ g := by
  rw [present]
  cases L.greatest e with
  | none => simp
  | some g => simp

/-- What exists goes on existing. -/
theorem present_later (h : L.present e v = true) (he : e ≤ e') (he' : e' < L.size) :
    L.present e' v = true := by
  obtain ⟨g, hg, hv⟩ := present_iff.1 h
  obtain ⟨g', hg', hle⟩ := L.growing he he' hg
  exact present_iff.2 ⟨g', hg', hv.trans hle⟩

theorem relation_eq_lt : L.relation target e = .lt ↔ (L.greatest e).all (· < target) = true := by
  rw [relation]
  cases L.greatest e with
  | none => simp
  | some g => simp [compare_lt_iff_lt]

theorem relation_eq_gt : L.relation target e = .gt ↔ (L.greatest e).any (target < ·) = true := by
  rw [relation]
  cases L.greatest e with
  | none => simp
  | some g => simp [compare_gt_iff_gt]

theorem relation_eq_eq : L.relation target e = .eq ↔ L.greatest e = some target := by
  rw [relation]
  cases L.greatest e with
  | none => simp
  | some g => simp

end LabelLog

end KeyTransparency
