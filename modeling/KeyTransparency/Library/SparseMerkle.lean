/-
# Sparse Merkle trees

A map from bit strings of one length to values is hashed as a perfect binary tree
whose empty subtrees all have the value `zero` (`value`, `hash`).  `fold` computes
a value from a path, the values beside it and a start value.

* `fold_hash`: from the true values beside the path, `fold` computes the value of
  the tree;
* `fold_binding`: a value determines the start value it was folded from, if the
  parent function is injective once one child is known to be a digest (`Scheme`)
  and no parent is `zero`.
-/

import Mathlib.Data.List.GetD
import Mathlib.Data.Nat.Init

namespace SparseMerkle

variable {V : Type*}

/-- A parent function with a value for empty subtrees. -/
structure Scheme (V : Type*) where
  par : V → V → V
  zero : V
  /-- The values that have the size of a digest. -/
  Digest : V → Prop
  zero_digest : Digest zero
  par_digest : ∀ l r, Digest (par l r)
  par_ne_zero : ∀ l r, par l r ≠ zero
  par_inj_left : ∀ {l r l' r'}, Digest l → Digest l' → par l r = par l' r' → l = l' ∧ r = r'
  par_inj_right : ∀ {l r l' r'}, Digest r → Digest r' → par l r = par l' r' → l = l' ∧ r = r'

section Value

variable (par : V → V → V) (zero : V)

/-- The parent of the child on the side of the bit and the one beside it. -/
def branch (b : Bool) (beside v : V) : V := if b then par beside v else par v beside

/-- The value above two subtrees, none when both are empty. -/
def join : Option V → Option V → Option V
  | none, none => none
  | l, r => some (par (l.getD zero) (r.getD zero))

/-- The value of the subtree of height `d` below a path, none when it is empty. -/
def value (leaves : List Bool → Option V) : ℕ → List Bool → Option V
  | 0, p => leaves p
  | d + 1, p => join par zero (value leaves d (p ++ [false])) (value leaves d (p ++ [true]))

/-- The value of the subtree of height `d` below a path. -/
def hash (leaves : List Bool → Option V) (d : ℕ) (p : List Bool) : V :=
  (value par zero leaves d p).getD zero

variable {par zero} {leaves leaves' : List Bool → Option V}

@[simp] theorem join_eq_none {l r : Option V} : join par zero l r = none ↔ l = none ∧ r = none := by
  cases l <;> cases r <;> simp [join]

/-- **A subtree is empty** when no leaf lies below it. -/
theorem value_eq_none_iff :
    ∀ {d : ℕ} {p : List Bool}, value par zero leaves d p = none ↔
      ∀ q : List Bool, q.length = d → leaves (p ++ q) = none
  | 0, p => by
    rw [value]
    constructor
    · intro h q hq
      rw [List.length_eq_zero_iff.1 hq, List.append_nil]
      exact h
    · exact fun h => by simpa using h [] rfl
  | d + 1, p => by
    rw [value, join_eq_none, value_eq_none_iff, value_eq_none_iff]
    constructor
    · rintro ⟨h₀, h₁⟩ q hq
      cases q with
      | nil => simp at hq
      | cons b q =>
        have hq' : q.length = d := by simpa using hq
        rw [show p ++ b :: q = p ++ [b] ++ q by simp]
        cases b
        · exact h₀ q hq'
        · exact h₁ q hq'
    · intro h
      refine ⟨fun q hq => ?_, fun q hq => ?_⟩
      · simpa using h (false :: q) (by simpa using hq)
      · simpa using h (true :: q) (by simpa using hq)

theorem hash_of_empty {d : ℕ} {p : List Bool}
    (h : ∀ q : List Bool, q.length = d → leaves (p ++ q) = none) :
    hash par zero leaves d p = zero := by
  rw [hash, value_eq_none_iff.2 h, Option.getD_none]

/-- **A value depends on the leaves below it only.** -/
theorem value_congr :
    ∀ {d : ℕ} {p : List Bool}, (∀ q : List Bool, q.length = d → leaves (p ++ q) = leaves' (p ++ q)) →
      value par zero leaves d p = value par zero leaves' d p
  | 0, p, h => by simpa [value] using h [] rfl
  | d + 1, p, h => by
    rw [value, value,
      value_congr (p := p ++ [false]) fun q hq => by
        simpa using h (false :: q) (by simpa using hq),
      value_congr (p := p ++ [true]) fun q hq => by simpa using h (true :: q) (by simpa using hq)]

theorem hash_congr {d : ℕ} {p : List Bool}
    (h : ∀ q : List Bool, q.length = d → leaves (p ++ q) = leaves' (p ++ q)) :
    hash par zero leaves d p = hash par zero leaves' d p := by
  rw [hash, hash, value_congr h]

/-- A nonempty subtree has a leaf. -/
theorem exists_leaf {d : ℕ} {p : List Bool}
    (h : value par zero leaves d p ≠ none) :
    ∃ q : List Bool, q.length = d ∧ leaves (p ++ q) ≠ none := by
  refine Classical.byContradiction fun hn => h (value_eq_none_iff.2 fun q hq => ?_)
  exact Classical.byContradiction fun hq' => hn ⟨q, hq, hq'⟩

/-- A subtree with a leaf has the value of its two children. -/
theorem hash_succ {d : ℕ} {p : List Bool}
    (h : ∃ q : List Bool, q.length = d + 1 ∧ leaves (p ++ q) ≠ none) :
    hash par zero leaves (d + 1) p =
      par (hash par zero leaves d (p ++ [false])) (hash par zero leaves d (p ++ [true])) := by
  obtain ⟨q, hq, hne⟩ := h
  rw [hash, hash, hash, value]
  cases hl : value par zero leaves d (p ++ [false]) <;>
    cases hr : value par zero leaves d (p ++ [true]) <;> simp only [join, Option.getD]
  have hnone : value par zero leaves (d + 1) p = none := by
    rw [value, join_eq_none]
    exact ⟨hl, hr⟩
  exact absurd (value_eq_none_iff.1 hnone q hq) hne

theorem hash_succ_branch {d : ℕ} {p : List Bool} (b : Bool)
    (h : ∃ q : List Bool, q.length = d + 1 ∧ leaves (p ++ q) ≠ none) :
    hash par zero leaves (d + 1) p =
      branch par b (hash par zero leaves d (p ++ [!b])) (hash par zero leaves d (p ++ [b])) := by
  rw [hash_succ h]
  cases b <;> rfl

/-! ### Paths -/

/-- The value that a start value at the end of a path has at its beginning, with the
values beside it; where these run out they are `zero`. -/
def fold (par : V → V → V) (zero : V) : List Bool → List V → V → V
  | [], _, v => v
  | b :: bs, [], v => branch par b zero (fold par zero bs [] v)
  | b :: bs, s :: ss, v => branch par b s (fold par zero bs ss v)

theorem fold_cons (b : Bool) (bs : List Bool) (ss : List V) (v : V) :
    fold par zero (b :: bs) ss v =
      branch par b (ss.headD zero) (fold par zero bs ss.tail v) := by
  cases ss <;> rfl

theorem fold_append (bs bs' : List Bool) (ss : List V) (v : V) :
    fold par zero (bs ++ bs') ss v =
      fold par zero bs ss (fold par zero bs' (ss.drop bs.length) v) := by
  induction bs generalizing ss with
  | nil => rfl
  | cons b bs ih =>
    rw [List.cons_append, fold_cons, fold_cons, ih]
    simp

theorem fold_drop {bs : List Bool} {ss : List V} {v : V} {level : ℕ} (hl : level < bs.length) :
    fold par zero (bs.drop level) (ss.drop level) v =
      branch par (bs.getD level false) (ss.getD level zero)
        (fold par zero (bs.drop (level + 1)) (ss.drop (level + 1)) v) := by
  rw [List.drop_eq_getElem_cons hl, fold_cons, List.tail_drop, List.getD_eq_getElem _ _ hl,
    List.headD_eq_head?_getD, List.head?_drop, List.getD_eq_getElem?_getD]

/-- **Completeness.**  Folding the true values beside a path from the true value at
one of its levels gives the true value at a level above. -/
theorem fold_hash {n level d : ℕ} {bits : List Bool} {ss : List V} (hbits : bits.length = n)
    (hl : level ≤ d) (hd : d ≤ n)
    (hbeside : ∀ l, level ≤ l → l < d → ss.getD l zero =
      hash par zero leaves (n - (l + 1)) (bits.take l ++ [!bits.getD l false]))
    (hne : ∀ l, level ≤ l → l < d → ∃ q : List Bool, q.length = n - l ∧
      leaves (bits.take l ++ q) ≠ none) :
    fold par zero ((bits.take d).drop level) (ss.drop level)
        (hash par zero leaves (n - d) (bits.take d)) =
      hash par zero leaves (n - level) (bits.take level) := by
  induction hl using Nat.decreasingInduction with
  | self => rw [List.drop_of_length_le (by rw [List.length_take]; omega), fold]
  | of_succ k hk ih =>
    have ih := ih (fun l h₁ h₂ => hbeside l (by omega) h₂) fun l h₁ h₂ => hne l (by omega) h₂
    have hlen : k < (bits.take d).length := by rw [List.length_take]; omega
    obtain ⟨q, hq, hleaf⟩ := hne k (Nat.le_refl k) hk
    have hbit : (bits.take d).getD k false = bits.getD k false := by
      rw [List.getD_eq_getElem _ _ hlen, List.getD_eq_getElem _ _ (by omega), List.getElem_take]
    rw [fold_drop hlen, ih, hbeside k (Nat.le_refl k) hk, show n - k = n - (k + 1) + 1 by omega,
      hash_succ_branch (bits.getD k false) ⟨q, by omega, hleaf⟩,
      List.take_succ_eq_append_getElem (by omega), hbit, List.getD_eq_getElem _ _ (by omega)]

end Value

/-! ### Binding -/

namespace Scheme

variable {S : Scheme V}

theorem branch_digest (b : Bool) (beside v : V) : S.Digest (branch S.par b beside v) := by
  cases b <;> exact S.par_digest _ _

theorem branch_ne_zero (b : Bool) (beside v : V) : branch S.par b beside v ≠ S.zero := by
  cases b <;> exact S.par_ne_zero _ _

theorem branch_inj {b : Bool} {s v s' v' : V} (hv : S.Digest v) (hv' : S.Digest v')
    (h : branch S.par b s v = branch S.par b s' v') : s = s' ∧ v = v' := by
  cases b
  · exact (S.par_inj_left hv hv' h).symm
  · exact S.par_inj_right hv hv' h

theorem fold_digest {v : V} (hv : S.Digest v) :
    ∀ (bs : List Bool) (ss : List V), S.Digest (fold S.par S.zero bs ss v)
  | [], _ => hv
  | b :: bs, ss => by
    rw [fold_cons]
    exact branch_digest _ _ _

theorem fold_ne_zero {v : V} {bs : List Bool} (hbs : bs ≠ []) (ss : List V) :
    fold S.par S.zero bs ss v ≠ S.zero := by
  cases bs with
  | nil => exact absurd rfl hbs
  | cons b bs =>
    rw [fold_cons]
    exact branch_ne_zero _ _ _

/-- **Binding.**  A folded value determines the value it was folded from. -/
theorem fold_binding {v v' : V} (hv : S.Digest v) (hv' : S.Digest v') :
    ∀ {bs : List Bool} {ss ss' : List V},
      fold S.par S.zero bs ss v = fold S.par S.zero bs ss' v' → v = v'
  | [], _, _, h => h
  | b :: bs, ss, ss', h => by
    rw [fold_cons, fold_cons] at h
    exact fold_binding hv hv' (branch_inj (fold_digest hv _ _) (fold_digest hv' _ _) h).2

/-- The value of a subtree is empty, a leaf, or that of two children. -/
theorem hash_cases (leaves : List Bool → Option V) (d : ℕ) (p : List Bool) :
    value S.par S.zero leaves d p = none ∧ hash S.par S.zero leaves d p = S.zero ∨
      (∃ v, leaves p = some v ∧ hash S.par S.zero leaves d p = v) ∨
        ∃ l r, hash S.par S.zero leaves d p = S.par l r := by
  by_cases hv : value S.par S.zero leaves d p = none
  · exact .inl ⟨hv, by rw [hash, hv, Option.getD_none]⟩
  · refine .inr ?_
    cases d with
    | zero =>
      obtain ⟨v, hv⟩ := Option.ne_none_iff_exists'.1 hv
      exact .inl ⟨v, hv, by rw [hash, hv, Option.getD_some]⟩
    | succ d => exact .inr ⟨_, _, hash_succ (exists_leaf hv)⟩

theorem hash_digest {leaves : List Bool → Option V} (hleaves : ∀ p v, leaves p = some v → S.Digest v)
    (d : ℕ) (p : List Bool) : S.Digest (hash S.par S.zero leaves d p) := by
  rcases hash_cases leaves d p with ⟨-, h⟩ | ⟨v, hv, h⟩ | ⟨l, r, h⟩
  · rw [h]
    exact S.zero_digest
  · rw [h]
    exact hleaves p v hv
  · rw [h]
    exact S.par_digest l r

/-- **Only an empty subtree has the empty value.** -/
theorem value_eq_none_of_hash {leaves : List Bool → Option V}
    (hleaves : ∀ p v, leaves p = some v → v ≠ S.zero) {d : ℕ} {p : List Bool}
    (h : hash S.par S.zero leaves d p = S.zero) : value S.par S.zero leaves d p = none := by
  rcases hash_cases leaves d p with ⟨hnone, -⟩ | ⟨v, hv, h'⟩ | ⟨l, r, h'⟩
  · exact hnone
  · exact absurd (h'.symm.trans h) (hleaves p v hv)
  · exact absurd (h'.symm.trans h) (S.par_ne_zero l r)

/-- **Soundness.**  When a fold has the value of a subtree, it started from the value
that the subtree has at the end of the path. -/
theorem fold_hash_binding {leaves : List Bool → Option V} {v : V} (hv : S.Digest v)
    (hleaves : ∀ p v, leaves p = some v → S.Digest v) :
    ∀ {bits p : List Bool} {ss : List V} {n : ℕ}, bits.length ≤ n →
      fold S.par S.zero bits ss v = hash S.par S.zero leaves n p →
        v = hash S.par S.zero leaves (n - bits.length) (p ++ bits)
  | [], p, ss, n, _, h => by simpa [fold] using h
  | b :: bs, p, ss, 0, hn, _ => by simp at hn
  | b :: bs, p, ss, n + 1, hn, h => by
    -- a fold is not the empty value, so that there are leaves below
    have hne : value S.par S.zero leaves (n + 1) p ≠ none := fun hnone =>
      fold_ne_zero (List.cons_ne_nil b bs) ss (h.trans (by rw [hash, hnone, Option.getD_none]))
    rw [fold_cons, hash_succ_branch b (exists_leaf hne)] at h
    obtain ⟨-, h⟩ := branch_inj (fold_digest hv _ _) (hash_digest hleaves _ _) h
    rw [fold_hash_binding hv hleaves (by simpa using hn) h, List.append_assoc,
      List.singleton_append, List.length_cons, Nat.add_sub_add_right]

/-- What is folded to an end of a longer path is not `zero` there. -/
theorem fold_prefix_binding {v : V} (hv : S.Digest v) {bs bs' : List Bool} {ss ss' : List V}
    (h : fold S.par S.zero bs ss S.zero = fold S.par S.zero (bs ++ bs') ss' v) :
    bs' = [] ∧ v = S.zero := by
  rw [fold_append] at h
  have hz := fold_binding S.zero_digest (fold_digest hv _ _) h
  cases bs' with
  | nil => exact ⟨rfl, hz.symm⟩
  | cons b bs' => exact absurd hz.symm (fold_ne_zero (by simp) _)

end Scheme

end SparseMerkle
