/-
# Transactions

A program that reads a state, checks what it has read and writes, as a function of the state.
What was written before a failure stays written.  A program is *atomic* when a failed check
leaves the state as it was, although a failed save need not: it is so when all its checks
come before its first write (`Atomic.bind`), whatever comes after an atomic part being free
of checks (`Unchecked`).
-/

namespace KeyTransparency

/-- Why a transaction failed: in a check, or in saving what was written. -/
inductive Failure (ε : Type)
  | check (e : ε)
  | save (e : ε)
deriving DecidableEq, Repr

def Transaction (σ ε α : Type) : Type := σ → Except (Failure ε) α × σ

namespace Transaction

variable {σ ε α β : Type}

def bind (x : Transaction σ ε α) (f : α → Transaction σ ε β) : Transaction σ ε β := fun s =>
  match x s with
  | (.ok a, s') => f a s'
  | (.error e, s') => (.error e, s')

instance : Monad (Transaction σ ε) where
  pure a := fun s => (.ok a, s)
  bind := bind

def get : Transaction σ ε σ := fun s => (.ok s, s)

def modify (f : σ → σ) : Transaction σ ε Unit := fun s => (.ok (), f s)

def check (r : Except ε α) : Transaction σ ε α := fun s =>
  match r with
  | .ok a => (.ok a, s)
  | .error e => (.error (.check e), s)

/-- Saves the state, which may change what was saved even when it fails. -/
def save (f : σ → Except ε Unit × σ) : Transaction σ ε Unit := fun s =>
  match f s with
  | (.ok (), s') => (.ok (), s')
  | (.error e, s') => (.error (.save e), s')

/-- Wraps the errors of checks. -/
def within (f : ε → ε) (x : Transaction σ ε α) : Transaction σ ε α := fun s =>
  match x s with
  | (.error (.check e), s') => (.error (.check (f e)), s')
  | out => out

/-! ### Running -/

section

variable {x : Transaction σ ε α} {f : α → Transaction σ ε β} {s s' : σ}

@[simp] theorem pure_run (a : α) (s : σ) : (pure a : Transaction σ ε α) s = (.ok a, s) := rfl

@[simp] theorem get_run (s : σ) : (get : Transaction σ ε σ) s = (.ok s, s) := rfl

@[simp] theorem modify_run (f : σ → σ) (s : σ) :
    (modify f : Transaction σ ε Unit) s = (.ok (), f s) := rfl

@[simp] theorem check_ok (a : α) (s : σ) : (check (.ok a) : Transaction σ ε α) s = (.ok a, s) := rfl

@[simp] theorem check_error (e : ε) (s : σ) :
    (check (.error e) : Transaction σ ε α) s = (.error (.check e), s) := rfl

@[simp] theorem get_bind (f : σ → Transaction σ ε β) (s : σ) : (get >>= f) s = f s s := rfl

@[simp] theorem check_ok_bind (a : α) (f : α → Transaction σ ε β) (s : σ) :
    (check (.ok a) >>= f) s = f a s := rfl

@[simp] theorem check_error_bind (e : ε) (f : α → Transaction σ ε β) (s : σ) :
    (check (.error e) >>= f) s = (.error (.check e), s) := rfl

@[simp] theorem modify_bind (g : σ → σ) (f : Unit → Transaction σ ε β) (s : σ) :
    (modify g >>= f) s = f () (g s) := rfl

theorem bind_ok {a : α} (h : x s = (.ok a, s')) : (x >>= f) s = f a s' := by
  change bind x f s = _
  rw [bind, h]

theorem bind_error {e : Failure ε} (h : x s = (.error e, s')) :
    (x >>= f) s = (.error e, s') := by
  change bind x f s = _
  rw [bind, h]

theorem bind_assoc {γ : Type} (x : Transaction σ ε α) (f : α → Transaction σ ε β)
    (g : β → Transaction σ ε γ) : x >>= f >>= g = x >>= fun a => f a >>= g := by
  funext s
  change Transaction.bind (Transaction.bind x f) g s = Transaction.bind x _ s
  simp only [Transaction.bind]
  cases x s with
  | mk r t =>
    cases r with
    | ok a => rfl
    | error e => rfl

/-- **A sequence fails** in its first part, or after it. -/
theorem bind_eq_error {e : Failure ε} (h : (x >>= f) s = (.error e, s')) :
    x s = (.error e, s') ∨ ∃ a t, x s = (.ok a, t) ∧ f a t = (.error e, s') := by
  cases hx : x s with
  | mk r t =>
    cases r with
    | ok a => exact .inr ⟨a, t, rfl, (bind_ok hx).symm.trans h⟩
    | error e' =>
      obtain ⟨he, rfl⟩ := Prod.mk.inj ((bind_error (f := f) hx).symm.trans h)
      rw [Except.error.inj he]
      exact .inl rfl

/-- **A sequence succeeds** when both parts do. -/
theorem bind_eq_ok {b : β} :
    (x >>= f) s = (.ok b, s') ↔ ∃ a t, x s = (.ok a, t) ∧ f a t = (.ok b, s') := by
  cases hx : x s with
  | mk r t =>
    cases r with
    | ok a =>
      rw [bind_ok hx]
      constructor
      · exact fun h => ⟨a, t, rfl, h⟩
      · rintro ⟨a', t', heq, h⟩
        obtain ⟨ha, rfl⟩ := Prod.mk.inj heq
        rwa [Except.ok.inj ha]
    | error e =>
      rw [bind_error hx]
      constructor
      · exact fun h => absurd (Prod.mk.inj h).1 (by simp)
      · rintro ⟨a', t', heq, -⟩
        exact absurd (Prod.mk.inj heq).1 (by simp)

theorem check_eq_ok {r : Except ε α} {a : α} :
    (check r : Transaction σ ε α) s = (.ok a, s') ↔ r = .ok a ∧ s' = s := by
  cases r with
  | ok b => simp [eq_comm]
  | error e => simp

end

/-! ### Refinement -/

/-- **A program does what a function says**: it fails where the function does and then has
written nothing, and where the function has a value it succeeds in a related state. -/
def Refines (x : Transaction σ ε α) (s : σ) (r : Except ε β) (R : β → α → σ → Prop) : Prop :=
  match r with
  | .ok b => ∃ a s', x s = (.ok a, s') ∧ R b a s'
  | .error e => x s = (.error (.check e), s)

namespace Refines

variable {x : Transaction σ ε α} {s : σ} {r : Except ε β} {R : β → α → σ → Prop}

theorem of_eq_ok {b : β} (h : Refines x s r R) (hr : r = .ok b) :
    ∃ a s', x s = (.ok a, s') ∧ R b a s' := by
  subst hr
  exact h

/-- Success comes from the function. -/
theorem eq_ok {a : α} {s' : σ} (h : Refines x s r R) (hx : x s = (.ok a, s')) :
    ∃ b, r = .ok b ∧ R b a s' := by
  cases r with
  | ok b =>
    obtain ⟨a', t, hrun, hR⟩ := h
    obtain ⟨ha, rfl⟩ := Prod.mk.inj (hrun.symm.trans hx)
    exact ⟨b, rfl, Except.ok.inj ha ▸ hR⟩
  | error e =>
    have heq := (Prod.mk.inj (Eq.trans (Eq.symm h) hx)).1
    cases heq

/-- The checks of both come first. -/
theorem check_bind {γ : Type} {c : Except ε γ} {f : γ → Transaction σ ε α} {g : γ → Except ε β}
    (h : ∀ a, c = .ok a → Refines (f a) s (g a) R) :
    Refines (Transaction.check c >>= f) s (c >>= g) R := by
  cases c with
  | ok a => exact h a rfl
  | error e => exact rfl

/-- Only the run from the state counts. -/
theorem of_eq {x' : Transaction σ ε α} (heq : x s = x' s) (h : Refines x' s r R) :
    Refines x s r R := by
  cases r with
  | ok b =>
    obtain ⟨a, s', hx, hR⟩ := h
    exact ⟨a, s', heq.trans hx, hR⟩
  | error e => exact heq.trans h

/-- What follows a part that may have written succeeds on both sides. -/
theorem bind {α' β' : Type} {f : α → Transaction σ ε α'} {g : β → Except ε β'}
    {R' : β' → α' → σ → Prop} (h : Refines x s r R)
    (hf : ∀ b a s', r = .ok b → R b a s' → ∃ b' a' t, g b = .ok b' ∧ f a s' = (.ok a', t) ∧ R' b' a' t) :
    Refines (x >>= f) s (r >>= g) R' := by
  cases r with
  | ok b =>
    obtain ⟨a, s', hx, hR⟩ := h
    obtain ⟨b', a', t, hg, hfa, hR'⟩ := hf b a s' rfl hR
    have hpure : (Except.ok b >>= g) = .ok b' := hg
    rw [hpure]
    exact ⟨a', t, (bind_ok hx).trans hfa, hR'⟩
  | error e => exact bind_error h

end Refines

/-! ### Atomic programs -/

/-- A failed check leaves the state as it was. -/
def Atomic (x : Transaction σ ε α) : Prop :=
  ∀ s e s', x s = (.error (.check e), s') → s' = s

/-- No check fails. -/
def Unchecked (x : Transaction σ ε α) : Prop := ∀ s e s', x s ≠ (.error (.check e), s')

namespace Atomic

variable {x : Transaction σ ε α} {f : α → Transaction σ ε β}

/-- **A program that refines a function is atomic.** -/
theorem of_refines {r : σ → Except ε β} {R : σ → β → α → σ → Prop}
    (h : ∀ s, Refines x s (r s) (R s)) : Atomic x := by
  intro s e s' hx
  have hs := h s
  cases hr : r s with
  | ok b =>
    obtain ⟨a, t, hrun, -⟩ := hs.of_eq_ok hr
    exact absurd (Prod.mk.inj (hrun.symm.trans hx)).1 (by simp)
  | error e' =>
    rw [hr] at hs
    exact (Prod.mk.inj (Eq.trans (Eq.symm hs) hx)).2.symm

theorem get_bind {f : σ → Transaction σ ε β} (h : ∀ s, Atomic (f s)) : Atomic (get >>= f) :=
  fun s e s' hrun => h s s e s' hrun

/-- Checks may come first. -/
theorem check_bind {r : Except ε α} (h : ∀ a, Atomic (f a)) :
    Atomic (Transaction.check r >>= f) := by
  intro s e s' hrun
  cases r with
  | ok a => exact h a s e s' hrun
  | error e' => exact (Prod.mk.inj hrun).2.symm

/-- **After a part that may write no check may fail.** -/
theorem bind (hx : Atomic x) (hf : ∀ a, Unchecked (f a)) : Atomic (x >>= f) := by
  intro s e s' h
  rcases bind_eq_error h with h | ⟨a, t, -, h⟩
  · exact hx s e s' h
  · exact absurd h (hf a t e s')

end Atomic

namespace Unchecked

variable {x : Transaction σ ε α} {f : α → Transaction σ ε β}

theorem pure (a : α) : Unchecked (Pure.pure a : Transaction σ ε α) := by
  intro s e s' h
  exact absurd (Prod.mk.inj h).1 (by simp)

theorem modify (g : σ → σ) : Unchecked (modify g : Transaction σ ε Unit) := by
  intro s e s' h
  exact absurd (Prod.mk.inj h).1 (by simp)

theorem save (g : σ → Except ε Unit × σ) : Unchecked (save g : Transaction σ ε Unit) := by
  intro s e s' h
  rw [Transaction.save] at h
  split at h
  · exact absurd (Prod.mk.inj h).1 (by simp)
  · exact absurd (Prod.mk.inj h).1 (by simp)

theorem bind (hx : Unchecked x) (hf : ∀ a, Unchecked (f a)) : Unchecked (x >>= f) := by
  intro s e s' h
  rcases bind_eq_error h with h | ⟨a, t, -, h⟩
  · exact hx s e s' h
  · exact hf a t e s' h

end Unchecked

/-! ### Invariants -/

/-- What holds before holds after, however the program ends. -/
def Preserves (I : σ → Prop) (x : Transaction σ ε α) : Prop := ∀ s r s', I s → x s = (r, s') → I s'

namespace Preserves

variable {I : σ → Prop} {x : Transaction σ ε α} {f : α → Transaction σ ε β}

/-- From one state, with what the function returns there. -/
theorem of_refines_at {s s' : σ} {r : Except ε β} {R : β → α → σ → Prop}
    {out : Except (Failure ε) α} (h : Refines x s r R) (hs : I s)
    (hR : ∀ b a s', r = .ok b → R b a s' → I s') (hx : x s = (out, s')) : I s' := by
  cases r with
  | ok b =>
    obtain ⟨a, t, hrun, hRt⟩ := h
    exact (Prod.mk.inj (hrun.symm.trans hx)).2 ▸ hR b a t rfl hRt
  | error e => exact (Prod.mk.inj (Eq.trans (Eq.symm h) hx)).2 ▸ hs

theorem of_refines {r : σ → Except ε β} {R : σ → β → α → σ → Prop}
    (h : ∀ s, Refines x s (r s) (R s))
    (hR : ∀ s b a s', I s → r s = .ok b → R s b a s' → I s') : Preserves I x :=
  fun s _ _ hs hx => of_refines_at (h s) hs (fun b a s' hb => hR s b a s' hs hb) hx

theorem pure (a : α) : Preserves I (Pure.pure a : Transaction σ ε α) := by
  intro s r s' hs hx
  exact (Prod.mk.inj hx).2 ▸ hs

theorem check (r : Except ε α) : Preserves I (check r : Transaction σ ε α) := by
  intro s out s' hs hx
  cases r with
  | ok a => exact (Prod.mk.inj hx).2 ▸ hs
  | error e => exact (Prod.mk.inj hx).2 ▸ hs

theorem modify {g : σ → σ} (h : ∀ s, I s → I (g s)) :
    Preserves I (modify g : Transaction σ ε Unit) := by
  intro s r s' hs hx
  exact (Prod.mk.inj hx).2 ▸ h s hs

theorem save {g : σ → Except ε Unit × σ} (h : ∀ s, I s → I (g s).2) :
    Preserves I (save g : Transaction σ ε Unit) := by
  intro s r s' hs hx
  have hg := h s hs
  rw [Transaction.save] at hx
  split at hx
  · rename_i t ht
    rw [ht] at hg
    exact (Prod.mk.inj hx).2 ▸ hg
  · rename_i e t ht
    rw [ht] at hg
    exact (Prod.mk.inj hx).2 ▸ hg

theorem bind_at {s s' : σ} {r : Except (Failure ε) β} (hx : ∀ out t, x s = (out, t) → I t)
    (hf : ∀ a, Preserves I (f a)) (h : (x >>= f) s = (r, s')) : I s' := by
  cases hrun : x s with
  | mk out t =>
    have ht := hx out t hrun
    cases out with
    | ok a => exact hf a t r s' ht ((bind_ok hrun).symm.trans h)
    | error e => exact (Prod.mk.inj ((bind_error (f := f) hrun).symm.trans h)).2 ▸ ht

theorem bind (hx : Preserves I x) (hf : ∀ a, Preserves I (f a)) : Preserves I (x >>= f) :=
  fun s _ _ hs h => bind_at (fun out t => hx s out t hs) hf h

end Preserves

end Transaction

end KeyTransparency
