/-
# Failures

The fallible functions of the source return `anyhow::Result`; some paths panic.
`Result` is `Except` over `Fault`, which keeps the text of an error and the
contexts it was wrapped in, and the typed errors of `src/tree/errors.rs`.
-/

import Mathlib.Data.List.Forall2
import Mathlib.Data.Nat.Notation

namespace KeyTransparency

/-- The typed errors of the server. -/
inductive KtError
  | expired
  | unavailable
  | internal (msg : String)
  | invalidArgument (msg : String)
  | versionConflict
deriving DecidableEq, Repr

/-- Why a call failed. -/
inductive Fault
  | err (msg : String)
  | context (msg : String) (cause : Fault)
  | kt (e : KtError)
  | panic (msg : String)
  /-- A loop of the model ran out of its bound. -/
  | diverge
deriving DecidableEq, Repr

abbrev Result := Except Fault

/-- `anyhow!(…)` and `bail!`. -/
def fail {α : Type} (msg : String) : Result α := .error (.err msg)

/-- `Context::context`: wraps errors, while panics pass through. -/
def Fault.within (msg : String) : Fault → Fault
  | .panic m => .panic m
  | .diverge => .diverge
  | e => .context msg e

def Result.context {α : Type} (r : Result α) (msg : String) : Result α :=
  match r with
  | .ok a => .ok a
  | .error e => .error (e.within msg)

/-- `Option::ok_or_else`. -/
def okOr {α : Type} (o : Option α) (msg : String) : Result α :=
  match o with
  | some a => .ok a
  | none => fail msg

/-- A guard: fails with the message unless the condition holds. -/
def ensure (p : Prop) [Decidable p] (msg : String) : Result Unit :=
  if p then .ok () else fail msg

section

variable {α β : Type}

theorem Result.bind_eq_ok {x : Result α} {f : α → Result β} {b : β} :
    x >>= f = .ok b ↔ ∃ a, x = .ok a ∧ f a = .ok b := by
  cases x with
  | error e => exact ⟨fun h => by simp [bind, Except.bind] at h, fun ⟨a, h, _⟩ => by simp at h⟩
  | ok a => exact ⟨fun h => ⟨a, rfl, h⟩, fun ⟨a', h, h'⟩ => by cases h; exact h'⟩

@[simp] theorem Result.ok_bind (a : α) (f : α → Result β) : (.ok a : Result α) >>= f = f a := rfl

@[simp] theorem Result.error_bind (e : Fault) (f : α → Result β) :
    (.error e : Result α) >>= f = .error e := rfl

@[simp] theorem Result.pure_eq (a : α) : (pure a : Result α) = .ok a := rfl

@[simp] theorem Result.context_eq_ok {r : Result α} {msg : String} {a : α} :
    r.context msg = .ok a ↔ r = .ok a := by
  cases r <;> simp [Result.context]

@[simp] theorem Result.context_ok (a : α) (msg : String) :
    Result.context (.ok a) msg = .ok a := rfl

@[simp] theorem okOr_eq_ok {o : Option α} {msg : String} {a : α} :
    okOr o msg = .ok a ↔ o = some a := by
  cases o <;> simp [okOr, fail]

@[simp] theorem okOr_some (a : α) (msg : String) : okOr (some a) msg = .ok a := rfl

@[simp] theorem ensure_eq_ok {p : Prop} [Decidable p] {msg : String} {u : Unit} :
    ensure p msg = .ok u ↔ p := by
  unfold ensure fail
  split <;> simp_all

theorem ensure_of {p : Prop} [Decidable p] (h : p) (msg : String) : ensure p msg = .ok () :=
  if_pos h

@[simp] theorem fail_ne_ok {msg : String} {a : α} : fail msg ≠ .ok a := by simp [fail]

/-- A run of successful calls. -/
theorem Result.mapM_eq_ok {f : α → Result β} {g : α → β} {l : List α}
    (h : ∀ a ∈ l, f a = .ok (g a)) : l.mapM f = .ok (l.map g) := by
  induction l with
  | nil => rfl
  | cons a l ih =>
    rw [List.mapM_cons, h a List.mem_cons_self, Result.ok_bind,
      ih fun b hb => h b (List.mem_cons_of_mem _ hb)]
    rfl

/-- A run of calls that succeed, each in its own way. -/
theorem Result.exists_mapM_eq_ok {f : α → Result β} {Good : α → β → Prop} {l : List α}
    (h : ∀ a ∈ l, ∃ b, f a = .ok b ∧ Good a b) :
    ∃ bs, l.mapM f = .ok bs ∧ List.Forall₂ Good l bs := by
  induction l with
  | nil => exact ⟨[], rfl, .nil⟩
  | cons a l ih =>
    obtain ⟨b, hb, hgood⟩ := h a List.mem_cons_self
    obtain ⟨bs, hbs, hall⟩ := ih fun a' ha' => h a' (List.mem_cons_of_mem _ ha')
    refine ⟨b :: bs, ?_, .cons hgood hall⟩
    rw [List.mapM_cons, hb, Result.ok_bind, hbs]
    rfl

end

/-! ### Calls that return -/

/-- An error that the caller gets, where a panic or a loop without end gives it nothing. -/
def Fault.Ordinary : Fault → Prop
  | .panic _ => False
  | .diverge => False
  | _ => True

/-- **A call returns**: a value that meets a condition, or an error. -/
def Result.Returns {α : Type} (r : Result α) (Q : α → Prop) : Prop :=
  match r with
  | .ok a => Q a
  | .error e => e.Ordinary

namespace Result.Returns

variable {α β : Type} {Q R : α → Prop} {S : β → Prop} {x : Result α} {f : α → Result β} {msg : String}

theorem fail : (KeyTransparency.fail msg : Result α).Returns Q := trivial

theorem ensure {p : Prop} [Decidable p] : (KeyTransparency.ensure p msg).Returns fun _ => p := by
  unfold KeyTransparency.ensure
  split_ifs with h
  · exact h
  · trivial

theorem okOr {o : Option α} : (KeyTransparency.okOr o msg).Returns fun a => o = some a := by
  cases o with
  | none => trivial
  | some a => exact rfl

theorem mono (h : x.Returns Q) (hQR : ∀ a, Q a → R a) : x.Returns R := by
  cases x with
  | ok a => exact hQR a h
  | error e => exact h

/-- What is returned may be used to say more about it. -/
theorem of_eq_ok (h : x.Returns Q) (hR : ∀ a, x = .ok a → Q a → R a) : x.Returns R := by
  cases x with
  | ok a => exact hR a rfl h
  | error e => exact h

theorem context (h : x.Returns Q) : (x.context msg).Returns Q := by
  cases x with
  | ok a => exact h
  | error e => cases e <;> trivial

/-- **Calls one after the other** return. -/
theorem bind (hx : x.Returns Q) (hf : ∀ a, Q a → (f a).Returns S) : (x >>= f).Returns S := by
  cases x with
  | ok a => exact hf a hx
  | error e => exact hx

end Result.Returns

/-- A call comes to an end. -/
abbrev Result.Settles {α : Type} (r : Result α) : Prop := r.Returns fun _ => True

theorem Result.Settles.bind {α β : Type} {S : β → Prop} {x : Result α} {f : α → Result β}
    (hx : x.Settles) (hf : ∀ a, (f a).Returns S) : (x >>= f).Returns S :=
  Result.Returns.bind hx fun a _ => hf a

end KeyTransparency
