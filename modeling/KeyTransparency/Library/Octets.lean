/-
# Octet strings

Wire data are strings of octets.  An octet is a natural number here, the ones a
wire carries being those below 256.  The alphabet is left unbounded for one
reason: a collision-free hash with outputs of a fixed length exists over an
infinite alphabet and over no finite one, so this is the alphabet on which "the
hash is injective" can be assumed without assuming a contradiction
(`countingHash`).

`beBytes w x` is the big-endian encoding of `x` on `w` octets and `ofBeBytes`
reads it back.  The framing lemmas cut a concatenation whose parts have known
lengths.
-/

import Mathlib.Data.List.Lex
import Mathlib.Logic.Equiv.List
import Mathlib.Tactic.Ring

/-- A string of octets. -/
abbrev Octets := List ℕ

instance instLawfulBEqOctets : LawfulBEq (List ℕ) := inferInstance

namespace Octets

/-- The big-endian encoding of `x` on `w` octets, modulo `256 ^ w`. -/
def beBytes : ℕ → ℕ → Octets
  | 0, _ => []
  | w + 1, x => x / 256 ^ w % 256 :: beBytes w x

/-- The number a big-endian octet string stands for. -/
def ofBeBytes (bs : Octets) : ℕ := bs.foldl (fun acc b => acc * 256 + b) 0

@[simp] theorem length_beBytes (w x : ℕ) : (beBytes w x).length = w := by
  induction w with
  | zero => rfl
  | succ w ih => simp [beBytes, ih]

private theorem foldl_beBytes (w x acc : ℕ) :
    (beBytes w x).foldl (fun acc b => acc * 256 + b) acc = acc * 256 ^ w + x % 256 ^ w := by
  induction w generalizing acc with
  | zero => simp [beBytes, Nat.mod_one]
  | succ w ih =>
    rw [beBytes, List.foldl_cons, ih, Nat.mod_pow_succ]
    ring

/-- Reading back a big-endian encoding loses only what did not fit. -/
theorem ofBeBytes_beBytes (w x : ℕ) : ofBeBytes (beBytes w x) = x % 256 ^ w := by
  rw [ofBeBytes, foldl_beBytes]
  ring

/-- **Fixed-width encodings are injective** on the numbers that fit. -/
theorem beBytes_inj {w x y : ℕ} (hx : x < 256 ^ w) (hy : y < 256 ^ w)
    (h : beBytes w x = beBytes w y) : x = y := by
  have := congrArg ofBeBytes h
  rwa [ofBeBytes_beBytes, ofBeBytes_beBytes, Nat.mod_eq_of_lt hx, Nat.mod_eq_of_lt hy] at this

/-- A string of `n` zero octets. -/
def zeros (n : ℕ) : Octets := List.replicate n 0

@[simp] theorem length_zeros (n : ℕ) : (zeros n).length = n := List.length_replicate

/-- A collision-free hash with outputs of a fixed length: it numbers the messages. -/
def countingHash {α : Type*} [Encodable α] (n : ℕ) (m : α) : Octets :=
  (Encodable.encode m + 1) :: zeros n

@[simp] theorem length_countingHash {α : Type*} [Encodable α] (n : ℕ) (m : α) :
    (countingHash n m).length = n + 1 := by
  simp [countingHash]

/-- **An injective hash of fixed output length is no contradiction** over this
alphabet. -/
theorem countingHash_injective {α : Type*} [Encodable α] (n : ℕ) :
    Function.Injective fun m : α => countingHash n m := fun a b h => by
  have := (List.cons.inj h).1
  exact Encodable.encode_injective (by omega)

theorem countingHash_ne_zeros {α : Type*} [Encodable α] (n : ℕ) (m : α) :
    countingHash n m ≠ zeros (n + 1) := fun h => by
  have := (List.cons.inj (h.trans List.replicate_succ)).1
  omega

end Octets
