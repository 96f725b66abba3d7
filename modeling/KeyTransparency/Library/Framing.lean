/-
# Framed encodings

The presentation language in which messages are described: numbers of a fixed width, vectors
with their length in front, and optional values with a presence octet.  Each reader takes
back what its encoding wrote and leaves the rest (`readUint_beBytes`, `readVector_vector`,
`readOptional_optional`), so that encodings one after the other are told apart
(`beBytes_append_inj`, `vector_append_inj`, `optional_append_inj`).
-/

import KeyTransparency.Library.Octets

namespace Octets

variable {α : Type}

def readUint (w : ℕ) (input : Octets) : Option (ℕ × Octets) :=
  if w ≤ input.length then some (ofBeBytes (input.take w), input.drop w) else none

/-- `opaque<0..2^(8w)-1>`. -/
def vector (w : ℕ) (bytes : Octets) : Octets := beBytes w bytes.length ++ bytes

def readVector (w : ℕ) (input : Octets) : Option (Octets × Octets) := do
  let (length, input) ← readUint w input
  if length ≤ input.length then some (input.take length, input.drop length) else none

/-- `optional<T>`. -/
def optional (encode : α → Octets) : Option α → Octets
  | none => [0]
  | some v => 1 :: encode v

def readOptional (read : Octets → Option (α × Octets)) : Octets → Option (Option α × Octets)
  | 0 :: input => some (none, input)
  | 1 :: input => (read input).map fun (v, rest) => (some v, rest)
  | _ => none

theorem readUint_beBytes {w x : ℕ} (h : x < 256 ^ w) (rest : Octets) :
    readUint w (beBytes w x ++ rest) = some (x, rest) := by
  rw [readUint, if_pos (by simp), List.take_left' (length_beBytes w x),
    List.drop_left' (length_beBytes w x), ofBeBytes_beBytes, Nat.mod_eq_of_lt h]

theorem readVector_vector {w : ℕ} {bytes : Octets} (h : bytes.length < 256 ^ w) (rest : Octets) :
    readVector w (vector w bytes ++ rest) = some (bytes, rest) := by
  rw [readVector, vector, List.append_assoc, readUint_beBytes h]
  simp

theorem readOptional_optional {encode : α → Octets} {read : Octets → Option (α × Octets)}
    {o : Option α} {rest : Octets} (h : ∀ v ∈ o, read (encode v ++ rest) = some (v, rest)) :
    readOptional read (optional encode o ++ rest) = some (o, rest) := by
  cases o with
  | none => rfl
  | some v =>
    rw [optional, List.cons_append, readOptional, h v rfl]
    rfl

/-! ### One after the other -/

variable {w x y : ℕ} {bytes bytes' rest rest' : Octets}

theorem beBytes_append_inj (hx : x < 256 ^ w) (hy : y < 256 ^ w)
    (h : beBytes w x ++ rest = beBytes w y ++ rest') : x = y ∧ rest = rest' := by
  have hread := congrArg (readUint w) h
  rw [readUint_beBytes hx, readUint_beBytes hy] at hread
  exact Prod.mk.inj (Option.some.inj hread)

theorem vector_append_inj (hbytes : bytes.length < 256 ^ w) (hbytes' : bytes'.length < 256 ^ w)
    (h : vector w bytes ++ rest = vector w bytes' ++ rest') : bytes = bytes' ∧ rest = rest' := by
  have hread := congrArg (readVector w) h
  rw [readVector_vector hbytes, readVector_vector hbytes'] at hread
  exact Prod.mk.inj (Option.some.inj hread)

/-- The presence octet tells whether a value follows. -/
theorem optional_append_inj {encode : α → Octets} {o o' : Option α}
    (hencode : ∀ v ∈ o, ∀ v' ∈ o', encode v ++ rest = encode v' ++ rest' → v = v' ∧ rest = rest')
    (h : optional encode o ++ rest = optional encode o' ++ rest') : o = o' ∧ rest = rest' := by
  cases o with
  | none =>
    cases o' with
    | none => exact ⟨rfl, (List.cons.inj h).2⟩
    | some v' => exact absurd (List.cons.inj h).1 (by decide)
  | some v =>
    cases o' with
    | none => exact absurd (List.cons.inj h).1 (by decide)
    | some v' =>
      obtain ⟨rfl, hrest⟩ := hencode v rfl v' rfl (List.cons.inj h).2
      exact ⟨rfl, hrest⟩

end Octets
