/-
# Hexadecimal

Octet strings are written as hexadecimal text, two digits an octet.  A reader takes
both cases, and mixtures of them, so that an octet string has several spellings
(`hexDecode_hexEncode`).
-/

import KeyTransparency.Library.Octets
import Mathlib.Tactic.IntervalCases

namespace Octets

/-- A digit in one of the cases. -/
def hexDigit (upper : Bool) (d : ℕ) : Char :=
  if d < 10 then Char.ofNat (48 + d) else Char.ofNat ((if upper then 55 else 87) + d)

/-- The digit that a character stands for. -/
def hexValue (c : Char) : Option ℕ :=
  if 48 ≤ c.toNat ∧ c.toNat ≤ 57 then some (c.toNat - 48)
  else if 65 ≤ c.toNat ∧ c.toNat ≤ 70 then some (c.toNat - 55)
  else if 97 ≤ c.toNat ∧ c.toNat ≤ 102 then some (c.toNat - 87)
  else none

/-- The spelling of an octet string in one of the cases. -/
def hexEncode (upper : Bool) (bytes : Octets) : List Char :=
  bytes.flatMap fun b => [hexDigit upper (b / 16), hexDigit upper (b % 16)]

/-- Reads a spelling in either case, or in both. -/
def hexDecode : List Char → Option Octets
  | [] => some []
  | [_] => none
  | c :: d :: cs => do
    let high ← hexValue c
    let low ← hexValue d
    let rest ← hexDecode cs
    return (16 * high + low) :: rest

theorem hexValue_hexDigit (upper : Bool) {d : ℕ} (hd : d < 16) :
    hexValue (hexDigit upper d) = some d := by
  cases upper <;> interval_cases d <;> rfl

/-- **Both spellings are read** as the octets. -/
theorem hexDecode_hexEncode (upper : Bool) : ∀ {bytes : Octets}, (∀ b ∈ bytes, b < 256) →
    hexDecode (hexEncode upper bytes) = some bytes
  | [], _ => rfl
  | b :: bytes, h => by
    have hb := h b List.mem_cons_self
    have ih := hexDecode_hexEncode upper fun b hb => h b (List.mem_cons_of_mem _ hb)
    rw [hexEncode] at ih ⊢
    rw [List.flatMap_cons, List.cons_append, List.cons_append, List.nil_append, hexDecode,
      hexValue_hexDigit upper (show b / 16 < 16 by omega),
      hexValue_hexDigit upper (Nat.mod_lt b (by omega)), ih]
    simp only [Option.bind_eq_bind, Option.bind_some, Option.pure_def, Option.some.injEq,
      List.cons.injEq, and_true]
    omega

end Octets
