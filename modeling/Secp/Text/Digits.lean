/-!
# Positional digits

Digits of bases up to 36: ten figures, then the lowercase letters. `digits` writes a number
without leading zeros, `fixedDigits` in an exact width, and `digitValue` reads one digit of
either case.
-/

namespace Secp.Text

/-- One lowercase digit of a base up to 36. -/
def digitChar (d : Nat) : Char :=
  if d < 10 then Char.ofNat (48 + d) else Char.ofNat (87 + d)

/-- The value of a figure or an ASCII letter of either case, when it is a digit of the base. -/
def digitValue (base : Nat) (c : Char) : Option Nat :=
  let value :=
    if '0' ≤ c ∧ c ≤ '9' then some (c.toNat - 48)
    else if 'a' ≤ c ∧ c ≤ 'z' then some (c.toNat - 87)
    else if 'A' ≤ c ∧ c ≤ 'Z' then some (c.toNat - 55)
    else none
  value.filter (· < base)

/-- Digits of `n` in a base, most significant first and without leading zeros; none for zero. -/
def digits (base n : Nat) : List Char :=
  if _h : n = 0 ∨ base < 2 then [] else digits base (n / base) ++ [digitChar (n % base)]
termination_by n
decreasing_by exact Nat.div_lt_self (by omega) (by omega)

/-- The low `width` digits of `n`, most significant first. -/
def fixedDigits (base : Nat) : Nat → Nat → List Char
  | 0, _ => []
  | width + 1, n => fixedDigits base width (n / base) ++ [digitChar (n % base)]

/-- Lowercase hexadecimal without leading zeros, and a single zero for zero. -/
def hex (n : Nat) : String :=
  if n = 0 then "0" else String.ofList (digits 16 n)

/-- Exactly two lowercase hexadecimal digits of a byte. -/
def hexByte (b : UInt8) : String := String.ofList (fixedDigits 16 2 b.toNat)

end Secp.Text
