import Secp.LimbInt.Radix

/-!
# Integers laid out in a field

An integer is set in a field of a least width: a sign, the base mark of hexadecimal where it is
asked for, and the digits. Zero filling goes between the mark and the digits; any other filling
goes outside, on the side opposite to the alignment. A centred text has the smaller half of the
filling on its left.
-/

namespace Secp.LimbInt

/-- Where the text stands in its field. -/
inductive Alignment where
  | left
  | centre
  | right
  deriving DecidableEq, Repr

/-- How an integer is laid out. -/
structure Layout where
  /-- Least number of characters. -/
  width : Nat
  /-- Hexadecimal instead of decimal. -/
  hex : Bool := false
  /-- The mark `0x` before hexadecimal digits. -/
  mark : Bool := false
  /-- A plus sign before a non-negative integer. -/
  plus : Bool := false
  /-- Zeros between the mark and the digits instead of filling. -/
  zeros : Bool := false
  /-- Side on which the text stands. -/
  alignment : Alignment := .right
  /-- Filling outside the text. -/
  fill : Char := ' '
  deriving DecidableEq, Repr

/-- The integer laid out in its field. -/
def format (a : LimbInt) (layout : Layout) : String :=
  let sign := if a.negative then ['-'] else if layout.plus then ['+'] else []
  let lead := sign ++ (if layout.mark && layout.hex then ['0', 'x'] else [])
  let body := toDigits (if layout.hex then 16 else 10) a.limbs
  let missing := layout.width - (lead.length + body.length)
  if layout.zeros then String.ofList (lead ++ List.replicate missing '0' ++ body)
  else
    let before :=
      match layout.alignment with
      | .left => 0
      | .centre => missing / 2
      | .right => missing
    String.ofList
      (List.replicate before layout.fill ++ lead ++ body ++
        List.replicate (missing - before) layout.fill)

end Secp.LimbInt
