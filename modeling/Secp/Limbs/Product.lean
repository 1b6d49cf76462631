import Secp.Limbs.Sum

/-!
# Products of magnitudes

Four ways to multiply, which agree: by one word; by columns, where each limb of the result is
the sum of one antidiagonal; by rows, where each limb of one factor adds a multiple of the other
into a buffer; and the columns of a square, where each cross product is formed once and doubled.
`mul` and `sqr` choose by the number of limbs.
-/

namespace Secp.Limbs

/-- Factors of at most this many limbs are multiplied by columns. -/
def columnLimit : Nat := 64

/-- Multiply by a word and add a carry. The last carry is pushed limb by limb. -/
def mulWith (m : UInt64) : Limbs → UInt64 → Limbs
  | [], c => ofWord c
  | w :: ws, c =>
    let t := w.toUInt64 * m + c
    low t :: mulWith m ws (high t)

/-- The product of a magnitude and a word. -/
def mulWord (a : Limbs) (m : UInt32) : Limbs :=
  if m = 0 ∨ a = [] then [] else mulWith m.toUInt64 a 0

/-- Sum of the products of limbs at equal positions. -/
def dot : Limbs → Limbs → UInt64
  | x :: xs, y :: ys => x.toUInt64 * y.toUInt64 + dot xs ys
  | _, _ => 0

/-- Sum of the products of limbs whose positions add up to `k`. -/
def column (a b : Limbs) (k : Nat) : UInt64 :=
  dot (a.drop (k + 1 - b.length)) (b.take (k + 1)).reverse

/-- Turn column sums into limbs by passing on the carry; the last carry is a limb itself. -/
def carryColumns : List UInt64 → UInt64 → Limbs
  | [], c => [c.toUInt32]
  | s :: sums, c =>
    let t := c + s
    low t :: carryColumns sums (high t)

/-- Product by columns. -/
def mulColumns (a b : Limbs) : Limbs :=
  trim (carryColumns ((List.range (a.length + b.length - 1)).map (column a b)) 0)

/-- Add `x` times a magnitude, and a carry, into a buffer. -/
def addScaled (x : UInt64) : Limbs → Limbs → UInt64 → Limbs
  | [], _, _ => []
  | o :: os, [], c =>
    if c = 0 then o :: os
    else
      let t := o.toUInt64 + c
      low t :: addScaled x os [] (high t)
  | o :: os, y :: ys, c =>
    let t := o.toUInt64 + x * y.toUInt64 + c
    low t :: addScaled x os ys (high t)

/-- Add the rows of a product into a buffer; each row starts one limb further up. -/
def addRows : Limbs → Limbs → Limbs → Limbs
  | [], _, out => out
  | x :: xs, b, out =>
    match if x = 0 then out else addScaled x.toUInt64 out b 0 with
    | [] => []
    | o :: os => o :: addRows xs b os

/-- Product by rows. -/
def mulRows (a b : Limbs) : Limbs :=
  trim (addRows a b (List.replicate (a.length + b.length) 0))

/-- The product of two magnitudes. -/
def mul : Limbs → Limbs → Limbs
  | [], _ => []
  | _, [] => []
  | [x], b => mulWord b x
  | a, [y] => mulWord a y
  | a, b =>
    if a.length ≤ columnLimit ∧ b.length ≤ columnLimit then mulColumns a b else mulRows a b

/-- Column `k` of a square: each cross product once and doubled, and the middle square. -/
def squareColumn (a : Limbs) (k : Nat) : UInt64 :=
  let part := (a.take (k + 1)).drop (k + 1 - a.length)
  let cross := dot (part.take (part.length / 2)) part.reverse
  let middle :=
    if part.length % 2 = 1 then (part.getD (part.length / 2) 0).toUInt64 else 0
  2 * cross + middle * middle

/-- The square of a magnitude. -/
def sqr (a : Limbs) : Limbs :=
  if a = [] then []
  else if columnLimit < a.length then mulRows a a
  else trim (carryColumns ((List.range (2 * a.length - 1)).map (squareColumn a)) 0)

end Secp.Limbs
