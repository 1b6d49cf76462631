import Secp.LimbInt.Bits

/-!
# Division of integers

The quotient is truncated toward zero and the remainder takes the sign of the dividend. The
least non-negative remainder, the rounded quotient and Euclid's algorithm follow from them. A zero
divisor is refused.
-/

namespace Secp.LimbInt

/-- Truncated quotient by a word, and the magnitude of the remainder. -/
def divWord (a : LimbInt) (d : UInt32) : Except Error (LimbInt × UInt32) :=
  if d = 0 then .error .divisionByZero
  else
    let (q, r) := a.limbs.divWord d
    .ok (ofParts a.negative q, r)

/-- Truncated quotient, and the remainder with the sign of the dividend. -/
def divRem (a d : LimbInt) : Except Error (LimbInt × LimbInt) :=
  if d.isZero then .error .divisionByZero
  else
    let (q, r) := a.limbs.divRem d.limbs
    .ok (ofParts (a.negative != d.negative) q, ofParts a.negative r)

/-- Truncated quotient. -/
def div (a d : LimbInt) : Except Error LimbInt := (a.divRem d).map Prod.fst

/-- Remainder with the sign of the dividend. -/
def rem (a d : LimbInt) : Except Error LimbInt := (a.divRem d).map Prod.snd

/-- Remainder in `[0, |d|)`. -/
def umod (a d : LimbInt) : Except Error LimbInt :=
  (a.rem d).map fun r ↦ if r.negative then r.add d.abs else r

/-- The quotient rounded to the nearest integer, exact halves upwards, of the truncated quotient
and its remainder: first the floor and the rest above it, then one more if twice the rest reaches
the divisor. -/
def roundQuotient (a d q r : LimbInt) : LimbInt :=
  if r.isZero then q
  else
    let opposite := a.negative != d.negative
    let floor := if opposite then q.subWord 1 else q
    let rest := if opposite then d.abs.sub r.abs else r.abs
    if (rest.shl 1).compareMagnitude d.abs = .lt then floor else floor.addWord 1

/-- Quotient rounded to the nearest integer, exact halves upwards. -/
def divRound (a d : LimbInt) : Except Error LimbInt :=
  (a.divRem d).map fun (q, r) ↦ a.roundQuotient d q r

/-- The loop of `gcd`, which goes on until a remainder is zero. Of canonical integers every
remainder is smaller than its divisor, and the loop has a result. -/
def gcdFrom (a b : LimbInt) : Option LimbInt :=
  if b.isZero then some a
  else do
    let r ← (a.rem b).toOption
    if _h : r.limbs.toNat < b.limbs.toNat then gcdFrom b r else none
termination_by b.limbs.toNat

/-- Greatest common divisor of the magnitudes, by repeated remainders. -/
def gcd (a b : LimbInt) : LimbInt := (gcdFrom a.abs b.abs).getD zero

/-- The loop of `inverse?`: `x` and `y` are the factors of the current pair `a`, `b`. It goes on as
that of `gcd` does, and ends with the greatest common divisor and its factor. -/
def cofactorFrom (a b x y : LimbInt) : Option (LimbInt × LimbInt) :=
  if b.isZero then some (a, x)
  else do
    let (q, r) ← (a.divRem b).toOption
    if _h : r.limbs.toNat < b.limbs.toNat then cofactorFrom b r y (x.sub (q.mul y)) else none
termination_by b.limbs.toNat

/-- The inverse modulo `m`, in `[0, |m|)`, by Euclid's algorithm. -/
def inverse? (a m : LimbInt) : Option LimbInt := do
  let rest ← (a.umod m.abs).toOption
  let (g, x) ← cofactorFrom rest m.abs one zero
  if g = one then (x.umod m.abs).toOption else none

end Secp.LimbInt
