import Secp.Curve.Jacobian
import Secp.Number.NonAdjacent

/-!
# Sums of several multiples

Several multiples are summed in one run over the digits of their scalars, most significant first:
the sum so far is doubled, and each term whose scalar has a digit other than zero there adds the
odd multiple of its point that the digit names. The odd multiples stand in tables, in affine or
in Jacobian coordinates.
-/

namespace Secp.Curve

-- Powers of numbers are core's, whichever others are in scope.
attribute [local instance(2000)] instPowNat

/-- The odd multiples of a point, ascending. -/
inductive OddMultiples where
  | affine (points : List Affine)
  | jacobian (points : List Jacobian)

namespace OddMultiples

/-- The next odd multiples, each the one before plus twice the point. -/
def ascending (twice : Jacobian) : Nat → Jacobian → List Jacobian
  | 0, _ => []
  | count + 1, p => p :: ascending twice count (p.add twice)

/-- The odd multiples that the digits of a window need. -/
def ofWindow (window : Nat) (p : Affine) : List Jacobian :=
  let p := Jacobian.ofAffine p
  ascending p.dbl (2 ^ (window - 2)) p

/-- Add the multiple that an odd digit names; a negative digit names an opposite. -/
def addMultiple (table : OddMultiples) (sum : Jacobian) (digit : Int) : Jacobian :=
  let index := (digit.natAbs - 1) / 2
  match table with
  | affine points =>
    let p := points.getD index .infinity
    sum.addAffine (if 0 < digit then p else p.neg)
  | jacobian points =>
    let p := points.getD index .infinity
    sum.add (if 0 < digit then p else p.neg)

end OddMultiples

/-- A multiple of a point: the digits of the scalar, and the odd multiples of the point. -/
structure Term where
  digits : List Int
  table : OddMultiples

namespace Term

/-- A multiple of a point; a negative scalar has the opposite digits. -/
def ofScalar (window : Nat) (k : Int) (table : OddMultiples) : Term :=
  let digits := Number.nonAdjacentForm window k.natAbs
  ⟨if k < 0 then digits.map (- ·) else digits, table⟩

/-- Add what the term contributes at one place. -/
def addAt (place : Nat) (sum : Jacobian) (t : Term) : Jacobian :=
  let digit := t.digits.getD place 0
  if digit = 0 then sum else t.table.addMultiple sum digit

end Term

/-- Run over the places below a given one, from the highest down. -/
def jointSumFrom (terms : List Term) : Nat → Jacobian → Jacobian
  | 0, sum => sum
  | place + 1, sum => jointSumFrom terms place (terms.foldl (Term.addAt place) sum.dbl)

/-- The sum of the multiples. -/
def jointSum (terms : List Term) : Jacobian :=
  jointSumFrom terms ((terms.map (·.digits.length)).foldl max 0) .infinity

end Secp.Curve
