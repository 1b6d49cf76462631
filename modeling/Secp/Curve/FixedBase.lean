import Secp.Curve.Jacobian
import Secp.Number.NonAdjacent
import Secp.Pieces

/-!
# Multiples of a fixed point

With the points `P`, `2 ^ s P`, `2 ^ (2 s) P` and so on in a table, a multiple of `P` needs no
doubling. The signed digits of the scalar are cut into pieces of `s`, and each piece stands for a
number times one point of the table. Points that go with the same number are collected together:
running from the greatest magnitude down, `collected` holds the sum of all points met so far, and
adding it to the result once for each magnitude counts every point as often as it should be.
-/

namespace Secp.Curve.FixedBase

-- Powers of numbers are core's, whichever others are in scope.
attribute [local instance(2000)] instPowNat

/-- The number that a piece of digits stands for, least significant first. -/
def pieceValue (digits : List Int) : Int := digits.foldr (fun d n ↦ 2 * n + d) 0

/-- The numbers that go with the points of the table. -/
def pieceValues (step k : Nat) : List Int :=
  (pieces step (Number.nonAdjacentForm 2 k)).map pieceValue

/-- The greatest magnitude of a piece, which has a one in every other digit. -/
def maxMagnitude (step : Nat) : Nat :=
  (2 ^ (step + 1) - (if step % 2 = 0 then 2 else 1)) / 3

/-- Add the points that go with a magnitude, or their opposites where the number is negative. -/
def collect (magnitude : Nat) (parts : List (Int × Affine)) (collected : Jacobian) : Jacobian :=
  parts.foldl
    (fun sum (value, p) ↦
      if value = magnitude then sum.addAffine p
      else if value = -(magnitude : Int) then sum.addAffine p.neg
      else sum)
    collected

/-- Run over the magnitudes from a given one down to one. -/
def sumDown (parts : List (Int × Affine)) : Nat → Jacobian → Jacobian → Jacobian
  | 0, result, _ => result
  | magnitude + 1, result, collected =>
    let collected := collect (magnitude + 1) parts collected
    sumDown parts magnitude (result.add collected) collected

/-- The multiple of the first point of a table of repeated doubles. -/
def multiple (step : Nat) (doubles : List Affine) (k : Nat) : Jacobian :=
  sumDown ((pieceValues step k).zip doubles) (maxMagnitude step) .infinity .infinity

end Secp.Curve.FixedBase
