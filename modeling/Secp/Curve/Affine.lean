import Secp.Curve.Parameters
import Secp.Residue.SquareRoot

/-!
# Points in affine coordinates

A point is infinity or a pair of field elements. The pair need not satisfy the equation of the
curve; `onCurve` says whether it does. Coordinates given as integers are accepted from zero up to
the prime, and a point whose ordinate is not given is found by a square root.
-/

namespace Secp.Curve

/-- Infinity, or a pair of coordinates. -/
inductive Affine where
  | infinity
  | finite (x y : Fp)
  deriving DecidableEq

namespace Affine

/-- Whether the point is infinity. -/
def isInfinity : Affine → Bool
  | infinity => true
  | finite _ _ => false

/-- The abscissa, and zero for infinity. -/
def x : Affine → Fp
  | infinity => Residue.zero
  | finite x _ => x

/-- The ordinate, and zero for infinity. -/
def y : Affine → Fp
  | infinity => Residue.zero
  | finite _ y => y

/-- The generator. -/
def generator : Affine := finite generatorX generatorY

/-- The right-hand side of the equation. -/
def cubic (x : Fp) : Fp := x.sqr * x + constantTerm

/-- Whether the point is infinity or satisfies the equation. -/
def onCurve : Affine → Bool
  | infinity => true
  | finite x y => y.sqr = cubic x

/-- The opposite point. -/
def neg : Affine → Affine
  | infinity => infinity
  | finite x y => finite x (-y)

instance : Neg Affine where neg := neg

/-- An integer as a coordinate; it is accepted from zero up to the prime. -/
def coordinate (v : Int) : Except Error Fp :=
  if v < 0 ∨ sparsePrime ≤ v then .error .invalidPoint else .ok (Residue.ofInt v)

/-- The point with given coordinates, which must satisfy the equation. -/
def ofCoordinates (x y : Int) : Except Error Affine := do
  let x ← coordinate x
  let y ← coordinate y
  let p := finite x y
  if p.onCurve then .ok p else .error .invalidPoint

/-- The pair of residues of two integers, with no condition on them. -/
def ofResidues (x y : Int) : Affine := finite (Residue.ofInt x) (Residue.ofInt y)

/-- The point with a given abscissa and an ordinate of given parity. -/
def ofAbscissa (x : Int) (odd : Bool) : Except Error Affine := do
  let x ← coordinate x
  match (cubic x).sqrt? with
  | none => .error .invalidPoint
  | some y => .ok (finite x (if y.isOdd = odd then y else -y))

/-- The form shown for inspection. -/
def describe : Affine → String
  | infinity => "AffinePoint(infinity)"
  | finite x y => "AffinePoint(" ++ Text.hex x.val ++ ", " ++ Text.hex y.val ++ ")"

end Affine

end Secp.Curve
