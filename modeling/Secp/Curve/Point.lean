import Secp.Curve.Base

/-!
# Points in either form

A point is kept in the form that its making left it in: affine, perhaps with tables, or Jacobian.
Sums of affine points are affine, and a Jacobian operand makes the sum Jacobian. Multiples are
affine.
-/

namespace Secp.Curve

/-- A point in affine or Jacobian form. -/
inductive Point where
  | affine (base : Base)
  | jacobian (triple : Jacobian)

namespace Point

/-- The affine form, with the tables of an affine point. -/
def toBase : Point → Base
  | affine b => b
  | jacobian p => p.toAffine

/-- The affine form. -/
def toAffine (p : Point) : Affine := p.toBase.point

/-- The Jacobian form. -/
def toJacobian : Point → Jacobian
  | affine b => .ofAffine b.point
  | jacobian p => p

/-- Whether the point is infinity. -/
def isInfinity : Point → Bool
  | affine b => b.point.isInfinity
  | jacobian p => p.isInfinity

/-- Whether the affine form is on the curve. -/
def onCurve (p : Point) : Bool := p.toAffine.onCurve

/-- The sum. -/
def add : Point → Point → Point
  | affine p, affine q => affine ((Jacobian.ofAffine p.point).addAffine q.point).toAffine
  | jacobian p, affine q => jacobian (p.addAffine q.point)
  | affine p, jacobian q => jacobian (q.addAffine p.point)
  | jacobian p, jacobian q => jacobian (p.add q)

/-- The double. -/
def dbl : Point → Point
  | affine p => affine (Jacobian.ofAffine p.point).dbl.toAffine
  | jacobian p => jacobian p.dbl

/-- The opposite. -/
def neg : Point → Point
  | affine p => affine p.point.neg
  | jacobian p => jacobian p.neg

/-- A multiple. -/
def mul (p : Point) (k : Int) : Point := affine (p.toBase.mul k)

/-- Whether two points are the same, whatever their forms. -/
def agrees : Point → Point → Bool
  | jacobian p, jacobian q => p.agrees q
  | p, q => p.toAffine = q.toAffine

/-- The form shown for inspection. -/
def describe : Point → String
  | affine p => "Affine(" ++ p.point.describe ++ ")"
  | jacobian p => "Jacobian(" ++ p.toAffine.describe ++ ")"

end Point

end Secp.Curve
