import Secp.Curve.Affine

/-!
# Points in Jacobian coordinates

A triple `(X, Y, Z)` with `Z` not zero stands for the point `(X / Z ^ 2, Y / Z ^ 3)`, and one with
`Z` zero for infinity. Sums and doubles need no division: the quotients are taken once, when the
point is turned back into affine form.
-/

namespace Secp.Curve

/-- A triple of coordinates. -/
structure Jacobian where
  x : Fp
  y : Fp
  z : Fp
  deriving DecidableEq

namespace Jacobian

/-- Infinity. -/
def infinity : Jacobian := ⟨Residue.one, Residue.one, Residue.zero⟩

/-- Whether the triple stands for infinity. -/
def isInfinity (p : Jacobian) : Bool := p.z.isZero

/-- The triple of an affine point. -/
def ofAffine : Affine → Jacobian
  | .infinity => infinity
  | .finite x y => ⟨x, y, Residue.one⟩

/-- The affine point that the triple stands for. -/
def toAffine (p : Jacobian) : Affine :=
  match p.z.inverse? with
  | none => .infinity
  | some w =>
    let w₂ := w.sqr
    .finite (p.x * w₂) (p.y * (w₂ * w))

/-- The double, by the tangent. A point of order two gives infinity. -/
def dbl (p : Jacobian) : Jacobian :=
  if p.isInfinity || p.y.isZero then infinity
  else
    let y₂ := p.y.sqr
    let s := (p.x * y₂).mulSmall 4
    let m := p.x.sqr.mulSmall 3
    let x := m.sqr - s - s
    ⟨x, m * (s - x) - y₂.sqr.mulSmall 8, (p.y * p.z).mulSmall 2⟩

/-- Double a number of times. -/
def dblTimes : Nat → Jacobian → Jacobian
  | 0, p => p
  | count + 1, p => dblTimes count p.dbl

/-- The end of a sum: from the first abscissa and ordinate over the common denominator, the
differences `h` and `r` to the second ones, and the product of the denominators, the third point
of the chord. Where the abscissas agree the points are equal or opposite. -/
def chord (p : Jacobian) (u s h r z : Fp) : Jacobian :=
  if h.isZero then
    if r.isZero then p.dbl else infinity
  else
    let h₂ := h.sqr
    let h₃ := h₂ * h
    let v := u * h₂
    let x := r.sqr - h₃ - v - v
    ⟨x, r * (v - x) - s * h₃, h * z⟩

/-- The sum. -/
def add (p q : Jacobian) : Jacobian :=
  if p.isInfinity then q
  else if q.isInfinity then p
  else
    let p₂ := p.z.sqr
    let q₂ := q.z.sqr
    let u := p.x * q₂
    let s := p.y * (q₂ * q.z)
    chord p u s (q.x * p₂ - u) (q.y * (p₂ * p.z) - s) (p.z * q.z)

/-- The sum with an affine point, which needs fewer products. -/
def addAffine (p : Jacobian) : Affine → Jacobian
  | .infinity => p
  | .finite x y =>
    if p.isInfinity then ofAffine (.finite x y)
    else
      let p₂ := p.z.sqr
      chord p p.x p.y (x * p₂ - p.x) (y * (p₂ * p.z) - p.y) p.z

/-- The opposite. -/
def neg (p : Jacobian) : Jacobian := { p with y := -p.y }

/-- Multiply the abscissa by `beta`, and thereby the point by `lambda`. -/
def endomorphism (p : Jacobian) : Jacobian := { p with x := p.x * beta }

/-- Whether two triples stand for the same point. Denominators are cleared, not divided by. -/
def agrees (p q : Jacobian) : Bool :=
  if p.isInfinity || q.isInfinity then p.isInfinity && q.isInfinity
  else
    let p₂ := p.z.sqr
    let q₂ := q.z.sqr
    p.x * q₂ = q.x * p₂ && p.y * (q₂ * q.z) = q.y * (p₂ * p.z)

end Jacobian

end Secp.Curve
