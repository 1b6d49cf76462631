import Secp.Curve.FixedBase
import Secp.Curve.JointSum
import Secp.Number.Bits

/-!
# Tables of a point

A point that is multiplied often is given tables: repeated doubles, which cover scalars a little
longer than the order, and the odd multiples of a five-bit window with their images under the
endomorphism.
-/

namespace Secp.Curve

/-- Doublings from one entry of the table of doubles to the next. -/
def doublesStep : Nat := 4

/-- The window of the tables of odd multiples. -/
def tableWindow : Nat := 5

/-- Precomputed multiples of a point. -/
structure Tables where
  doubles : List Affine
  odd : List Affine
  oddImages : List Affine
  deriving DecidableEq

namespace Tables

/-- The next entries of the table of doubles. -/
def doublesFrom : Nat → Jacobian → List Affine
  | 0, _ => []
  | count + 1, p =>
    let next := p.dblTimes doublesStep
    next.toAffine :: doublesFrom count next

/-- The tables of a point. -/
def build (p : Affine) : Tables :=
  let count := (Number.bitLength order + doublesStep) / doublesStep
  let odd := (OddMultiples.ofWindow tableWindow p).map Jacobian.toAffine
  ⟨p :: doublesFrom count (.ofAffine p), odd, odd.map fun q ↦ .finite (q.x * beta) q.y⟩

/-- Whether the table of doubles has an entry for every piece of a scalar's digits. -/
def cover (t : Tables) (k : Int) : Bool :=
  (Number.bitLength k.natAbs + 1 + doublesStep - 1) / doublesStep ≤ t.doubles.length

/-- The multiple by a scalar that the table of doubles covers. -/
def multiple (t : Tables) (k : Int) : Affine :=
  let p := (FixedBase.multiple doublesStep t.doubles k.natAbs).toAffine
  if k < 0 then p.neg else p

end Tables

end Secp.Curve
