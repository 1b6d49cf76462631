import Secp.Curve.Parameters
import Secp.Number.Rounding

/-!
# Splitting a scalar in two

The pairs `(u, v)` with `u + v * lambda` a multiple of the order form a lattice, and a scalar `k`
splits into two of about half its length: `(k, 0)` less a lattice vector near to it. The vector
is found by rounding the coordinates of `(k, 0)` in a short basis.
-/

namespace Secp.Curve

/-- A vector of the splitting lattice. -/
structure LatticeVector where
  scalar : Int
  lambdaPart : Int
  deriving DecidableEq, Repr

/-- The first short basis vector. -/
def shortVector₁ : LatticeVector :=
  ⟨0x3086D221A7D46BCDE86C90E49284EB15, -0xE4437ED6010E88286F547FA90ABFE4C3⟩

/-- The second short basis vector. -/
def shortVector₂ : LatticeVector :=
  ⟨0x114CA50F7A8E2F3F657C1108D9D44CFD8, 0x3086D221A7D46BCDE86C90E49284EB15⟩

/-- Two short scalars whose sum, the second taken `lambda` times, is `k` modulo the order. -/
def split (k : Int) : Int × Int :=
  let c₁ := Number.divRound (shortVector₂.lambdaPart * k) order
  let c₂ := Number.divRound (-shortVector₁.lambdaPart * k) order
  (k - c₁ * shortVector₁.scalar - c₂ * shortVector₂.scalar,
    -(c₁ * shortVector₁.lambdaPart + c₂ * shortVector₂.lambdaPart))

end Secp.Curve
