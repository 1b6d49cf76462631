import Secp.Curve.Parameters
import Secp.Error

/-!
# Scalars

Private keys, nonces and the two parts of a signature are numbers from one up to, and without,
the order of the group.
-/

namespace Secp.Curve

/-- A number in `[1, order - 1]`. -/
structure Scalar where
  val : Nat
  pos : 0 < val
  lt : val < order
  deriving DecidableEq

namespace Scalar

/-- An integer as a scalar, if it is in range. -/
def ofInt? (k : Int) : Option Scalar :=
  if h : 0 < k.toNat ∧ k.toNat < order then some ⟨k.toNat, h.1, h.2⟩ else none

/-- An integer as a scalar, or the given refusal. -/
def ofInt (fault : RangeFault) (k : Int) : Except Error Scalar :=
  match ofInt? k with
  | some s => .ok s
  | none => .error (.outOfRange fault)

/-- The opposite scalar. -/
def neg (s : Scalar) : Scalar :=
  ⟨order - s.val, Nat.sub_pos_of_lt s.lt, by
    have := s.pos
    have := s.lt
    omega⟩

/-- Whether the scalar is at most half the order. -/
def isLow (s : Scalar) : Bool := s.val ≤ halfOrder

/-- The scalar or its opposite, whichever is low. -/
def toLow (s : Scalar) : Scalar := if s.isLow then s else s.neg

end Scalar

end Secp.Curve
