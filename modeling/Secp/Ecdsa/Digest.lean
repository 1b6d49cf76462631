import Secp.Curve.Parameters
import Secp.Number.Bits

/-!
# Digests as numbers

A digest is an integer. One of more whole bytes than the order has is cut to as many of its leading
bits as the order has, which drops the sign, and the order is taken off once where that is possible.
-/

namespace Secp.Ecdsa

-- Powers of numbers are core's, whichever others are in scope.
attribute [local instance(2000)] instPowNat

open Curve (order)

/-- The leading bits of a digest, as many as the order has. -/
def leadingBits (digest : Int) : Int :=
  let excess := 8 * Number.byteLength digest.natAbs - Number.bitLength order
  if 0 < excess then (digest.natAbs / 2 ^ excess : Nat) else digest

/-- The leading bits of a digest, less the order where that leaves no negative number. -/
def reduceDigest (digest : Int) : Int :=
  let e := leadingBits digest
  if order ≤ e then e - order else e

end Secp.Ecdsa
