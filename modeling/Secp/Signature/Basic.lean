import Secp.Curve.Scalar

/-!
# Signatures

A signature is a pair of scalars `r` and `s`. It may carry a recovery id, which tells the points
apart that have `r` for an abscissa: bit zero is the parity of the ordinate, and bit one says that
the abscissa is `r` plus the order.
-/

namespace Secp

open Curve (Scalar)

/-- A pair of scalars, perhaps with a recovery id. -/
structure Signature where
  r : Scalar
  s : Scalar
  recoveryId : Option (Fin 4)
  deriving DecidableEq

namespace Signature

/-- The signature of two integers, each of which must be a scalar. -/
def ofInts (r s : Int) : Except Error Signature := do
  let r ← Scalar.ofInt (.signaturePart "r") r
  let s ← Scalar.ofInt (.signaturePart "s") s
  .ok ⟨r, s, none⟩

/-- Attach a recovery id, which is at most three. -/
def withRecoveryId (sig : Signature) (id : UInt8) : Except Error Signature :=
  if h : id.toNat < 4 then .ok { sig with recoveryId := some ⟨id.toNat, h⟩ }
  else .error (.invalidRecoveryId id)

/-- Whether the second part is at most half the order. -/
def hasLowS (sig : Signature) : Bool := sig.s.isLow

/-- The recovery id with the other parity. -/
def otherParity (id : Fin 4) : Fin 4 :=
  match id with
  | 0 => 1
  | 1 => 0
  | 2 => 3
  | 3 => 2

/-- The signature with a low second part. Taking its opposite turns the parity round. -/
def toLowS (sig : Signature) : Signature :=
  if sig.hasLowS then sig
  else { sig with s := sig.s.neg, recoveryId := sig.recoveryId.map otherParity }

end Signature

end Secp
