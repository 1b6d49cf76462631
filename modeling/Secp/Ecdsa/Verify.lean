import Secp.Curve.Base
import Secp.Ecdsa.Digest
import Secp.Number.Euclid
import Secp.Signature.Basic

/-!
# Verification

A signature of a digest is genuine for a public key when the generator taken `e / s` times and the
key taken `r / s` times have a finite sum whose abscissa is `r` modulo the order. A key that is
infinity or off the curve verifies nothing.
-/

namespace Secp.Ecdsa

open Curve (order Base)

/-- Whether a signature of a digest is genuine. -/
def verify (digest : Int) (sig : Signature) (key : Base) : Bool :=
  if key.point.isInfinity || !key.point.onCurve then false
  else
    match Number.inverse? sig.s.val order with
    | none => false
    | some w =>
      let u := w * reduceDigest digest % order
      let v := w * sig.r.val % order
      match Base.generator.mulAdd u key v with
      | .infinity => false
      | .finite x _ => x.val % order = sig.r.val

end Secp.Ecdsa
