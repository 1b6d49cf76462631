import Secp.Curve.Base
import Secp.Curve.Scalar
import Secp.Ecdsa.Digest
import Secp.Number.Euclid
import Secp.Settings
import Secp.Signature.Basic

/-!
# Signing

With a nonce `k`, the first part of a signature is the abscissa of `k` times the generator, and
the second is `(e + r * key) / k`, both modulo the order, where `e` is the reduced digest. Nonces
are drawn from a generator seeded with the key and the digest, until one gives a signature.
-/

namespace Secp.Ecdsa

open Curve (order Scalar Base)

/-- The signature of a reduced digest with a nonce, unless one of its parts is zero. -/
def signReduced? (e : Int) (key nonce : Scalar) (options : SignOptions) : Option Signature := do
  match Base.generator.mul nonce.val with
  | .infinity => none
  | .finite x _ =>
    let r ← Scalar.ofInt? (x.val % order : Nat)
    let w ← Number.inverse? nonce.val order
    let s ← Scalar.ofInt? (w * (r.val * key.val + e) % order)
    some ⟨r, if options.forceLowS then s.toLow else s, none⟩

/-- Sign with a given nonce. -/
def signWithNonce (digest : Int) (key nonce : Scalar) (options : SignOptions) :
    Except Error Signature :=
  match signReduced? (reduceDigest digest) key nonce options with
  | some sig => .ok sig
  | none => .error (.outOfRange .degenerateNonce)

/-- A drawn byte string as a nonce; one and its opposite are passed over. -/
def candidate? (b : Bytes) : Option Scalar :=
  let k := leadingBits (Bytes.toNat b)
  if k ≤ 1 ∨ order - 1 ≤ k then none else Scalar.ofInt? k

/-- The entropy and the nonce that seed the generator for a reduced digest. -/
def seedParts (e : Int) (key : Scalar) : Bytes × Bytes :=
  (Bytes.bigEndian 32 key.val, Bytes.bigEndian 32 e.natAbs)

/-- Sign. The nonce depends on the key and the digest alone. -/
def sign (digest : Int) (key : Scalar) (options : SignOptions) : Except Error Signature := do
  let e := reduceDigest digest
  let (entropy, nonce) := seedParts e key
  let d ← Drbg.seed entropy nonce []
  d.drawUntil 32 fun bytes ↦ (candidate? bytes).bind (signReduced? e key · options)

end Secp.Ecdsa
