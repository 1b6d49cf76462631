import Secp.Curve.Encoding
import Secp.Ecdsa.Recover
import Secp.Ecdsa.Verify
import Secp.Key.Private
import Secp.LimbInt.Octets
import Secp.Signature.Compact

/-!
# Public keys

A public key is a point, in the checked constructors a finite point of the curve. Digests are byte
strings, read as numbers. A shared secret is a multiple of the other side's point, which is checked
first.
-/

namespace Secp

open Curve (Affine Base)

/-- A point that serves as a public key. -/
structure PublicKey where
  base : Base

namespace PublicKey

/-- The point. -/
def point (key : PublicKey) : Affine := key.base.point

/-- Whether two public keys have the same point. -/
def agrees (key other : PublicKey) : Bool := key.point = other.point

/-- The public key of a private key. -/
def ofPrivate (key : PrivateKey) : PublicKey := ⟨Base.generator.mul key.scalar.val⟩

/-- A finite point of the curve as a public key. -/
def ofPoint (p : Base) : Except Error PublicKey :=
  if p.point.isInfinity then .error .pointAtInfinity
  else if p.point.onCurve then .ok ⟨p⟩
  else .error .invalidPoint

/-- Read an encoded point. -/
def ofBytes (b : Bytes) : Except Error PublicKey := do
  let p ← Affine.decode b
  ofPoint p

/-- Read an encoded point in hexadecimal digits, two for each byte. -/
def ofHex (s : String) : Except Error PublicKey := do
  let n ← LimbInt.ofHex s
  let b ← n.toBytesPadded (s.utf8ByteSize / 2)
  ofBytes b

/-- The encoding with the abscissa alone, or with both coordinates. -/
def toBytes (key : PublicKey) (compressed : Bool) : Bytes := key.point.encode compressed

/-- The encoding with the abscissa alone, which infinity does not have. -/
def toCompressed (key : PublicKey) : Except Error Bytes :=
  if key.point.isInfinity then .error .noCompressedForm else .ok (key.toBytes true)

/-- The compressed encoding in hexadecimal digits. -/
def toHex (key : PublicKey) : Except Error String := key.toCompressed.map Bytes.hex

/-- The form shown for inspection. -/
def describe (key : PublicKey) : Except Error String :=
  key.toHex.map fun s ↦ "PublicKey(" ++ s ++ ")"

/-- Whether a signature of a digest is genuine. -/
def verify (key : PublicKey) (digest : Bytes) (sig : Signature) : Bool :=
  Ecdsa.verify (Bytes.toNat digest) sig key.base

/-- The public key of a signature of a digest, by a recovery id. -/
def recover (digest : Bytes) (sig : Signature) (id : UInt8) : Except Error PublicKey :=
  (Ecdsa.recover id (Bytes.toNat digest) sig).map fun p ↦ ⟨p⟩

/-- The public key of a compact signature of a digest, which must carry a recovery id. -/
def recoverCompact (digest compact : Bytes) : Except Error PublicKey := do
  let sig ← Signature.ofCompact compact
  match sig.recoveryId with
  | none => .error (.invalidEncoding .noRecoveryId)
  | some id => recover digest sig (UInt8.ofNat id.val)

/-- The recovery id by which a signature of a digest gives the key. -/
def recoveryId (key : PublicKey) (digest : Bytes) (sig : Signature) : Except Error (Fin 4) :=
  Ecdsa.recoveryId key.point (Bytes.toNat digest) sig

end PublicKey

namespace PrivateKey

/-- Sign a digest. -/
def sign (key : PrivateKey) (digest : Bytes) (options : SignOptions := {}) :
    Except Error Signature :=
  Ecdsa.sign (Bytes.toNat digest) key.scalar options

/-- Sign a digest, and attach the recovery id. -/
def signRecoverable (key : PrivateKey) (digest : Bytes) : Except Error Signature :=
  Ecdsa.signRecoverable (Bytes.toNat digest) key.scalar {}

/-- Whether a signature of a digest is genuine for the public key of this key. -/
def verify (key : PrivateKey) (digest : Bytes) (sig : Signature) : Bool :=
  (PublicKey.ofPrivate key).verify digest sig

/-- The point shared with the holder of a public key, which must be a finite point of the curve. -/
def sharedSecret (key : PrivateKey) (other : PublicKey) : Except Error Affine :=
  if other.point.isInfinity || !other.point.onCurve then .error .invalidPoint
  else .ok (other.base.mul key.scalar.val)

end PrivateKey

end Secp
