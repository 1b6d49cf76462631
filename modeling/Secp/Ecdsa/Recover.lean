import Secp.Ecdsa.Sign

/-!
# Recovery of the public key

A signature and a recovery id name the point that the nonce gave, and with the digest that point
gives back the public key. Of the four ids one is found by trying them in turn.
-/

namespace Secp.Ecdsa

open Curve (order Affine Base Scalar)

/-- The abscissa that a recovery id names; `r` plus the order must be below the prime. -/
def abscissa (id : Fin 4) (r : Scalar) : Except Error Nat :=
  if id.val / 2 = 0 then .ok r.val
  else if sparsePrime - order ≤ r.val then .error .invalidPoint
  else .ok (r.val + order)

/-- The public key of a signature of a digest, by the recovery id. -/
def recoverWith (id : Fin 4) (digest : Int) (sig : Signature) : Except Error Affine := do
  let x ← abscissa id sig.r
  let p ← Affine.ofAbscissa x (id.val % 2 = 1)
  match Number.inverse? sig.r.val order with
  | none => .error (.outOfRange .noInverse)
  | some w =>
    let u := (order - reduceDigest digest * w % order) % order
    let v := sig.s.val * w % order
    match Base.generator.mulAdd u p v with
    | .infinity => .error .pointAtInfinity
    | q => .ok q

/-- The public key of a signature of a digest, by a recovery id that must be at most three. -/
def recover (id : UInt8) (digest : Int) (sig : Signature) : Except Error Affine :=
  if h : id.toNat < 4 then recoverWith ⟨id.toNat, h⟩ digest sig
  else .error (.invalidRecoveryId id)

/-- Whether a recovery id gives the public key. -/
def recovers (key : Affine) (digest : Int) (sig : Signature) (id : Fin 4) : Bool :=
  match recoverWith id digest sig with
  | .ok q => q = key
  | .error _ => false

/-- The first recovery id that gives the public key. -/
def recoveryId (key : Affine) (digest : Int) (sig : Signature) : Except Error (Fin 4) :=
  match (List.finRange 4).find? (recovers key digest sig) with
  | some id => .ok id
  | none => .error .recoveryIdNotFound

/-- Sign, and attach the recovery id. -/
def signRecoverable (digest : Int) (key : Scalar) (options : SignOptions) :
    Except Error Signature := do
  let sig ← sign digest key options
  let id ← recoveryId (Base.generator.mul key.val) digest sig
  .ok { sig with recoveryId := some id }

end Secp.Ecdsa
