import Secp.Key.Private
import Secp.Proofs.Bytes
import Secp.Proofs.Curve.Scalar
import Secp.Proofs.Outcome
import Secp.Proofs.Text.Base58

/-!
# Private keys in their written forms

The bytes of a key are the only ones that are read as it. The payload of a wallet text is accepted
if it is a version byte, a key in 32 bytes and perhaps the flag of a compressed public key. So a
text is read as a key exactly if it is the text of such a payload for the key, whatever the version
byte is.
-/

namespace Secp.PrivateKey

open Curve (order Scalar)

/-- The payload of a key behind a version byte, with the flag or without it. -/
def payload (version : UInt8) (key : PrivateKey) (flagged : Bool) : Bytes :=
  version :: (key.toBytes ++ if flagged then [compressedFlag] else [])

/-- A key is the integer that it is the value of. -/
theorem ofInt_eq_ok_iff {k : Int} {key : PrivateKey} :
    ofInt k = .ok key ↔ k = key.scalar.val := by
  rw [ofInt, map_eq_ok_iff]
  constructor
  · rintro ⟨s, hs, rfl⟩
    exact Scalar.ofInt_eq_ok_iff.mp hs
  · intro h
    exact ⟨key.scalar, Scalar.ofInt_eq_ok_iff.mpr h, rfl⟩

end Secp.PrivateKey
