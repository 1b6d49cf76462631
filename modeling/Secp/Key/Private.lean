import Secp.Curve.Base
import Secp.Curve.Scalar
import Secp.LimbInt.Radix
import Secp.Randomness
import Secp.Text.Base58Check

/-!
# Private keys

A private key is a scalar. It is written as 32 bytes, as 64 hexadecimal digits, or as wallets
exchange it: a version byte, the 32 bytes and perhaps a byte of one, in base 58 with a checksum.
An integer whose range has not been checked is kept apart until it is.
-/

namespace Secp

open Curve (order Scalar)

/-- A secret scalar. -/
structure PrivateKey where
  scalar : Scalar
  deriving DecidableEq

namespace PrivateKey

/-- Bytes of a key. -/
def size : Nat := 32

/-- The version byte of keys of the main network. -/
def mainVersion : UInt8 := 0x80

/-- The byte behind a key whose public key is written in compressed form. -/
def compressedFlag : UInt8 := 0x01

/-- An integer as a key; it must be a scalar. -/
def ofInt (k : Int) : Except Error PrivateKey := (Scalar.ofInt .privateKey k).map mk

/-- Draw a key. A number out of range is drawn anew. -/
def draw (stream : Bytes) : Except Error (PrivateKey × Bytes) :=
  match _h : Draw.number stream with
  | .error e => .error e
  | .ok (n, rest) =>
    match ofInt n with
    | .ok key => .ok (key, rest)
    | .error _ => draw rest
termination_by stream.length
decreasing_by exact Draw.length_of_number _h

/-- Read 32 bytes, most significant first. -/
def ofBytes (b : Bytes) : Except Error PrivateKey :=
  if b.length = size then ofInt (Bytes.toNat b)
  else .error (.invalidEncoding (.keyLength b.length))

/-- Read hexadecimal digits. -/
def ofHex (s : String) : Except Error PrivateKey := do
  let k ← LimbInt.ofHex s
  ofInt k.toInt

/-- Refuse the payload of a wallet text that has the wrong length or another flag. -/
def checkPayload (payload : Bytes) : Except Error Unit :=
  if payload.length = size + 1 then .ok ()
  else if payload.length = size + 2 then
    if payload.getLast? = some compressedFlag then .ok ()
    else .error (.invalidEncoding .compressionFlag)
  else .error (.invalidEncoding (.walletLength payload.length))

/-- Read a key in wallet form. -/
def ofWallet (s : String) : Except Error PrivateKey := do
  let payload ← Base58Check.decode s
  checkPayload payload
  ofBytes ((payload.drop 1).take size)

/-- The key in 32 bytes. -/
def toBytes (key : PrivateKey) : Bytes := Bytes.bigEndian size key.scalar.val

/-- The key in 64 hexadecimal digits. -/
def toHex (key : PrivateKey) : String :=
  String.ofList (Text.fixedDigits 16 (2 * size) key.scalar.val)

/-- The key in wallet form, with the flag of compressed public keys. -/
def toWallet (key : PrivateKey) (version : UInt8 := mainVersion) : String :=
  Base58Check.encode (version :: (key.toBytes ++ [compressedFlag]))

/-- The form shown for inspection, which keeps the key secret. -/
def describe (_ : PrivateKey) : String := "PrivateKey(<redacted>)"

end PrivateKey

/-- A number given as a private key whose range has not been checked. -/
structure UncheckedKey where
  value : Nat
  deriving DecidableEq, Repr

namespace UncheckedKey

/-- An integer that may be a key; only a negative one is refused. -/
def ofInt (k : Int) : Except Error UncheckedKey :=
  if k < 0 then .error (.outOfRange .negativeKey) else .ok ⟨k.toNat⟩

/-- Read hexadecimal digits. -/
def ofHex (s : String) : Except Error UncheckedKey := do
  let k ← LimbInt.ofHex s
  ofInt k.toInt

/-- A key, whose range is known. -/
def ofKey (key : PrivateKey) : UncheckedKey := ⟨key.scalar.val⟩

/-- The key, if the number is in range. -/
def check (k : UncheckedKey) : Except Error PrivateKey := PrivateKey.ofInt k.value

/-- The key of the number modulo the order, which must not be zero. -/
def normalize (k : UncheckedKey) : Except Error PrivateKey :=
  PrivateKey.ofInt (k.value % order : Nat)

/-- The wallet form, if the number is in range. -/
def toWallet (k : UncheckedKey) : Except Error String := k.check.map (·.toWallet)

/-- The form shown for inspection, which keeps the number secret. -/
def describe (_ : UncheckedKey) : String := "UncheckedPrivateKey(<redacted>)"

end UncheckedKey

end Secp
