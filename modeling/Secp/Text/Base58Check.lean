import Secp.Hash.Sha256
import Secp.Text.Base58

/-!
# Base 58 with a checksum

The first four bytes of the double digest of a payload are appended to it before it is written.
-/

namespace Secp.Base58Check

/-- Bytes of a checksum. -/
def checksumLength : Nat := 4

/-- The checksum of a payload. -/
def checksum (payload : Bytes) : Bytes := (Sha256.doubleDigest payload).take checksumLength

/-- Write a payload and its checksum. -/
def encode (payload : Bytes) : String := Base58.encode (payload ++ checksum payload)

/-- Read a payload; a text shorter than a checksum and a wrong checksum are refused. -/
def decode (s : String) : Except Error Bytes :=
  match Base58.decode s with
  | .error e => .error e
  | .ok data =>
    if data.length < checksumLength then .error (.invalidEncoding (.shortChecksum data.length))
    else
      let payload := data.take (data.length - checksumLength)
      if checksum payload = data.drop (data.length - checksumLength) then .ok payload
      else .error .invalidChecksum

end Secp.Base58Check
