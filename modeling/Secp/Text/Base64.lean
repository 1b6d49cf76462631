import Secp.Bytes
import Secp.Error

/-!
# Base 64

Three bytes are written as four characters of six bits each; a last group of one or two bytes is
written as two or three characters and filled up with `=`. Reading drops at most two `=` at the
end and takes the rest four characters at a time. A last group of one character is refused. A
text is read byte by byte, so that a refused byte is named by the character of its number.
-/

namespace Secp.Base64

/-- The digits in order of their values. -/
def alphabet : List Char :=
  "ABCDEFGHIJKLMNOPQRSTUVWXYZabcdefghijklmnopqrstuvwxyz0123456789+/".toList

/-- The character of a six-bit value. -/
def digit (value : UInt32) : Char := alphabet.getD value.toNat 'A'

/-- The four characters of a 24-bit group. -/
def group (t : UInt32) : List Char :=
  [digit (t >>> 18 &&& 0x3f), digit (t >>> 12 &&& 0x3f), digit (t >>> 6 &&& 0x3f),
    digit (t &&& 0x3f)]

/-- The characters of a byte string. -/
def encodeBytes : Bytes → List Char
  | [] => []
  | [b] => (group (b.toUInt32 <<< 16)).take 2 ++ ['=', '=']
  | [b, c] => (group (b.toUInt32 <<< 16 ||| c.toUInt32 <<< 8)).take 3 ++ ['=']
  | b :: c :: d :: rest =>
    group (b.toUInt32 <<< 16 ||| c.toUInt32 <<< 8 ||| d.toUInt32) ++ encodeBytes rest

/-- Write a byte string. -/
def encode (data : Bytes) : String := String.ofList (encodeBytes data)

/-- The value of a digit, or the refusal that names the byte. -/
def sextet (b : UInt8) : Except Error UInt32 :=
  match alphabet.idxOf? (Char.ofNat b.toNat) with
  | some value => .ok (UInt32.ofNat value)
  | none => .error (.invalidCharacter (Char.ofNat b.toNat) 64)

/-- The bytes of a group of up to four values: one fewer than there are values. -/
def groupBytes (values : List UInt32) : Bytes :=
  let t := values.getD 0 0 <<< 18 ||| values.getD 1 0 <<< 12 ||| values.getD 2 0 <<< 6 |||
    values.getD 3 0
  [(t >>> 16).toUInt8, (t >>> 8).toUInt8, t.toUInt8].take (values.length - 1)

/-- The bytes of values, four at a time. -/
def decodeValues : List UInt32 → Bytes
  | v₀ :: v₁ :: v₂ :: v₃ :: rest => groupBytes [v₀, v₁, v₂, v₃] ++ decodeValues rest
  | values => groupBytes values

/-- Read a text with or without its filling. -/
def decode (s : String) : Except Error Bytes :=
  let bytes := s.toUTF8.data.toList
  let body := (bytes.reverse.dropWhile (· = '='.toUInt8)).reverse
  if 2 < bytes.length - body.length ∨ body.length % 4 = 1 then
    .error (.invalidEncoding (.base64Length bytes.length))
  else (body.mapM sextet).map decodeValues

end Secp.Base64
