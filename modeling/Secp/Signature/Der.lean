import Secp.Bytes
import Secp.Number.Bits
import Secp.Signature.Basic

/-!
# Signatures in distinguished encoding

A signature is written as a sequence of two integers. Each integer is a tag, a length in one byte
and the fewest bytes, most significant first, whose top bit is clear. Reading accepts that form
only, so that every signature has one encoding.
-/

namespace Secp.Signature

/-- The tag of a sequence. -/
def sequenceTag : UInt8 := 0x30

/-- The tag of an integer. -/
def integerTag : UInt8 := 0x02

/-- The fewest bytes of a number, at least one, with a zero byte in front if their top bit is
set. -/
def derBody (n : Nat) : Bytes :=
  let bytes := Bytes.bigEndian (max 1 (Number.byteLength n)) n
  if bytes.headD 0 &&& 0x80 ≠ 0 then 0 :: bytes else bytes

/-- A number as a tagged integer. -/
def derInteger (n : Nat) : Bytes :=
  integerTag :: UInt8.ofNat (derBody n).length :: derBody n

/-- The two integers in a sequence. The recovery id is left out. -/
def toDer (sig : Signature) : Bytes :=
  let body := derInteger sig.r.val ++ derInteger sig.s.val
  sequenceTag :: UInt8.ofNat body.length :: body

/-- The first byte, and the others. -/
def readByte : Bytes → Except Error (UInt8 × Bytes)
  | [] => .error (.malformedDer .endOfInput)
  | b :: rest => .ok (b, rest)

/-- A length in one byte. -/
def readLength (b : Bytes) : Except Error (Nat × Bytes) := do
  let (n, rest) ← readByte b
  if n &&& 0x80 ≠ 0 then .error (.malformedDer .longLength) else .ok (n.toNat, rest)

/-- Refuse the body of an integer that is negative or has a needless zero byte. -/
def checkBody : Bytes → Except Error Unit
  | [] => .error (.malformedDer .emptyInteger)
  | top :: rest =>
    if top &&& 0x80 ≠ 0 then .error (.malformedDer .negativeInteger)
    else if top = 0 ∧ rest.head?.any (· &&& 0x80 = 0) then .error (.malformedDer .paddedInteger)
    else .ok ()

/-- A tagged integer. -/
def readInteger (b : Bytes) : Except Error (Nat × Bytes) := do
  let (tag, rest) ← readByte b
  if tag ≠ integerTag then .error (.malformedDer .integerTag)
  else
    let (length, rest) ← readLength rest
    if length = 0 then .error (.malformedDer .emptyInteger)
    else if rest.length < length then .error (.malformedDer .integerOverrun)
    else
      checkBody (rest.take length)
      .ok (Bytes.toNat (rest.take length), rest.drop length)

/-- Read a signature in distinguished encoding. -/
def ofDer (b : Bytes) : Except Error Signature := do
  let (tag, rest) ← readByte b
  if tag ≠ sequenceTag then .error (.malformedDer .sequenceTag)
  else
    let (length, rest) ← readLength rest
    if length ≠ rest.length then .error (.malformedDer .sequenceLength)
    else
      let (r, rest) ← readInteger rest
      let (s, rest) ← readInteger rest
      if rest ≠ [] then .error (.malformedDer .trailingBytes) else ofInts r s

end Secp.Signature
