import Secp.Bytes
import Secp.LimbInt.Basic

/-!
# Integers as byte strings

Bytes are packed into limbs and unpacked from them through a 64-bit word that holds the bits not
yet delivered. The minimal form of a magnitude has no leading zero byte, except that zero is one
zero byte. Signs are lost.
-/

namespace Secp.LimbInt

/-- Pack bytes, least significant first, behind `bits` bits that wait in `held`. -/
def pack : Bytes → UInt64 → Nat → Limbs
  | [], held, bits => if 0 < bits then [held.toUInt32] else []
  | b :: bs, held, bits =>
    let held := held ||| (b.toUInt64 <<< UInt64.ofNat bits)
    let bits := bits + 8
    if Limbs.width ≤ bits then Limbs.low held :: pack bs (Limbs.high held) (bits - Limbs.width)
    else pack bs held bits

/-- The magnitude of bytes, least significant first. -/
def ofBytesLE (b : Bytes) : LimbInt := ofParts false (pack b 0 0)

/-- The magnitude of bytes, most significant first. -/
def ofBytesBE (b : Bytes) : LimbInt := ofParts false (pack b.reverse 0 0)

/-- The magnitude of 64-bit words, least significant first. -/
def ofWords (ts : List UInt64) : LimbInt :=
  ofBytesLE (ts.flatMap fun t ↦ Bytes.littleEndian 8 t.toNat)

/-- The low bytes of a word. -/
def lowBytes : Nat → UInt64 → Bytes
  | 0, _ => []
  | count + 1, t => t.toUInt8 :: lowBytes count (t >>> 8)

/-- Unpack limbs behind `bits` bits that wait in `held`; the last byte may be partial. -/
def unpack : Limbs → UInt64 → Nat → Bytes
  | [], held, bits => if 0 < bits then [held.toUInt8] else []
  | w :: ws, held, bits =>
    let held := held ||| (w.toUInt64 <<< UInt64.ofNat bits)
    let bits := bits + Limbs.width
    lowBytes (bits / 8) held ++ unpack ws (held >>> UInt64.ofNat (8 * (bits / 8))) (bits % 8)

/-- The minimal form, least significant byte first. -/
def toBytesLE (a : LimbInt) : Bytes :=
  let length := max a.byteLength 1
  let bytes := unpack a.limbs 0 0
  bytes.take length ++ List.replicate (length - bytes.length) 0

/-- The minimal form, most significant byte first. -/
def toBytesBE (a : LimbInt) : Bytes := a.toBytesLE.reverse

/-- The magnitude in an exact number of bytes, most significant first. -/
def toBytesPadded (a : LimbInt) (length : Nat) : Except Error Bytes :=
  if length < a.byteLength then .error (.outOfRange (.width a.byteLength length))
  else
    let bytes := a.toBytesBE
    let bytes := bytes.drop (bytes.length - length)
    .ok (List.replicate (length - bytes.length) 0 ++ bytes)

end Secp.LimbInt
