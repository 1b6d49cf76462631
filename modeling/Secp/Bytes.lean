import Secp.Text.Digits

/-!
# Byte strings and the numbers they denote

A byte string is a list of bytes. Read as a number it is big-endian: the first byte weighs
most. `bigEndian` writes a number in a fixed width and drops what does not fit, and `minimal`
writes it without leading zero bytes.
-/

namespace Secp

/-- A byte string. -/
abbrev Bytes := List UInt8

namespace Bytes

/-- The number that the bytes denote, first byte most significant. -/
def toNat (b : Bytes) : Nat := b.foldl (fun n byte ↦ 256 * n + byte.toNat) 0

/-- The low `width` bytes of a number, least significant first. -/
def littleEndian : Nat → Nat → Bytes
  | 0, _ => []
  | width + 1, n => UInt8.ofNat n :: littleEndian width (n / 256)

/-- The low `width` bytes of a number, most significant first. -/
def bigEndian (width n : Nat) : Bytes := (littleEndian width n).reverse

/-- Lowercase hexadecimal, two digits a byte. -/
def hex (b : Bytes) : String := String.join (b.map Text.hexByte)

/-- A fixed-width number has exactly that many bytes. -/
@[simp] theorem length_littleEndian (width n : Nat) : (littleEndian width n).length = width := by
  induction width generalizing n with
  | zero => rfl
  | succ width ih => simp [littleEndian, ih]

/-- A fixed-width number has exactly that many bytes. -/
@[simp] theorem length_bigEndian (width n : Nat) : (bigEndian width n).length = width := by
  simp [bigEndian]

end Bytes

end Secp
