import Secp.LimbInt.Basic

/-!
# Shifts, bits and two's complement

Single bits and masks act on the magnitude and keep the sign. A right shift rounds toward
negative infinity. The bitwise operations read a negative integer as its two's complement with
the sign extended without end: both operands are written in one bit more than the longer of
them, combined, and read back.
-/

namespace Secp.LimbInt

/-- Multiply by a power of two. -/
def shl (a : LimbInt) (bits : Nat) : LimbInt := ofParts a.negative (a.limbs.shl bits)

/-- Divide by a power of two, rounding toward negative infinity. -/
def shr (a : LimbInt) (bits : Nat) : LimbInt :=
  if a.negative then ofParts true (((a.limbs.subWord 1).shr bits).addWord 1)
  else ofParts false (a.limbs.shr bits)

/-- Multiply the magnitude by a power of two. -/
def ushl (a : LimbInt) (bits : Nat) : LimbInt := ofParts false (a.limbs.shl bits)

/-- Divide the magnitude by a power of two. -/
def ushr (a : LimbInt) (bits : Nat) : LimbInt := ofParts false (a.limbs.shr bits)

/-- Drop the low bits of the magnitude and keep the sign, unless nothing is left. -/
def dropBits (a : LimbInt) (bits : Nat) : LimbInt :=
  let limbs := a.limbs.shr bits
  ⟨if limbs.isEmpty then false else a.negative, limbs⟩

/-- Whether a bit of the magnitude is set. -/
def testBit (a : LimbInt) (bit : Nat) : Bool := a.limbs.testBit bit

/-- Set or clear a bit of the magnitude. -/
def setBit (a : LimbInt) (bit : Nat) (value : Bool) : LimbInt :=
  ofParts a.negative (if value then a.limbs.setBit bit else a.limbs.clearBit bit)

/-- A power of two. -/
def twoPow (bit : Nat) : LimbInt := ofParts false (Limbs.twoPow bit)

/-- Add a power of two. -/
def addTwoPow (a : LimbInt) (bit : Nat) : LimbInt := a.add (twoPow bit)

/-- Keep the low bits of the magnitude, with the sign. -/
def lowBits (a : LimbInt) (bits : Nat) : LimbInt := ofParts a.negative (a.limbs.lowBits bits)

/-- Flip the low bits of the magnitude and drop the others. -/
def complement (a : LimbInt) (bits : Nat) : LimbInt :=
  ofParts false
    (Limbs.bitwise (· ^^^ ·) (a.limbs.lowBits bits) ((Limbs.twoPow bits).subWord 1))

/-- The low limb of the magnitude under a mask. -/
def lowWord (a : LimbInt) (mask : UInt32) : UInt32 := a.limbs.headD 0 &&& mask

/-- Two's complement in a width: a negative integer counts down from `2 ^ bits`. -/
def toTwos (a : LimbInt) (bits : Nat) : LimbInt :=
  if a.negative then (twoPow bits).sub a.abs else a

/-- Read a two's complement of a width: its top bit marks a negative integer. -/
def ofTwos (a : LimbInt) (bits : Nat) : LimbInt :=
  if 0 < bits ∧ a.testBit (bits - 1) then (a.lowBits bits).sub (twoPow bits) else a

/-- Combine two integers bit by bit in two's complement. -/
def bitwise (op : UInt32 → UInt32 → UInt32) (a b : LimbInt) : LimbInt :=
  if !a.negative && !b.negative then ofParts false (Limbs.bitwise op a.limbs b.limbs)
  else
    let bits := max a.bitLength b.bitLength + 1
    let joined := Limbs.bitwise op (a.toTwos bits).limbs (b.toTwos bits).limbs
    ((ofParts false joined).lowBits bits).ofTwos bits

/-- Bitwise conjunction. -/
def and (a b : LimbInt) : LimbInt := bitwise (· &&& ·) a b

/-- Bitwise disjunction. -/
def or (a b : LimbInt) : LimbInt := bitwise (· ||| ·) a b

/-- Bitwise exclusive disjunction. -/
def xor (a b : LimbInt) : LimbInt := bitwise (· ^^^ ·) a b

end Secp.LimbInt
