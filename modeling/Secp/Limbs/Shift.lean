import Secp.Limbs.Sum

/-!
# Shifts, bits and bitwise words of magnitudes

A count of bits splits into whole limbs and an offset within a limb. Bits are numbered from the
least significant one.
-/

namespace Secp.Limbs

/-- Move every limb up by an offset below one limb, with the bits carried in. -/
def shlWith (r : UInt64) : Limbs → UInt64 → Limbs
  | [], c => if c = 0 then [] else [c.toUInt32]
  | w :: ws, c =>
    let t := (w.toUInt64 <<< r) ||| c
    low t :: shlWith r ws (high t)

/-- Multiply by a power of two. -/
def shl (a : Limbs) (bits : Nat) : Limbs :=
  if a = [] then []
  else
    List.replicate (bits / width) 0 ++
      (if bits % width = 0 then a else shlWith (UInt64.ofNat (bits % width)) a 0)

/-- Move every limb down by an offset within one limb, taking in the low bits of the next. -/
def shrWith (r : UInt64) : Limbs → Limbs
  | [] => []
  | w :: ws =>
    low ((w.toUInt64 >>> r) ||| ((ws.headD 0).toUInt64 <<< (26 - r))) :: shrWith r ws

/-- Divide by a power of two and drop the remainder. -/
def shr (a : Limbs) (bits : Nat) : Limbs :=
  let kept := a.drop (bits / width)
  if bits % width = 0 then kept else trim (shrWith (UInt64.ofNat (bits % width)) kept)

/-- The word with the one bit that a bit count names within its limb. -/
def bitWord (bit : Nat) : UInt32 := 1 <<< UInt32.ofNat (bit % width)

/-- A power of two. -/
def twoPow (bit : Nat) : Limbs := List.replicate (bit / width) 0 ++ [bitWord bit]

/-- Whether a bit is set. -/
def testBit (a : Limbs) (bit : Nat) : Bool :=
  ((a.getD (bit / width) 0) >>> UInt32.ofNat (bit % width)) &&& 1 == 1

/-- Set a bit, extending the magnitude with zero limbs up to it. -/
def setBit (a : Limbs) (bit : Nat) : Limbs :=
  let index := bit / width
  let room := a ++ List.replicate (index + 1 - a.length) 0
  room.modify index (· ||| bitWord bit)

/-- Clear a bit. -/
def clearBit (a : Limbs) (bit : Nat) : Limbs :=
  trim (a.modify (bit / width) (· &&& ~~~(bitWord bit)))

/-- The low `bits` bits. -/
def lowBits (a : Limbs) (bits : Nat) : Limbs :=
  let rest := bits % width
  let part := (a.drop (bits / width)).take (if rest = 0 then 0 else 1)
  trim (a.take (bits / width) ++ part.map (· &&& (mask >>> UInt32.ofNat (width - rest))))

/-- Combine limbs at equal positions; the shorter magnitude is extended with zero limbs. -/
def bitwise (op : UInt32 → UInt32 → UInt32) : Limbs → Limbs → Limbs
  | [], [] => []
  | x :: xs, [] => op x 0 :: bitwise op xs []
  | [], y :: ys => op 0 y :: bitwise op [] ys
  | x :: xs, y :: ys => op x y :: bitwise op xs ys

end Secp.Limbs
