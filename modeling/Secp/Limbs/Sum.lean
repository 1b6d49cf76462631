import Secp.Limbs.Basic

/-!
# Sums and differences of magnitudes

Limb by limb from the least significant end, with a carry or a borrow. A difference is formed
only of a magnitude and a smaller one; what a larger subtrahend would borrow is lost.
-/

namespace Secp.Limbs

/-- Add a carry into a magnitude. -/
def addCarry : Limbs → UInt32 → Limbs
  | [], c => if c = 0 then [] else [c]
  | w :: ws, c =>
    let s := w + c
    (s &&& mask) :: addCarry ws (s >>> 26)

/-- Add two magnitudes and a carry. -/
def addWith : Limbs → Limbs → UInt32 → Limbs
  | [], ys, c => addCarry ys c
  | x :: xs, ys, c =>
    let s := x + ys.headD 0 + c
    (s &&& mask) :: addWith xs ys.tail (s >>> 26)

/-- The sum of two magnitudes. -/
def add (a b : Limbs) : Limbs := addWith a b 0

/-- Subtract a magnitude and a borrow from one at least as large. -/
def subWith : Limbs → Limbs → UInt32 → Limbs
  | [], _, _ => []
  | x :: xs, ys, b =>
    let t := x + baseWord - ys.headD 0 - b
    (t &&& mask) :: subWith xs ys.tail ((1 : UInt32) - (t >>> 26))

/-- The difference of a magnitude and one no larger. -/
def sub (a b : Limbs) : Limbs := trim (subWith a b 0)

/-- Add a 64-bit word, stopping where the carry ends. What is carried beyond the last limb is
pushed limb by limb. -/
def addWide : Limbs → UInt64 → Limbs
  | [], c => ofWord c
  | w :: ws, c =>
    if c = 0 then w :: ws
    else
      let t := w.toUInt64 + c
      low t :: addWide ws (high t)

/-- The sum of a magnitude and a word. -/
def addWord (a : Limbs) (s : UInt32) : Limbs := addWide a s.toUInt64

/-- Subtract a word that may exceed several limbs, stopping where the borrow ends. -/
def subWide : Limbs → UInt64 → Limbs
  | [], _ => []
  | w :: ws, b =>
    if b ≤ w.toUInt64 then (w.toUInt64 - b).toUInt32 :: ws
    else
      let need := b - w.toUInt64
      let lent := high (need + mask.toUInt64)
      ((lent <<< 26) - need).toUInt32 :: subWide ws lent

/-- The difference of a magnitude and a word no larger. -/
def subWord (a : Limbs) (s : UInt32) : Limbs := trim (subWide a s.toUInt64)

end Secp.Limbs
