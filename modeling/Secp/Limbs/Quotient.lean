import Secp.Limbs.Product
import Secp.Limbs.Shift

/-!
# Quotients and remainders of magnitudes

Division by one word runs down the limbs with the remainder so far. Long division first shifts
both operands until the top bit of the divisor's top limb is set. Then each quotient limb is
estimated from the leading limbs, corrected down at most twice, multiplied back and subtracted;
an estimate that is still one too large shows as a borrow, and the divisor is added back.
-/

namespace Secp.Limbs

/-- Quotient limbs and remainder of a division by a word, most significant limb first done. -/
def divWordWith (d : UInt64) : Limbs → Limbs × UInt64
  | [] => ([], 0)
  | w :: ws =>
    let (q, r) := divWordWith d ws
    let t := (r <<< 26) ||| w.toUInt64
    ((t / d).toUInt32 :: q, t % d)

/-- Quotient and remainder of a division by a word. -/
def divWord (a : Limbs) (d : UInt32) : Limbs × UInt32 :=
  let (q, r) := divWordWith d.toUInt64 a
  (trim q, r.toUInt32)

/-- Correct an estimated quotient limb and its remainder by the next limb of each operand: `v₁`
and `v₂` lead the divisor and `u₂` is the third limb of the window. The count bounds the
corrections; two are enough, since each adds `v₁` to the remainder. -/
def correct (v₁ v₂ u₂ : UInt64) : Nat → UInt64 → UInt64 → UInt64
  | 0, q, _ => q
  | count + 1, q, r =>
    if mask.toUInt64 < q ∨ (r <<< 26 ||| u₂) < q * v₂ then
      if mask.toUInt64 < r + v₁ then q - 1 else correct v₁ v₂ u₂ count (q - 1) (r + v₁)
    else q

/-- Estimate of one quotient limb from the leading limbs of the divisor and of the window. -/
def estimate (v u : Limbs) : UInt64 :=
  match v.reverse, u.reverse with
  | v₁ :: v₂ :: _, u₀ :: u₁ :: u₂ :: _ =>
    let t := (u₀.toUInt64 <<< 26) ||| u₁.toUInt64
    correct v₁.toUInt64 v₂.toUInt64 u₂.toUInt64 2 (t / v₁.toUInt64) (t % v₁.toUInt64)
  | _, _ => 0

/-- Subtract `q` times a magnitude from a window, modulo the window's size. The two words are the
carry of the product and the borrow of the difference; the flag says whether a borrow is left. -/
def subScaled (q : UInt64) : Limbs → Limbs → UInt64 → UInt64 → Limbs × Bool
  | [], _, _, b => ([], b != 0)
  | u :: us, vs, c, b =>
    let p := q * (vs.headD 0).toUInt64 + c
    let t := u.toUInt64 + baseWord.toUInt64 - b - (low p).toUInt64
    let (rest, borrowed) := subScaled q us vs.tail (high p) (1 - high t)
    (low t :: rest, borrowed)

/-- Add a magnitude and a carry into a window, modulo the window's size. -/
def addInto : Limbs → Limbs → UInt32 → Limbs
  | [], _, _ => []
  | u :: us, vs, c =>
    let s := u + vs.headD 0 + c
    (s &&& mask) :: addInto us vs.tail (s >>> 26)

/-- One quotient limb of a window by a divisor one limb shorter, and the remainder. -/
def divStep (v u : Limbs) : UInt32 × Limbs :=
  let q := estimate v u
  let (rest, borrowed) := subScaled q u v 0 0
  if borrowed then ((q - 1).toUInt32, (addInto rest v 0).take v.length)
  else (q.toUInt32, rest.take v.length)

/-- Quotient limbs and remainder when the limbs of the list are brought down, most significant
first, behind a remainder of the divisor's length. -/
def longDivide (v r : Limbs) : Limbs → Limbs × Limbs
  | [] => ([], r)
  | u :: us =>
    let (q, rest) := longDivide v r us
    let (d, rest) := divStep v (u :: rest)
    (d :: q, rest)

/-- Quotient and remainder of two magnitudes; both are empty for an empty divisor. -/
def divRem (a b : Limbs) : Limbs × Limbs :=
  match b.getLast? with
  | none => ([], [])
  | some top =>
    if compare a b = .lt then ([], a)
    else if b.length = 1 then
      let (q, r) := divWord a top
      (q, trim [r])
    else
      let s := width - Number.bitLength top.toNat
      let v := shl b s
      let u := shl a s
      let u := u ++ List.replicate (a.length + 1 - u.length) 0
      let m := u.length - v.length
      let (q, r) := longDivide v (u.drop m) (u.take m)
      (trim q, shr (trim r) s)

end Secp.Limbs
