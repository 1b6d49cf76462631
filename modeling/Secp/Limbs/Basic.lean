import Secp.Number.Bits

/-!
# Magnitudes in base `2 ^ 26`

A magnitude is a list of 26-bit limbs held in 32-bit words, least significant first. Sums and
products of limbs are formed in 64-bit words, where `low` cuts off one limb and `high` keeps the
carry. `toNat` is the number denoted; `Canonical` says that every word is a limb and that the
most significant one is not zero, which makes the list of a number unique.
-/

namespace Secp

-- Powers of numbers are core's, whichever others are in scope.
attribute [local instance(2000)] instPowNat

/-- Limbs in base `2 ^ 26`, least significant first. -/
abbrev Limbs := List UInt32

namespace Limbs

/-- Bits in one limb. -/
def width : Nat := 26

/-- The base of the positional system. -/
def base : Nat := 2 ^ (26 : Nat)

/-- The word `2 ^ 26`. -/
def baseWord : UInt32 := 0x4000000

/-- The word whose low 26 bits are set. -/
def mask : UInt32 := 0x3ffffff

/-- The low limb of a wide word. -/
def low (t : UInt64) : UInt32 := t.toUInt32 &&& mask

/-- What remains of a wide word above its low limb. -/
def high (t : UInt64) : UInt64 := t >>> 26

/-- The number denoted. -/
def toNat : Limbs → Nat
  | [] => 0
  | w :: ws => w.toNat + base * toNat ws

/-- Every word is a limb. -/
def Bounded (ws : Limbs) : Prop := ∀ w ∈ ws, w.toNat < base

/-- No most significant zero limb. -/
def Trimmed (ws : Limbs) : Prop := ws.getLast? ≠ some 0

/-- The unique form of a number: words that are limbs, none of them a leading zero. -/
def Canonical (ws : Limbs) : Prop := Bounded ws ∧ Trimmed ws

/-- Drop most significant zero limbs. -/
def trim : Limbs → Limbs
  | [] => []
  | w :: ws =>
    match trim ws with
    | [] => if w = 0 then [] else [w]
    | v :: vs => w :: v :: vs

/-- The limbs of a number. -/
def ofNat (n : Nat) : Limbs :=
  if _h : n = 0 then [] else UInt32.ofNat (n % base) :: ofNat (n / base)
termination_by n
decreasing_by exact Nat.div_lt_self (by omega) (by decide)

/-- The limbs of a 64-bit word: low limbs are pushed until nothing is left above them. -/
def ofWord (t : UInt64) : Limbs :=
  if _h : t = 0 then [] else low t :: ofWord (high t)
termination_by t.toNat
decreasing_by
  have hne : t.toNat ≠ 0 := fun hzero ↦ _h (UInt64.toNat_inj.mp hzero)
  rw [high, UInt64.toNat_shiftRight, Nat.shiftRight_eq_div_pow]
  exact Nat.div_lt_self (Nat.pos_of_ne_zero hne) (by decide)

/-- Compare from the most significant limb down; of two lengths the longer is the larger. -/
def compare : Limbs → Limbs → Ordering
  | [], [] => .eq
  | [], _ :: _ => .lt
  | _ :: _, [] => .gt
  | x :: xs, y :: ys =>
    match compare xs ys with
    | .eq => Ord.compare x.toNat y.toNat
    | o => o

/-- Significant bits: whole limbs below the top one, and the bits of the top one. -/
def bitLength : Limbs → Nat
  | [] => 0
  | [w] => Number.bitLength w.toNat
  | _ :: w :: ws => width + bitLength (w :: ws)

/-- Whole bytes that hold the significant bits. -/
def byteLength (ws : Limbs) : Nat := (bitLength ws + 7) / 8

/-- Zero bits below the lowest set bit, and zero for zero. -/
def trailingZeros : Limbs → Nat
  | [] => 0
  | w :: ws => if w = 0 then width + trailingZeros ws else Number.trailingZeros w.toNat

end Limbs

end Secp
