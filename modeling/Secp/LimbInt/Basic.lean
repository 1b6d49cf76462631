import Secp.Error
import Secp.Limbs.Quotient

/-!
# Integers as a sign and limbs

An integer is a sign and a magnitude in base `2 ^ 26`. In canonical form the magnitude is
canonical and zero is not negative, so every integer has one form and equality of forms is
equality of integers. `toInt` is the integer denoted.
-/

namespace Secp

-- Powers of numbers are core's, whichever others are in scope.
attribute [local instance(2000)] instPowNat

/-- A sign and a magnitude. -/
structure LimbInt where
  negative : Bool
  limbs : Limbs
  deriving DecidableEq, Repr

namespace LimbInt

/-- The integer denoted. -/
def toInt (a : LimbInt) : Int :=
  if a.negative then -(a.limbs.toNat : Int) else a.limbs.toNat

/-- The unique form of an integer: a canonical magnitude, and no negative zero. -/
def Canonical (a : LimbInt) : Prop :=
  a.limbs.Canonical ∧ (a.limbs = [] → a.negative = false)

/-- A sign and limbs, without leading zero limbs and without a negative zero. -/
def ofParts (negative : Bool) (limbs : Limbs) : LimbInt :=
  let limbs := limbs.trim
  ⟨negative && !limbs.isEmpty, limbs⟩

/-- The form of an integer. -/
def ofInt (n : Int) : LimbInt := ofParts (decide (n < 0)) (Limbs.ofNat n.natAbs)

/-- A 64-bit word. -/
def ofWord (t : UInt64) : LimbInt := ⟨false, Limbs.ofWord t⟩

/-- A signed 32-bit word: the sign is set once the limbs of the magnitude are made. -/
def ofInt32 (n : Int32) : LimbInt :=
  { ofWord (UInt32.ofNat n.toInt.natAbs).toUInt64 with negative := decide (n < 0) }

/-- Zero. -/
def zero : LimbInt := ⟨false, []⟩

/-- One. -/
def one : LimbInt := ofWord 1

/-- The largest integer below which a 53-bit significand holds all. -/
def maxSafe : Nat := 2 ^ (53 : Nat) - 1

/-- An integer of at most 53 bits; a wider one is refused. The sign is set once the limbs of the
magnitude are made. -/
def ofSafe (n : Int) : Except Error LimbInt :=
  if maxSafe < n.natAbs then .error (.unsafeInteger n)
  else .ok { ofWord (UInt64.ofNat n.natAbs) with negative := decide (n < 0) }

/-- Whether the integer is zero. -/
def isZero (a : LimbInt) : Bool := a.limbs.isEmpty

/-- Whether the magnitude is odd. -/
def isOdd (a : LimbInt) : Bool := a.limbs.headD 0 &&& 1 == 1

/-- Significant bits of the magnitude. -/
def bitLength (a : LimbInt) : Nat := a.limbs.bitLength

/-- Bytes that hold the magnitude. -/
def byteLength (a : LimbInt) : Nat := a.limbs.byteLength

/-- Trailing zero bits of the magnitude, and zero for zero. -/
def trailingZeros (a : LimbInt) : Nat := a.limbs.trailingZeros

/-- The integer as a number of at most 53 bits. -/
def toSafe (a : LimbInt) : Except Error Int :=
  if 53 < a.bitLength then .error .precisionLoss else .ok a.toInt

/-- Compare magnitudes. -/
def compareMagnitude (a b : LimbInt) : Ordering := a.limbs.compare b.limbs

/-- Compare integers. -/
def compare (a b : LimbInt) : Ordering :=
  match a.negative, b.negative with
  | false, true => .gt
  | true, false => .lt
  | false, false => a.compareMagnitude b
  | true, true => b.compareMagnitude a

/-- A list of integers in ascending order. -/
def sort (as : List LimbInt) : List LimbInt := as.mergeSort fun a b ↦ a.compare b != .gt

/-- The magnitude as an integer. -/
def abs (a : LimbInt) : LimbInt := ⟨false, a.limbs⟩

/-- The opposite integer. -/
def neg (a : LimbInt) : LimbInt := ofParts (!a.negative) a.limbs

/-- The sum: magnitudes add under one sign, and under two signs the larger one prevails. -/
def add (a b : LimbInt) : LimbInt :=
  if a.negative = b.negative then ofParts a.negative (a.limbs.add b.limbs)
  else
    match a.compareMagnitude b with
    | .eq => zero
    | .gt => ofParts a.negative (a.limbs.sub b.limbs)
    | .lt => ofParts b.negative (b.limbs.sub a.limbs)

/-- The difference. -/
def sub (a b : LimbInt) : LimbInt := a.add b.neg

/-- The product. -/
def mul (a b : LimbInt) : LimbInt := ofParts (a.negative != b.negative) (a.limbs.mul b.limbs)

/-- The square. -/
def sqr (a : LimbInt) : LimbInt := ofParts false a.limbs.sqr

/-- The sum with a word. -/
def addWord (a : LimbInt) (n : UInt32) : LimbInt := a.add (ofWord n.toUInt64)

/-- The difference with a word. -/
def subWord (a : LimbInt) (n : UInt32) : LimbInt := a.sub (ofWord n.toUInt64)

/-- The product with a word. -/
def mulWord (a : LimbInt) (n : UInt32) : LimbInt := ofParts a.negative (a.limbs.mulWord n)

/-- Add a word to the magnitude alone, for an integer that is not negative. -/
def growBy (a : LimbInt) (n : UInt32) : LimbInt := { a with limbs := a.limbs.addWord n }

/-- Subtract a word from the magnitude alone, for an integer that is no smaller. -/
def shrinkBy (a : LimbInt) (n : UInt32) : LimbInt := { a with limbs := a.limbs.subWord n }

/-- Square and multiply over the bits of the exponent, least significant first. -/
def powFrom (result base : LimbInt) (exponent : Nat) : LimbInt :=
  if _h : exponent = 0 then result
  else
    let result := if exponent % 2 = 1 then result.mul base else result
    powFrom result (if exponent / 2 = 0 then base else base.sqr) (exponent / 2)
termination_by exponent
decreasing_by exact Nat.div_lt_self (by omega) (by decide)

/-- A power. -/
def pow (a : LimbInt) (exponent : Nat) : LimbInt := powFrom one a exponent

instance : Neg LimbInt where neg := neg
instance : Add LimbInt where add := add
instance : Sub LimbInt where sub := sub
instance : Mul LimbInt where mul := mul
instance : Ord LimbInt where compare := compare

end LimbInt

end Secp
