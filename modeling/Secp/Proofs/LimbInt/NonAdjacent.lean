import Secp.LimbInt.Bits
import Secp.Proofs.LimbInt.Canonical
import Secp.Proofs.Number.NonAdjacent

/-!
# Non-adjacent forms taken off limbs in place

On integers of limbs a digit is read off the low limb, and is taken off the magnitude in place: a
negative digit makes the magnitude larger before it is halved. One pass leaves what remains of the
number when its digit is taken off, which is smaller, so the passes come to an end, and the digits
that they give are the non-adjacent form of the number.
-/

namespace Secp.LimbInt

open Number (windowDigit windowRest nonAdjacentForm Sparse)
open Curve.FixedBase (pieceValue pieceValue_eq_sum)

variable {a : LimbInt} {window n : Nat}

/-- The digit of an odd magnitude, read off its low limb. -/
def lowDigit (window : Nat) (a : LimbInt) : Int :=
  let t := (a.lowWord (UInt32.ofNat (2 ^ window - 1))).toNat
  if 2 ^ (window - 1) ≤ t then (t : Int) - (2 ^ window : Nat) else t

/-- Take a digit off the magnitude in place. -/
def takeOff (a : LimbInt) (digit : Int) : LimbInt :=
  if digit < 0 then a.growBy (UInt32.ofNat digit.natAbs) else a.shrinkBy (UInt32.ofNat digit.natAbs)

/-- One pass: the digit, and what remains. -/
def recodeStep (window : Nat) (a : LimbInt) : Int × LimbInt :=
  if a.isOdd then (a.lowDigit window, (a.takeOff (a.lowDigit window)).dropBits 1)
  else (0, a.dropBits 1)

/-- The passes from an integer on come to an end, with these digits. -/
inductive Recodes (window : Nat) : LimbInt → List Int → Prop
  | done {a : LimbInt} (zero : a.isZero = true) : Recodes window a []
  | pass {a : LimbInt} {digits : List Int} (nonzero : a.isZero = false)
    (rest : Recodes window (a.recodeStep window).2 digits) :
    Recodes window a ((a.recodeStep window).1 :: digits)

/-- The passes come to one end at most. -/
theorem Recodes.unique {digits digits' : List Int} (h : Recodes window a digits)
    (h' : Recodes window a digits') : digits = digits' := by
  induction h generalizing digits' with
  | done zero =>
    cases h' with
    | done => rfl
    | pass nonzero => rw [zero] at nonzero; cases nonzero
  | pass nonzero _ ih =>
    cases h' with
    | done zero => rw [zero] at nonzero; cases nonzero
    | pass _ rest => rw [ih rest]

/-- The low limb under a mask is the remainder by the power of two that the mask is below. -/
theorem Denotes.toNat_lowWord (ha : Denotes a n) (hmax : window ≤ Limbs.width) :
    (a.lowWord (UInt32.ofNat (2 ^ window - 1))).toNat = n % 2 ^ window := by
  have hmask : 2 ^ window - 1 < 2 ^ 32 := by
    have hle : 2 ^ window ≤ 2 ^ 26 := Nat.pow_le_pow_right (by decide) hmax
    omega
  have hbase : 2 ^ window ∣ Limbs.base := Nat.pow_dvd_pow 2 hmax
  have hvalue : a.limbs.toNat = n := ha.toNat_limbs
  rw [lowWord, UInt32.toNat_and, UInt32.toNat_ofNat_of_lt' hmask, Nat.and_two_pow_sub_one_eq_mod,
    ← hvalue, Limbs.toNat_headD_tail, Nat.add_mod, Nat.mod_eq_zero_of_dvd (hbase.mul_right _),
    Nat.add_zero, Nat.mod_mod]

/-- The low limb is odd where the number is. -/
theorem Denotes.isOdd_iff (ha : Denotes a n) : a.isOdd = true ↔ n % 2 = 1 := by
  have hlow := ha.toNat_lowWord (show 1 ≤ Limbs.width by decide)
  rw [isOdd, beq_iff_eq, ← UInt32.toNat_inj]
  exact Eq.congr_left hlow

/-- The digit read off the low limb is that of the number. -/
theorem Denotes.lowDigit_eq (ha : Denotes a n) (hmax : window ≤ Limbs.width) (hodd : n % 2 = 1) :
    a.lowDigit window = windowDigit window n := by
  have hne : n % 2 ≠ 0 := by omega
  rw [lowDigit, ha.toNat_lowWord hmax, windowDigit, if_neg hne]

/-- A number has no sign. -/
theorem Denotes.negative_eq_false (ha : Denotes a n) : a.negative = false := by
  rw [ha.negative_eq]
  exact decide_eq_false (Int.not_lt.mpr (Int.natCast_nonneg n))

/-- What remains above a bit of a number that is not negative is its half. -/
theorem Denotes.dropBits_one (ha : Denotes a n) : Denotes (a.dropBits 1) (n / 2 : Nat) := by
  have hvalue : a.limbs.toNat = n := ha.toNat_limbs
  refine ⟨ha.canonical.dropBits 1, ?_⟩
  rw [dropBits, ha.negative_eq_false, ite_self, toInt_mk, Limbs.toNat_shr ha.canonical.1.1, hvalue]
  rfl

/-- Taking off the digit of an odd number takes it off the number, though it may make it larger. -/
theorem Denotes.takeOff (ha : Denotes a n) (hw : 2 ≤ window) (hmax : window ≤ Limbs.width)
    (hodd : n % 2 = 1) :
    Denotes (a.takeOff (windowDigit window n)) (2 * windowRest window n : Nat) := by
  obtain ⟨-, hle, -, hlt⟩ := Number.windowDigit_of_odd hw hodd
  have hrest := Number.windowDigit_add_two_mul_rest (n := n) hw
  have hword : (windowDigit window n).natAbs < 2 ^ 32 := by
    have hpow : 2 ^ (window - 1) ≤ 2 ^ 26 :=
      Nat.pow_le_pow_right (by decide) ((Nat.sub_le _ _).trans hmax)
    omega
  have hnat := UInt32.toNat_ofNat_of_lt' hword
  unfold LimbInt.takeOff
  split
  · next hneg =>
    have hgrown := ha.growBy ha.negative_eq_false (UInt32.ofNat (windowDigit window n).natAbs)
    rwa [hnat, show (n : Int) + (windowDigit window n).natAbs = (2 * windowRest window n : Nat) by
      omega] at hgrown
  · next hpos =>
    have hfits : ((UInt32.ofNat (windowDigit window n).natAbs).toNat : Int) ≤ n := by
      rw [hnat]
      omega
    have hshrunk := ha.shrinkBy hfits
    rwa [hnat, show (n : Int) - (windowDigit window n).natAbs = (2 * windowRest window n : Nat) by
      omega] at hshrunk

/-- One pass gives the digit of the number, and leaves what remains of it. -/
theorem Denotes.recodeStep (ha : Denotes a n) (hw : 2 ≤ window) (hmax : window ≤ Limbs.width) :
    (a.recodeStep window).1 = windowDigit window n ∧
      Denotes (a.recodeStep window).2 (windowRest window n) := by
  unfold LimbInt.recodeStep
  split
  · next hodd =>
    have hodd := ha.isOdd_iff.mp hodd
    have hhalf := (ha.takeOff hw hmax hodd).dropBits_one
    rw [Nat.mul_div_cancel_left _ (by decide)] at hhalf
    rw [ha.lowDigit_eq hmax hodd]
    exact ⟨rfl, hhalf⟩
  · next hodd =>
    have heven : n % 2 = 0 := by
      have := mt ha.isOdd_iff.mpr hodd
      omega
    rw [Number.windowDigit_of_even heven, Number.windowRest_of_even heven]
    exact ⟨rfl, ha.dropBits_one⟩

/-- The passes come to an end, with the non-adjacent form of the number. -/
theorem Denotes.recodes (ha : Denotes a n) (hw : 2 ≤ window) (hmax : window ≤ Limbs.width) :
    Recodes window a (nonAdjacentForm window n) := by
  induction n using Number.windowRest_induction hw generalizing a with
  | zero =>
    rw [Number.nonAdjacentForm_zero]
    exact .done (ha.isZero_iff.mpr rfl)
  | step n hn ih =>
    obtain ⟨hdigit, hrest⟩ := ha.recodeStep hw hmax
    have hnonzero : a.isZero = false := by
      rw [← Bool.not_eq_true, ha.isZero_iff]
      exact Int.natCast_ne_zero.mpr hn
    rw [Number.nonAdjacentForm_of_ne_zero hw hn, ← hdigit]
    exact .pass hnonzero (ih hrest)

/-- For a window that a limb holds, the passes over a number that is not negative come to an end,
with its non-adjacent form. The digits sum up to the number, each weighted by the power of two of
its place; those other than zero are odd, smaller than half the window, and stand a window apart.
There is at most one more of them than the number has bits, the last is not zero, and there are none
for zero alone. -/
theorem recoding_exact {window : Nat} (hw : 2 ≤ window) (hmax : window ≤ Limbs.width) (n : Nat) :
    (∀ digits, Recodes window (.ofInt n) digits ↔ digits = nonAdjacentForm window n) ∧
      ∑ i ∈ Finset.range (nonAdjacentForm window n).length,
        (nonAdjacentForm window n).getD i 0 * 2 ^ i = n ∧
      (∀ d ∈ nonAdjacentForm window n, d ≠ 0 → d % 2 = 1 ∧ d.natAbs < 2 ^ (window - 1)) ∧
      Sparse window (nonAdjacentForm window n) ∧
      (nonAdjacentForm window n).length ≤ Number.bitLength n + 1 ∧
      (nonAdjacentForm window n).getLast? ≠ some 0 ∧
      (nonAdjacentForm window n = [] ↔ n = 0) := by
  have hrun : Recodes window (.ofInt n) (nonAdjacentForm window n) :=
    (denotes_ofInt n).recodes hw hmax
  refine ⟨?_, ?_, Number.odd_and_lt_of_mem_nonAdjacentForm hw n, Number.sparse_nonAdjacentForm hw n,
    Number.length_nonAdjacentForm_le_bitLength hw n, Number.getLast?_nonAdjacentForm_ne_zero hw n,
    Number.nonAdjacentForm_eq_nil_iff hw⟩
  · intro digits
    constructor
    · exact fun h ↦ h.unique hrun
    · rintro rfl
      exact hrun
  · rw [← pieceValue_eq_sum, Number.pieceValue_nonAdjacentForm hw]

/-- The passes over 15 with a window of four bits end with digits for 16 less one. -/
theorem recoding_exact_fifteen :
    2 ≤ 4 ∧ 4 ≤ Limbs.width ∧ Recodes 4 (.ofInt 15) [-1, 0, 0, 0, 1] := by
  have hw : 2 ≤ 4 := by decide
  have hmax : 4 ≤ Limbs.width := by decide
  have hform : nonAdjacentForm 4 15 = [-1, 0, 0, 0, 1] := by decide +kernel
  exact ⟨hw, hmax, ((recoding_exact hw hmax 15).1 _).mpr hform.symm⟩

end Secp.LimbInt
