import Secp.Proofs.LimbInt.Logic
import Secp.Proofs.LimbInt.Quotient
import Secp.Proofs.Limbs.Bits

/-!
# Shifts and bits of integers

Shifts of magnitudes multiply and divide by powers of two, and the shift of a negative integer to
the right rounds down, since what it shifts is one less than the magnitude. Masks and complements
are remainders by powers of two. A bit that is set or cleared changes this bit of the magnitude
alone, and the sign is kept unless nothing is left. Lengths and trailing zeros are those of the
number.
-/

namespace Secp.LimbInt

variable {a : LimbInt} {x : Int}

/-- The right shift rounds toward negative infinity. -/
theorem Denotes.shr (ha : Denotes a x) (bits : Nat) : Denotes (a.shr bits) (x / 2 ^ bits) := by
  refine ⟨ha.canonical.shr bits, ?_⟩
  have hpow : ((2 ^ bits : Nat) : Int) = 2 ^ bits := Nat.cast_pow 2 bits
  have hbounded := ha.canonical.1.1
  rw [LimbInt.shr, ha.negative_eq, ← hpow]
  simp only [decide_eq_true_eq]
  split
  · next hneg =>
    obtain ⟨n, rfl⟩ := Int.eq_negSucc_of_lt_zero hneg
    have hlimbs : a.limbs.toNat = n + 1 := ha.toNat_limbs
    have hlower : (a.limbs.subWord 1).toNat = n := by
      rw [Limbs.toNat_subWord hbounded (by rw [hlimbs]; exact Nat.le_add_left 1 n), hlimbs]
      rfl
    have hcanonical := Limbs.canonical_subWord hbounded 1
    rw [toInt_ofParts, Limbs.toNat_addWord (Limbs.canonical_shr hcanonical bits).1,
      Limbs.toNat_shr hcanonical.1, hlower, Int.negSucc_ediv n (by positivity)]
    rfl
  · next hnonneg =>
    rw [toInt_ofParts, Limbs.toNat_shr hbounded, ha.toNat_limbs, if_neg (by decide),
      Int.natCast_ediv, Int.natAbs_of_nonneg (by omega)]

/-- The left shift of the magnitude multiplies the absolute value. -/
theorem Denotes.ushl (ha : Denotes a x) (bits : Nat) : Denotes (a.ushl bits) (|x| * 2 ^ bits) :=
  ha.abs.shl bits

/-- The right shift of the magnitude divides the absolute value. -/
theorem Denotes.ushr (ha : Denotes a x) (bits : Nat) : Denotes (a.ushr bits) (|x| / 2 ^ bits) :=
  ha.abs.shr bits

/-- The truncated remainder is that of the absolute value under the sign. -/
theorem tmod_eq_sign_mul (x m : Int) : x.tmod m = x.sign * (|x| % m) := by
  rcases lt_trichotomy x 0 with hneg | rfl | hpos
  · have habs : |x| = -x := abs_of_neg hneg
    rw [Int.sign_eq_neg_one_of_neg hneg, habs, ← Int.tmod_eq_emod_of_nonneg (by omega),
      Int.neg_tmod]
    omega
  · simp
  · rw [Int.sign_eq_one_of_pos hpos, abs_of_pos hpos, Int.one_mul,
      Int.tmod_eq_emod_of_nonneg hpos.le]

/-- The complement of the low bits is what they lack to the greatest number of so many bits. -/
theorem Denotes.complement (ha : Denotes a x) (bits : Nat) :
    Denotes (a.complement bits) (2 ^ bits - 1 - |x| % 2 ^ bits) := by
  refine ⟨ha.canonical.complement bits, ?_⟩
  have hpow : ((2 ^ bits : Nat) : Int) = 2 ^ bits := Nat.cast_pow 2 bits
  have hlt : x.natAbs % 2 ^ bits < 2 ^ bits := Nat.mod_lt _ (Nat.two_pow_pos bits)
  rw [LimbInt.complement, toInt_ofParts, Limbs.toNat_flipped ha.canonical.1.1, ha.toNat_limbs,
    if_neg (by decide), Int.abs_eq_natAbs, ← hpow, ← Int.natCast_emod]
  omega

/-- Adding a power of two adds it. -/
theorem Denotes.addTwoPow (ha : Denotes a x) (bit : Nat) :
    Denotes (a.addTwoPow bit) (x + 2 ^ bit) :=
  ha.add (denotes_twoPow bit)

/-- The magnitude with one bit set or cleared has the other bits as they were. -/
theorem Denotes.testBit_setBit (ha : Denotes a x) (place : Nat) (value : Bool) (bit : Nat) :
    (a.setBit place value).testBit bit = if bit = place then value else a.testBit bit := by
  have hbounded := ha.canonical.1.1
  rw [(ha.canonical.setBit place value).denotes.testBit_eq, natAbs_toInt, ha.testBit_eq,
    ← ha.toNat_limbs, LimbInt.setBit, ofParts, Limbs.toNat_trim]
  cases value with
  | true =>
    rw [if_pos rfl, Limbs.testBit_setBit hbounded]
    split <;> simp [*]
  | false =>
    rw [if_neg (by decide), Limbs.testBit_clearBit hbounded]
    split <;> simp [*]

/-- With one bit set or cleared an integer keeps its sign, unless it becomes zero. -/
theorem Denotes.negative_setBit (ha : Denotes a x) (place : Nat) (value : Bool) :
    (a.setBit place value).toInt < 0 ↔ x < 0 ∧ (a.setBit place value).toInt ≠ 0 := by
  rw [LimbInt.setBit, toInt_ofParts, ha.negative_eq]
  simp only [decide_eq_true_eq]
  split <;> omega

/-- The length in bits is that of the absolute value. -/
theorem Denotes.bitLength_eq (ha : Denotes a x) : a.bitLength = Number.bitLength x.natAbs := by
  rw [bitLength, ha.canonical.1.bitLength_eq, ha.toNat_limbs]

/-- An integer that is not zero reaches the power of two below its length in bits, and is below
that of its length. -/
theorem Denotes.bitLength_bounds (ha : Denotes a x) (hx : x ≠ 0) :
    2 ^ (a.bitLength - 1) ≤ x.natAbs ∧ x.natAbs < 2 ^ a.bitLength := by
  rw [ha.bitLength_eq]
  refine ⟨?_, Number.lt_two_pow_bitLength _⟩
  have hpos : 0 < Number.bitLength x.natAbs :=
    (Number.lt_bitLength_iff _ 0).mpr (Int.natAbs_pos.mpr hx)
  exact (Number.lt_bitLength_iff _ _).mp (Nat.sub_lt hpos Nat.one_pos)

/-- The trailing zeros count the twos in an integer that is not zero. -/
theorem Denotes.two_pow_trailingZeros_dvd (ha : Denotes a x) (hx : x ≠ 0) :
    2 ^ a.trailingZeros ∣ x.natAbs ∧ ¬ 2 ^ (a.trailingZeros + 1) ∣ x.natAbs := by
  rw [← ha.toNat_limbs]
  refine Limbs.two_pow_trailingZeros_dvd ha.canonical.1.1 ?_
  rw [ha.toNat_limbs]
  exact Int.natAbs_ne_zero.mpr hx

/-- Shifts multiply and divide by powers of two, the one to the right rounding toward negative
infinity; masks and complements are remainders of the absolute value; a bit that is set or cleared
has its new value, all others have the old one, and the sign is kept unless nothing is left; the
length in bits and the trailing zeros are those of the absolute value. All this holds for every
integer and every count of bits, wherever they stand in the limbs. -/
theorem shifts_and_bits_exact (x : Int) (bits : Nat) :
    (ofInt x).shl bits = ofInt (x * 2 ^ bits) ∧
    (ofInt x).shr bits = ofInt (x.fdiv (2 ^ bits)) ∧
    (ofInt x).ushl bits = ofInt (|x| * 2 ^ bits) ∧
    (ofInt x).ushr bits = ofInt (|x| / 2 ^ bits) ∧
    (ofInt x).lowBits bits = ofInt (x.sign * (|x| % 2 ^ bits)) ∧
    (ofInt x).complement bits = ofInt (2 ^ bits - 1 - |x| % 2 ^ bits) ∧
    (ofInt x).addTwoPow bits = ofInt (x + 2 ^ bits) ∧
    (ofInt x).testBit bits = x.natAbs.testBit bits ∧
    (∀ value, ∃ y, (ofInt x).setBit bits value = ofInt y ∧
      (∀ j, (ofInt y).testBit j = if j = bits then value else (ofInt x).testBit j) ∧
      (y < 0 ↔ x < 0 ∧ y ≠ 0)) ∧
    (x ≠ 0 →
      2 ^ ((ofInt x).bitLength - 1) ≤ x.natAbs ∧ x.natAbs < 2 ^ (ofInt x).bitLength ∧
      2 ^ (ofInt x).trailingZeros ∣ x.natAbs ∧ ¬ 2 ^ ((ofInt x).trailingZeros + 1) ∣ x.natAbs) := by
  have ha := denotes_ofInt x
  have hpos : (0 : Int) < 2 ^ bits := Int.pow_pos (by decide)
  refine ⟨(ha.shl bits).eq_ofInt, ?_, (ha.ushl bits).eq_ofInt, (ha.ushr bits).eq_ofInt, ?_,
    (ha.complement bits).eq_ofInt, (ha.addTwoPow bits).eq_ofInt, ha.testBit_eq bits,
    fun value ↦ ?_, fun hx ↦ ?_⟩
  · rw [Int.fdiv_eq_ediv_of_nonneg x hpos.le]
    exact (ha.shr bits).eq_ofInt
  · rw [← tmod_eq_sign_mul x]
    exact (ha.lowBits bits).eq_ofInt
  · have hset := (ha.canonical.setBit bits value).denotes
    refine ⟨_, hset.eq_ofInt, fun j ↦ ?_, ha.negative_setBit bits value⟩
    rw [← hset.eq_ofInt]
    exact ha.testBit_setBit bits value j
  · obtain ⟨hreached, hbelow⟩ := ha.bitLength_bounds hx
    exact ⟨hreached, hbelow, ha.two_pow_trailingZeros_dvd hx⟩

/-- An integer of three limbs, shifted across one of them. -/
theorem shifts_and_bits_exact_three_limbs :
    (-(2 ^ 52 + 3 * 2 ^ 26) : Int) ≠ 0 ∧
    (ofInt (-(2 ^ 52 + 3 * 2 ^ 26))).shr 27 = ofInt (-(2 ^ 25 + 2)) ∧
    2 ^ ((ofInt (-(2 ^ 52 + 3 * 2 ^ 26))).bitLength - 1) ≤ 2 ^ 52 + 3 * 2 ^ 26 ∧
    2 ^ (ofInt (-(2 ^ 52 + 3 * 2 ^ 26))).trailingZeros ∣ 2 ^ 52 + 3 * 2 ^ 26 := by
  have hne : (-(2 ^ 52 + 3 * 2 ^ 26) : Int) ≠ 0 := by decide
  obtain ⟨-, hshr, -, -, -, -, -, -, -, hbits⟩ :=
    shifts_and_bits_exact (-(2 ^ 52 + 3 * 2 ^ 26)) 27
  exact ⟨hne, hshr, (hbits hne).1, (hbits hne).2.2.1⟩

end Secp.LimbInt
