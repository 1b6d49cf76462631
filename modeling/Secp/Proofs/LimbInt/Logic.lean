import Mathlib.Data.Int.Bitwise
import Secp.Proofs.LimbInt.Canonical
import Secp.Proofs.LimbInt.Octets

/-!
# Bitwise operations on two's complement

Two's complement of a width keeps the low bits of an integer, and holds an integer whose bits from
the top one of the width on are all the same. Bits that are the same in both operands are the same
in what an operation makes of them, so that a width that holds two integers holds what they are
combined to. One bit more than the longer magnitude is such a width. Hence the operations make each
bit of the integer, to whatever width its sign is extended.
-/

namespace Secp.LimbInt

open Limbs (ActsOnBits)

variable {a b : LimbInt} {x y z : Int} {k bits : Nat} {op : UInt32 → UInt32 → UInt32}
  {f : Bool → Bool → Bool}

/-- Two's complement of a width holds the integers from the opposite of half the power of two of the
width, up to that half, which is not among them. -/
def HeldIn (bits : Nat) (z : Int) : Prop := -2 ^ (bits - 1) ≤ z ∧ z < 2 ^ (bits - 1)

/-- In one bit more than a number of bits the integers held are those of a magnitude of the bits,
under either sign, and one more below. -/
theorem heldIn_succ_iff : HeldIn (k + 1) z ↔ -((2 ^ k : Nat) : Int) ≤ z ∧ z < (2 ^ k : Nat) := by
  rw [HeldIn, Nat.add_sub_cancel, Nat.cast_pow]
  rfl

/-- A number whose bits from a power of two's on are the same is below the power. -/
theorem lt_two_pow_of_testBit_eq {n : Nat} {sign : Bool} (h : ∀ i, k ≤ i → n.testBit i = sign) :
    n < 2 ^ k := by
  -- a number has no bits far enough up
  have hlt : n < 2 ^ max k n :=
    Nat.lt_two_pow_self.trans_le (Nat.pow_le_pow_right (by decide) (Nat.le_max_right k n))
  have hclear := Nat.testBit_lt_two_pow hlt
  rw [h _ (Nat.le_max_left k n)] at hclear
  exact Nat.lt_pow_two_of_testBit n fun i hi ↦ (h i hi).trans hclear

/-- An integer whose bits from the top one of a width on are the same is held in the width. -/
theorem heldIn_of_testBit_eq {sign : Bool} (h : ∀ i, k ≤ i → z.testBit i = sign) :
    HeldIn (k + 1) z := by
  rw [heldIn_succ_iff]
  cases z with
  | ofNat n =>
    have hlt : n < 2 ^ k := lt_two_pow_of_testBit_eq h
    rw [Int.ofNat_eq_natCast]
    omega
  | negSucc n =>
    have hbits (i : Nat) (hi : k ≤ i) : n.testBit i = !sign := by
      rw [← h i hi, Int.testBit, Bool.not_not]
    have hlt := lt_two_pow_of_testBit_eq hbits
    omega

/-- The bits of an integer from the top one of a width that holds it on are its sign. -/
theorem HeldIn.testBit_eq (h : HeldIn (k + 1) z) {i : Nat} (hi : k ≤ i) :
    z.testBit i = decide (z < 0) := by
  have hle : 2 ^ k ≤ 2 ^ i := Nat.pow_le_pow_right (by decide) hi
  rw [heldIn_succ_iff] at h
  cases z with
  | ofNat n =>
    rw [Int.ofNat_eq_natCast] at h ⊢
    rw [decide_eq_false (Int.not_lt.mpr (Int.natCast_nonneg n))]
    exact Nat.testBit_lt_two_pow (by omega)
  | negSucc n =>
    rw [decide_eq_true (Int.negSucc_lt_zero n), Int.testBit, Nat.testBit_lt_two_pow (by omega)]
    rfl

/-- In a width that holds it, two's complement of a negative integer counts down from the power of
the width. -/
theorem HeldIn.emod_eq (h : HeldIn (k + 1) z) :
    z % 2 ^ (k + 1) = if z < 0 then 2 ^ (k + 1) + z else z := by
  have hdouble : (2 : Int) ^ (k + 1) = 2 * 2 ^ k := Int.pow_succ' ..
  rw [HeldIn, Nat.add_sub_cancel] at h
  split
  · rw [← Int.add_emod_left, Int.emod_eq_of_lt] <;> omega
  · exact Int.emod_eq_of_lt (by omega) (by omega)

/-- The remainder modulo a power of two has the low bits of an integer. -/
theorem testBit_emod_two_pow (x : Int) (bits i : Nat) :
    (x % 2 ^ bits).natAbs.testBit i = (decide (i < bits) && x.testBit i) := by
  have hpow : ((2 ^ bits : Nat) : Int) = 2 ^ bits := Nat.cast_pow 2 bits
  rw [← hpow]
  cases x with
  | ofNat n =>
    rw [Int.ofNat_eq_natCast, ← Int.natCast_emod, Int.natAbs_natCast, Nat.testBit_mod_two_pow]
    rfl
  | negSucc n =>
    have hlt : n % 2 ^ bits < 2 ^ bits := Nat.mod_lt _ (Nat.two_pow_pos bits)
    have hvalue : (Int.negSucc n % (2 ^ bits : Nat)).natAbs = 2 ^ bits - (n % 2 ^ bits + 1) := by
      rw [Int.negSucc_emod n (Int.natCast_pos.mpr (Nat.two_pow_pos bits)), ← Int.natCast_emod]
      omega
    rw [hvalue, Nat.testBit_two_pow_sub_succ hlt, Nat.testBit_mod_two_pow, Int.testBit]
    cases decide (i < bits) <;> simp

/-- What two integers that a width holds are combined to is held in the width. -/
theorem HeldIn.bitwise (hx : HeldIn (k + 1) x) (hy : HeldIn (k + 1) y)
    (f : Bool → Bool → Bool) : HeldIn (k + 1) (Int.bitwise f x y) :=
  heldIn_of_testBit_eq fun i hi ↦ by
    rw [Int.testBit_bitwise, hx.testBit_eq hi, hy.testBit_eq hi]

/-- One bit more than the magnitude has, or more, holds an integer. -/
theorem Denotes.heldIn (ha : Denotes a x) (hbits : a.bitLength ≤ k) : HeldIn (k + 1) x := by
  have hlt : x.natAbs < 2 ^ k := by
    rw [bitLength, ha.canonical.1.bitLength_eq, ha.toNat_limbs] at hbits
    exact (Number.lt_two_pow_bitLength _).trans_le (Nat.pow_le_pow_right (by decide) hbits)
  rw [heldIn_succ_iff]
  omega

/-- A power of two denotes it. -/
theorem denotes_twoPow (bit : Nat) : Denotes (twoPow bit) (2 ^ bit) := by
  refine ⟨canonical_twoPow bit, ?_⟩
  rw [twoPow, toInt_ofParts, Limbs.toNat_twoPow]
  exact Nat.cast_pow 2 bit

/-- The low bits denote the remainder that has the sign of the integer. -/
theorem Denotes.lowBits (ha : Denotes a x) (bits : Nat) :
    Denotes (a.lowBits bits) (x.tmod (2 ^ bits)) := by
  refine ⟨ha.canonical.lowBits bits, ?_⟩
  have hpow : ((2 ^ bits : Nat) : Int) = 2 ^ bits := Nat.cast_pow 2 bits
  rw [LimbInt.lowBits, toInt_ofParts, Limbs.toNat_lowBits ha.canonical.1.1, ← ha.toInt_eq, toInt,
    ← hpow]
  split
  · rw [Int.neg_tmod, Int.ofNat_tmod]
  · rw [Int.ofNat_tmod]

/-- A bit of the magnitude. -/
theorem Denotes.testBit_eq (ha : Denotes a x) (bit : Nat) :
    a.testBit bit = x.natAbs.testBit bit := by
  rw [LimbInt.testBit, Limbs.testBit_eq ha.canonical.1.1, ha.toNat_limbs]

/-- Two's complement of a width that holds an integer denotes the remainder modulo the power of the
width. -/
theorem Denotes.toTwos (ha : Denotes a x) (hx : HeldIn (k + 1) x) :
    Denotes (a.toTwos (k + 1)) (x % 2 ^ (k + 1)) := by
  rw [LimbInt.toTwos, ha.negative_eq, hx.emod_eq]
  simp only [decide_eq_true_eq]
  split
  · next hneg =>
    have hdiff := (denotes_twoPow (k + 1)).sub ha.abs
    rwa [abs_of_neg hneg, sub_neg_eq_add] at hdiff
  · exact ha

/-- From two's complement of a width that holds it, an integer is read back. -/
theorem Denotes.ofTwos (ha : Denotes a (z % 2 ^ (k + 1))) (hz : HeldIn (k + 1) z) :
    Denotes (a.ofTwos (k + 1)) z := by
  have hpos : (0 : Int) < 2 ^ (k + 1) := Int.pow_pos (by decide)
  have htop : a.testBit (k + 1 - 1) = decide (z < 0) := by
    rw [ha.testBit_eq, Nat.add_sub_cancel, testBit_emod_two_pow, hz.testBit_eq (Nat.le_refl k),
      decide_eq_true (Nat.lt_succ_self k), Bool.true_and]
  rw [LimbInt.ofTwos, htop]
  simp only [Nat.zero_lt_succ, true_and, decide_eq_true_eq]
  split
  · next hneg =>
    have hdiff := (ha.lowBits (k + 1)).sub (denotes_twoPow (k + 1))
    rwa [Int.tmod_eq_emod_of_nonneg (Int.emod_nonneg _ hpos.ne'), Int.emod_emod, hz.emod_eq,
      if_pos hneg, add_sub_cancel_left] at hdiff
  · next hnonneg => rwa [hz.emod_eq, if_neg hnonneg] at ha

/-- Combining magnitudes combines the integers when neither is negative. -/
theorem toNat_bitwise_natCast (hop : ActsOnBits op f) {xs ys : Limbs} (hxs : xs.Bounded)
    (hys : ys.Bounded) :
    ((Limbs.bitwise op xs ys).toNat : Int) = Int.bitwise f xs.toNat ys.toNat := by
  have hnat : (Limbs.bitwise op xs ys).toNat = Nat.bitwise f xs.toNat ys.toNat :=
    Nat.eq_of_testBit_eq fun i ↦ by
      rw [Limbs.testBit_bitwise hop hxs hys, Nat.testBit_bitwise hop.false_false]
  rw [hnat]
  change _ = Int.natBitwise f xs.toNat ys.toNat
  rw [Int.natBitwise, hop.false_false]
  rfl

/-- Combining the two's complements of two integers, in a width that holds both, gives the two's
complement of what the integers are combined to. -/
theorem natAbs_emod_bitwise (hop : ActsOnBits op f) (ha : Denotes a (x % 2 ^ bits))
    (hb : Denotes b (y % 2 ^ bits)) :
    (Limbs.bitwise op a.limbs b.limbs).toNat = (Int.bitwise f x y % 2 ^ bits).natAbs := by
  refine Nat.eq_of_testBit_eq fun i ↦ ?_
  rw [Limbs.testBit_bitwise hop ha.canonical.1.1 hb.canonical.1.1, ha.toNat_limbs, hb.toNat_limbs]
  simp only [testBit_emod_two_pow, Int.testBit_bitwise]
  by_cases hi : i < bits
  · simp [hi]
  · simp [hi, hop.false_false]

/-- The integer denoted by limbs combined. -/
theorem Denotes.bitwise (hop : ActsOnBits op f) (ha : Denotes a x) (hb : Denotes b y) :
    Denotes (LimbInt.bitwise op a b) (Int.bitwise f x y) := by
  unfold LimbInt.bitwise
  split
  · next hsigns =>
    rw [Bool.and_eq_true, Bool.not_eq_true', Bool.not_eq_true'] at hsigns
    have hx : x = a.limbs.toNat := by
      rw [← ha.toInt_eq, toInt, hsigns.1]
      rfl
    have hy : y = b.limbs.toNat := by
      rw [← hb.toInt_eq, toInt, hsigns.2]
      rfl
    refine ⟨canonical_ofParts _ (Limbs.bounded_bitwise hop.lt_base ha.canonical.1.1
      hb.canonical.1.1), ?_⟩
    rw [toInt_ofParts, toNat_bitwise_natCast hop ha.canonical.1.1 hb.canonical.1.1, ← hx, ← hy]
    rfl
  · have hx := ha.heldIn (Nat.le_max_left a.bitLength b.bitLength)
    have hy := hb.heldIn (Nat.le_max_right a.bitLength b.bitLength)
    generalize max a.bitLength b.bitLength = k at hx hy ⊢
    have ha' := ha.toTwos hx
    have hb' := hb.toTwos hy
    have hpos : (0 : Int) < 2 ^ (k + 1) := Int.pow_pos (by decide)
    have hnonneg := Int.emod_nonneg (Int.bitwise f x y) hpos.ne'
    have hjoined : Denotes
        (ofParts false (Limbs.bitwise op (a.toTwos (k + 1)).limbs (b.toTwos (k + 1)).limbs))
        (Int.bitwise f x y % 2 ^ (k + 1)) := by
      refine ⟨canonical_ofParts _ (Limbs.bounded_bitwise hop.lt_base ha'.canonical.1.1
        hb'.canonical.1.1), ?_⟩
      rw [toInt_ofParts, natAbs_emod_bitwise hop ha' hb', if_neg (by decide),
        Int.natAbs_of_nonneg hnonneg]
    have hlow := hjoined.lowBits (k + 1)
    rw [Int.tmod_eq_emod_of_nonneg hnonneg, Int.emod_emod] at hlow
    exact hlow.ofTwos (hx.bitwise hy f)

/-- The width in which two integers are combined: one bit more than the longer magnitude has. -/
def jointWidth (x y : Int) : Nat := max (ofInt x).bitLength (ofInt y).bitLength + 1

/-- The form of an integer that a width holds, and whose bits in two's complement, which go on
without end, are made of those of two integers. -/
def CombinedIn (bits : Nat) (f : Bool → Bool → Bool) (x y : Int) (r : LimbInt) : Prop :=
  ∃ z, r = ofInt z ∧ (∀ i, z.testBit i = f (x.testBit i) (y.testBit i)) ∧ HeldIn bits z

/-- Both operands are held in the width in which they are combined. -/
theorem heldIn_jointWidth (x y : Int) : HeldIn (jointWidth x y) x ∧ HeldIn (jointWidth x y) y :=
  ⟨(denotes_ofInt x).heldIn (Nat.le_max_left _ _), (denotes_ofInt y).heldIn (Nat.le_max_right _ _)⟩

/-- An operation on the bits of words combines integers bit by bit. -/
theorem combinedIn_bitwise (hop : ActsOnBits op f) (x y : Int) :
    CombinedIn (jointWidth x y) f x y (LimbInt.bitwise op (ofInt x) (ofInt y)) := by
  obtain ⟨hx, hy⟩ := heldIn_jointWidth x y
  have hresult := (denotes_ofInt x).bitwise hop (denotes_ofInt y)
  exact ⟨Int.bitwise f x y, hresult.eq_ofInt,
    Int.testBit_bitwise f x y, hx.bitwise hy f⟩

/-- The bitwise operations are those of two's complement. Whatever the signs and lengths of two
integers are, each operation gives the integer whose bits, to whatever width the signs are extended,
are made of those of the two; and the width of one bit more than the longer magnitude has holds both
and what they are combined to. -/
theorem bitwise_twos_complement (x y : Int) :
    CombinedIn (jointWidth x y) (· && ·) x y ((ofInt x).and (ofInt y)) ∧
    CombinedIn (jointWidth x y) (· || ·) x y ((ofInt x).or (ofInt y)) ∧
    CombinedIn (jointWidth x y) (· ^^ ·) x y ((ofInt x).xor (ofInt y)) ∧
    HeldIn (jointWidth x y) x ∧ HeldIn (jointWidth x y) y :=
  ⟨combinedIn_bitwise Limbs.actsOnBits_and x y, combinedIn_bitwise Limbs.actsOnBits_or x y,
    combinedIn_bitwise Limbs.actsOnBits_xor x y, heldIn_jointWidth x y⟩

/-- The width is needed in full: what two integers of three bits are combined to has four. -/
example : (ofInt (-6)).and (ofInt (-3)) = ofInt (-8) ∧ jointWidth (-6) (-3) = 4 := by
  cbv

end Secp.LimbInt
