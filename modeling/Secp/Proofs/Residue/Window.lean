import Secp.LimbInt.Bits
import Secp.Proofs.LimbInt.Octets
import Secp.Proofs.Loops
import Secp.Proofs.Residue.Recast

/-!
# Windows of an exponent by place

Here the bits of an exponent are looked at by place, from the top one down, with a place that runs
below zero at the end. A window goes up from the lowest place it may have to the next one bit, the
bits from there to its top make a digit, and the table is looked up at half the digit. Nothing comes
of a lookup beyond the table, nor of a search for a one bit that never ends.

From each place on, what is passed raises the result to a power of two and multiplies it by the
power that the bits from this place down denote. So every lookup is inside the table, the run comes
to its end, and it gives the power.
-/

namespace Secp.Residue

variable {m : Modulus}

namespace ByPlace

/-- Count up from a place to the next one bit of an exponent. -/
noncomputable def nextOne (e : LimbInt) : Nat → Part Nat :=
  PFun.fix fun place ↦ Part.some (if e.testBit place then .inl place else .inr (place + 1))

/-- The number that the bits of an exponent denote from a low place to a high one. -/
def digit (e : LimbInt) (low high : Nat) : Nat :=
  bitsValue (((List.range' low (high + 1 - low)).map e.testBit).reverse)

/-- Pass a zero bit at a place, or the window below it; below all places the result stands. -/
noncomputable def passStep (table : List (Residue m)) (width : Nat) (e : LimbInt)
    (state : Int × Residue m) : Part (Residue m ⊕ Int × Residue m) :=
  let (place, acc) := state
  if place < 0 then Part.some (.inl acc)
  else
    let high := place.toNat
    if e.testBit high then do
      let low ← nextOne e (max (place - width + 1) 0).toNat
      let power ← Part.ofOption table[digit e low high / 2]?
      return .inr (low - 1, sqrTimes (high + 1 - low) acc * power)
    else Part.some (.inr (place - 1, acc.sqr))

/-- Pass the bits of an exponent from a place down. -/
noncomputable def passBits (table : List (Residue m)) (width : Nat) (e : LimbInt) (place : Int)
    (acc : Residue m) : Part (Residue m) :=
  PFun.fix (passStep table width e) (place, acc)

/-- A power. -/
noncomputable def pow (a : Residue m) (e : LimbInt) : Part (Residue m) :=
  let bits := e.bitLength
  if bits = 0 then Part.some one
  else do
    let width := windowWidth bits
    let table ← Part.ofOption (fillTable (· * a.sqr) a (2 ^ (width - 1)))
    passBits table width e (bits - 1) one

end ByPlace

/-- Each odd power is made from the one before. -/
theorem oddPowersFrom_eq (square : Residue m) (count : Nat) (a : Residue m) :
    oddPowersFrom square count a = List.iterate (· * square) a count := by
  induction count generalizing a with
  | zero => rfl
  | succ count ih => rw [oddPowersFrom, ih, List.iterate]

/-- A window has a place at least. -/
theorem windowWidth_pos (bits : Nat) : 0 < windowWidth bits := by
  unfold windowWidth
  split_ifs <;> decide

namespace ByPlace

variable {e : LimbInt} {n : Nat}

/-- The bits of an exponent are those of its number. -/
theorem testBit_eq (he : LimbInt.Denotes e n) (place : Nat) :
    e.testBit place = n.testBit place := by
  rw [LimbInt.testBit, Limbs.testBit_eq he.canonical.1.1, he.toNat_limbs]
  rfl

/-- At or below a one bit, the next one bit is found. -/
theorem exists_nextOne {high start : Nat} (hhigh : e.testBit high = true) (hle : start ≤ high) :
    ∃ low, nextOne e start = Part.some low ∧ start ≤ low ∧ low ≤ high ∧ e.testBit low = true := by
  by_cases hbit : e.testBit start = true
  · exact ⟨start, fix_stop (congrArg Part.some (if_pos hbit)), le_rfl, hle, hbit⟩
  · have hne : start ≠ high := by
      rintro rfl
      exact hbit hhigh
    obtain ⟨low, hrun, hstart, hlow, hone⟩ :=
      exists_nextOne hhigh (Nat.succ_le_of_lt (Nat.lt_of_le_of_ne hle hne))
    refine ⟨low, ?_, Nat.le_of_succ_le hstart, hlow, hone⟩
    exact (fix_next (congrArg Part.some (if_neg hbit))).trans hrun
termination_by high - start

/-- A digit is what is left of the bits up to its top one, above its lowest one. -/
theorem digit_eq (he : LimbInt.Denotes e n) {low high : Nat} (hle : low ≤ high) :
    digit e low high = n % 2 ^ (high + 1) / 2 ^ low := by
  have hbits : (List.range' low (high + 1 - low)).map e.testBit =
      (List.range (high + 1 - low)).map (n / 2 ^ low).testBit := by
    rw [List.range'_eq_map_range, List.map_map]
    refine List.map_congr_left fun place _ ↦ ?_
    rw [Function.comp_apply, testBit_eq he, Nat.testBit_div_two_pow, Nat.add_comm]
  have hpow : 2 ^ (high + 1) = 2 ^ low * 2 ^ (high + 1 - low) := by
    rw [← Nat.pow_add, Nat.add_sub_of_le (Nat.le_succ_of_le hle)]
  rw [digit, hbits, bitsValue_lowBits, hpow, Nat.mod_mul_right_div_self]

/-- A digit that ends in a one bit is odd and has no more bits than its places; with the bits below
it, it makes up the bits from its top down. -/
theorem digit_spec (he : LimbInt.Denotes e n) {low high : Nat} (hle : low ≤ high)
    (hone : e.testBit low = true) :
    digit e low high % 2 = 1 ∧ digit e low high < 2 ^ (high + 1 - low) ∧
      digit e low high * 2 ^ low + n % 2 ^ low = n % 2 ^ (high + 1) := by
  have hbit : (n % 2 ^ (high + 1)).testBit low = true := by
    rw [Nat.testBit_mod_two_pow, ← testBit_eq he, hone, decide_eq_true (Nat.lt_succ_of_le hle)]
    rfl
  have hpow : 2 ^ low * 2 ^ (high + 1 - low) = 2 ^ (high + 1) := by
    rw [← Nat.pow_add, Nat.add_sub_of_le (Nat.le_succ_of_le hle)]
  have hrest : n % 2 ^ (high + 1) % 2 ^ low = n % 2 ^ low :=
    Nat.mod_mod_of_dvd n ⟨_, hpow.symm⟩
  rw [digit_eq he hle]
  refine ⟨?_, ?_, ?_⟩
  · rw [← Nat.toNat_testBit, hbit]
    rfl
  · apply Nat.div_lt_of_lt_mul
    rw [hpow]
    exact Nat.mod_lt _ (Nat.two_pow_pos _)
  · rw [← hrest, Nat.mul_comm]
    exact Nat.div_add_mod _ _

/-- At a one bit a step takes a window down to a one bit too, and finds the power that it names. -/
theorem exists_passStep {a : ZMod m.value} {width : Nat} {table : List (Residue m)}
    (htable : HoldsOddPowers a width table) (hwidth : 0 < width) (he : LimbInt.Denotes e n)
    {high : Nat} (hbit : e.testBit high = true) (acc : Residue m) :
    ∃ (low : Nat) (power : Residue m), low ≤ high ∧
      passStep table width e (high, acc) =
        Part.some (.inr (low - 1, sqrTimes (high + 1 - low) acc * power)) ∧
      power.toZMod = a ^ digit e low high ∧
      digit e low high * 2 ^ low + n % 2 ^ low = n % 2 ^ (high + 1) := by
  have hlowest : (max ((high : Int) - width + 1) 0).toNat ≤ high := by omega
  obtain ⟨low, hrun, hstart, hlow, hone⟩ := exists_nextOne hbit hlowest
  obtain ⟨hodd, hlt, hsum⟩ := digit_spec he hlow hone
  -- the window has at most `width` bits, so half its digit names an entry
  have hindex : digit e low high / 2 < 2 ^ (width - 1) := by
    have hpow : 2 ^ (high + 1 - low) ≤ 2 ^ (width - 1 + 1) :=
      Nat.pow_le_pow_right (by decide) (by omega)
    rw [Nat.pow_succ] at hpow
    omega
  obtain ⟨power, hentry, hpower⟩ := htable _ hindex
  rw [show 2 * (digit e low high / 2) + 1 = digit e low high by omega] at hpower
  refine ⟨low, power, hlow, ?_, hpower, hsum⟩
  rw [passStep]
  dsimp only
  rw [if_neg (by omega), Int.toNat_natCast, if_pos hbit, hrun, Part.bind_eq_bind, Part.bind_some,
    hentry]
  exact Part.bind_some _ _

/-- From a place down the run ends, and what it passes raises the result to a power of two and
multiplies it by the power that the bits denote. -/
theorem exists_passBits {a : ZMod m.value} {width : Nat} {table : List (Residue m)}
    (htable : HoldsOddPowers a width table) (hwidth : 0 < width) (he : LimbInt.Denotes e n)
    (count : Nat) (acc : Residue m) :
    ∃ r, passBits table width e (count - 1) acc = Part.some r ∧
      r.toZMod = acc.toZMod ^ 2 ^ count * a ^ (n % 2 ^ count) := by
  induction count using Nat.strong_induction_on generalizing acc with
  | h count ih =>
    cases count with
    | zero =>
      have hstep : passStep table width e ((0 : Nat) - 1, acc) = Part.some (.inl acc) := by
        rw [passStep]
        exact if_pos (by decide)
      exact ⟨acc, fix_stop hstep, by simp [Nat.mod_one]⟩
    | succ high =>
      have hplace : ((high + 1 : Nat) : Int) - 1 = high := by omega
      rw [hplace]
      by_cases hbit : e.testBit high = true
      · obtain ⟨low, power, hlow, hstep, hpower, hsum⟩ :=
          exists_passStep htable hwidth he hbit acc
        obtain ⟨r, hrest, hr⟩ := ih low (Nat.lt_succ_of_le hlow)
          (sqrTimes (high + 1 - low) acc * power)
        refine ⟨r, (fix_next hstep).trans hrest, ?_⟩
        have hsquares : 2 ^ (high + 1 - low) * 2 ^ low = 2 ^ (high + 1) := by
          rw [← Nat.pow_add, Nat.sub_add_cancel (Nat.le_succ_of_le hlow)]
        rw [hr, toZMod_mul, toZMod_sqrTimes, hpower, mul_pow, ← pow_mul, ← pow_mul, hsquares,
          mul_assoc, ← pow_add, hsum]
      · have hstep : passStep table width e (high, acc) =
            Part.some (.inr (high - 1, acc.sqr)) := by
          rw [passStep]
          dsimp only
          rw [if_neg (by omega), Int.toNat_natCast, if_neg hbit]
        have hclear : n % 2 ^ (high + 1) = n % 2 ^ high := by
          have htest := Nat.toNat_testBit n high
          rw [← testBit_eq he, Bool.eq_false_iff.mpr hbit] at htest
          rw [Nat.mod_pow_succ, ← htest]
          exact Nat.add_zero _
        obtain ⟨r, hrest, hr⟩ := ih high (Nat.lt_succ_self high) acc.sqr
        refine ⟨r, (fix_next hstep).trans hrest, ?_⟩
        rw [hr, toZMod_sqr, ← pow_mul, ← Nat.pow_succ', hclear]

/-- The run over an exponent gives the power. -/
theorem pow_eq (a : Residue m) (he : LimbInt.Denotes e n) : pow a e = Part.some (a.pow n) := by
  have hbits : e.bitLength = Number.bitLength n := by
    rw [LimbInt.bitLength, he.canonical.1.bitLength_eq, he.toNat_limbs]
    rfl
  unfold pow
  rw [hbits]
  by_cases hzero : Number.bitLength n = 0
  · have hone : a.pow n = one := if_pos hzero
    rw [hone]
    exact if_pos hzero
  · have hwidth := windowWidth_pos (Number.bitLength n)
    have htable := holdsOddPowers_oddPowers a (windowWidth (Number.bitLength n))
    rw [oddPowers, oddPowersFrom_eq] at htable
    obtain ⟨r, hrun, hr⟩ := exists_passBits htable hwidth he (Number.bitLength n) one
    dsimp only
    have hpower : r = a.pow n := by
      rw [← toZMod_inj, hr, toZMod_one, one_pow, one_mul, toZMod_pow,
        Nat.mod_eq_of_lt (Number.lt_two_pow_bitLength n)]
    rw [if_neg hzero, fillTable_eq _ _ (Nat.two_pow_pos _), ← hpower, ← hrun]
    exact Part.bind_some _ _

end ByPlace

/-- A power is the remainder of the power of the representative, for every exponent, zero included.
The run over the exponent's bits and windows by place ends, and every lookup in the table of odd
powers is inside it. -/
theorem windows_exact (a : Residue m) (n : Nat) :
    ByPlace.pow a (.ofInt n) = Part.some (a.pow n) ∧ (a.pow n).val = a.val ^ n % m.value := by
  refine ⟨ByPlace.pow_eq a (LimbInt.denotes_ofInt n), ?_⟩
  have hval := val_pow a n
  exact_mod_cast hval

end Secp.Residue
