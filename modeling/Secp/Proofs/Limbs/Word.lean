import Mathlib.Algebra.Order.Ring.Nat
import Secp.Limbs.Basic

/-!
# Words and the numbers they hold

The low limb and the carry of a word are its remainder and quotient by the base. Where nothing
overflows, sums, differences, products and shifts of words are those of the numbers held.
-/

namespace Secp.Limbs

/-- The base as a numeral. -/
theorem base_eq : base = 67108864 := rfl

/-- The low bits of a word are its remainder by the base. -/
@[simp] theorem toNat_and_mask (w : UInt32) : (w &&& mask).toNat = w.toNat % base := by
  rw [UInt32.toNat_and]
  exact Nat.and_two_pow_sub_one_eq_mod w.toNat 26

/-- The high bits of a word are its quotient by the base. -/
@[simp] theorem toNat_shiftRight (w : UInt32) : (w >>> 26).toNat = w.toNat / base := by
  rw [UInt32.toNat_shiftRight]
  exact Nat.shiftRight_eq_div_pow w.toNat 26

/-- The low limb of a wide word is its remainder by the base. -/
@[simp] theorem toNat_low (t : UInt64) : (low t).toNat = t.toNat % base := by
  rw [low, toNat_and_mask, UInt64.toNat_toUInt32]
  exact Nat.mod_mod_of_dvd t.toNat (by decide)

/-- The carry of a wide word is its quotient by the base. -/
@[simp] theorem toNat_high (t : UInt64) : (high t).toNat = t.toNat / base := by
  rw [high, UInt64.toNat_shiftRight]
  exact Nat.shiftRight_eq_div_pow t.toNat 26

/-- The low bits of a word are a limb. -/
theorem and_mask_lt (w : UInt32) : (w &&& mask).toNat < base := by
  rw [toNat_and_mask]
  exact Nat.mod_lt _ (by decide)

/-- The low limb of a wide word is a limb. -/
theorem low_lt (t : UInt64) : (low t).toNat < base := and_mask_lt _

/-- The low limb of a number and its carry, added one limb further up, keep the number. -/
theorem mod_add_base_mul (t r : Nat) : t % base + base * (r + t / base) = base * r + t := by
  rw [Nat.mul_add, Nat.add_left_comm, Nat.mod_add_div]

/-- The same where only so many limbs are kept. -/
theorem mod_add_base_mul_mod (t r count : Nat) :
    t % base + base * ((r + t / base) % base ^ count) = (base * r + t) % base ^ (count + 1) := by
  rw [Nat.pow_succ', Nat.mod_mul, Nat.mul_add_mod, Nat.mul_add_div (by decide)]

/-- A sum of words that fits a word is the sum of the numbers. -/
theorem toNat_add32 {x y : UInt32} (h : x.toNat + y.toNat < 2 ^ 32) :
    (x + y).toNat = x.toNat + y.toNat := by
  rw [UInt32.toNat_add, Nat.mod_eq_of_lt h]

/-- A sum of wide words that fits a wide word is the sum of the numbers. -/
theorem toNat_add64 {x y : UInt64} (h : x.toNat + y.toNat < 2 ^ 64) :
    (x + y).toNat = x.toNat + y.toNat := by
  rw [UInt64.toNat_add, Nat.mod_eq_of_lt h]

/-- A product of wide words that fits a wide word is the product of the numbers. -/
theorem toNat_mul64 {x y : UInt64} (h : x.toNat * y.toNat < 2 ^ 64) :
    (x * y).toNat = x.toNat * y.toNat := by
  rw [UInt64.toNat_mul, Nat.mod_eq_of_lt h]

/-- A product of wide words and a carry that together fit a wide word. -/
theorem toNat_mul_add64 {x y c : UInt64} (h : x.toNat * y.toNat + c.toNat < 2 ^ 64) :
    (x * y + c).toNat = x.toNat * y.toNat + c.toNat := by
  have hmul : (x * y).toNat = x.toNat * y.toNat :=
    toNat_mul64 (Nat.lt_of_le_of_lt (Nat.le_add_right _ _) h)
  rw [toNat_add64 (by rwa [hmul]), hmul]

/-- A wide word that fits a word keeps its number there. -/
theorem toNat_toUInt32 {t : UInt64} (h : t.toNat < 2 ^ 32) : t.toUInt32.toNat = t.toNat := by
  rw [UInt64.toNat_toUInt32, Nat.mod_eq_of_lt h]

/-- Bits that stand below a shifted word add to it. -/
theorem toNat_shiftLeft_or {x y r : UInt64} (hr : r.toNat < 64) (hy : y.toNat < 2 ^ r.toNat)
    (hx : x.toNat * 2 ^ r.toNat < 2 ^ 64) :
    ((x <<< r) ||| y).toNat = x.toNat * 2 ^ r.toNat + y.toNat := by
  rw [UInt64.toNat_or, UInt64.toNat_shiftLeft, Nat.mod_eq_of_lt hr, Nat.shiftLeft_eq,
    Nat.mod_eq_of_lt hx, ← Nat.shiftLeft_eq, Nat.shiftLeft_add_eq_or_of_lt hy]

/-- A wide word placed above waiting bits. -/
theorem toNat_or_shiftLeft {x held : UInt64} {bits : Nat} (hbits : bits < 64)
    (hheld : held.toNat < 2 ^ bits) (hx : x.toNat * 2 ^ bits < 2 ^ 64) :
    (held ||| (x <<< UInt64.ofNat bits)).toNat = x.toNat * 2 ^ bits + held.toNat := by
  have hshift : (UInt64.ofNat bits).toNat = bits :=
    UInt64.toNat_ofNat_of_lt' (Nat.lt_trans hbits (by decide))
  rw [UInt64.or_comm, toNat_shiftLeft_or (by rwa [hshift]) (by rwa [hshift]) (by rwa [hshift]),
    hshift]

/-- A limb of a sum, with the carry. -/
theorem toNat_sumLimb {x y c : UInt32} (hx : x.toNat < base) (hy : y.toNat < base)
    (hc : c.toNat ≤ 1) : (x + y + c).toNat = x.toNat + y.toNat + c.toNat := by
  rw [base_eq] at hx hy
  have hsum : (x + y).toNat = x.toNat + y.toNat := toNat_add32 (by omega)
  rw [toNat_add32 (by rw [hsum]; omega), hsum]

/-- The carry out of a limb of a sum is a bit. -/
theorem sumCarry_le {x y c : UInt32} (hx : x.toNat < base) (hy : y.toNat < base)
    (hc : c.toNat ≤ 1) : ((x + y + c) >>> 26).toNat ≤ 1 := by
  rw [toNat_shiftRight, toNat_sumLimb hx hy hc]
  rw [base_eq] at *
  omega

end Secp.Limbs
