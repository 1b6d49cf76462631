import Mathlib.Tactic.Ring
import Secp.Residue.Modulus

/-!
# Reductions compute remainders

Folding keeps a number modulo the sparse prime, and Barrett's quotient never exceeds the true one,
so that repeated subtraction of the modulus starts from a number with the same remainder. Both ways
of reducing therefore give the remainder of division by the modulus.
-/

namespace Secp.Modulus

/-- Moving the bits above 256 down changes a number by a multiple of the sparse prime. -/
theorem fold_mod (x : Nat) : fold x % sparsePrime = x % sparsePrime := by
  fun_induction fold x with
  | case1 x h => rfl
  | case2 x h ih =>
    have hx : x = x % 2 ^ 256 + x / 2 ^ 256 * foldConstant + sparsePrime * (x / 2 ^ 256) := by
      have hsplit := Nat.div_add_mod x (2 ^ 256)
      unfold sparsePrime foldConstant
      omega
    have hmod := congrArg (· % sparsePrime) hx
    simp only [Nat.add_mul_mod_self_left] at hmod
    rw [ih, hmod]

/-- One subtraction is enough below twice the modulus. -/
theorem subtractOnce_eq_mod {m x : Nat} (h : x < 2 * m) : subtractOnce m x = x % m := by
  unfold subtractOnce
  split
  · next hm => rw [Nat.mod_eq_sub_mod hm, Nat.mod_eq_of_lt (by omega)]
  · next hm => rw [Nat.mod_eq_of_lt (by omega)]

/-- Repeated subtraction leaves the remainder. -/
theorem subtractAll_eq_mod {m : Nat} (hm : 0 < m) (x : Nat) : subtractAll m x = x % m := by
  fun_induction subtractAll m x with
  | case1 x h ih => rw [ih, ← Nat.mod_eq_sub_mod h.2]
  | case2 x h => exact (Nat.mod_eq_of_lt (by omega)).symm

/-- The two shifts of Barrett's quotient together divide by the power that the reciprocal scales
with. -/
theorem two_pow_mul_two_pow {bits : Nat} (hbits : 1 ≤ bits) :
    2 ^ (bits + 1) * 2 ^ (bits - 1) = 4 ^ bits := by
  rw [← Nat.pow_add, show bits + 1 + (bits - 1) = 2 * bits by omega, Nat.pow_mul]

/-- Barrett's quotient is at most the true one, whatever the length of the number. -/
theorem quotient_mul_le {m bits : Nat} (hbits : 1 ≤ bits) (x : Nat) :
    quotient bits (4 ^ bits / m) x * m ≤ x := by
  have hpow := two_pow_mul_two_pow hbits
  have hquot : quotient bits (4 ^ bits / m) x * 2 ^ (bits + 1) ≤
      x / 2 ^ (bits - 1) * (4 ^ bits / m) := Nat.div_mul_le_self _ _
  have hlead : x / 2 ^ (bits - 1) * 2 ^ (bits - 1) ≤ x := Nat.div_mul_le_self _ _
  have hrecip : 4 ^ bits / m * m ≤ 4 ^ bits := Nat.div_mul_le_self _ _
  apply Nat.le_of_mul_le_mul_right (c := 4 ^ bits) _ (Nat.pow_pos (by decide))
  calc quotient bits (4 ^ bits / m) x * m * 4 ^ bits
      = quotient bits (4 ^ bits / m) x * 2 ^ (bits + 1) * (m * 2 ^ (bits - 1)) := by
        rw [← hpow]
        ac_rfl
    _ ≤ x / 2 ^ (bits - 1) * (4 ^ bits / m) * (m * 2 ^ (bits - 1)) :=
        Nat.mul_le_mul_right _ hquot
    _ = x / 2 ^ (bits - 1) * 2 ^ (bits - 1) * (4 ^ bits / m * m) := by ac_rfl
    _ ≤ x * 4 ^ bits := Nat.mul_le_mul hlead hrecip

/-- Reducing a number gives its remainder. -/
theorem reduceNat_eq_mod (m : Modulus) (x : Nat) : m.reduceNat x = x % m.value := by
  have hm := m.value_pos
  unfold reduceNat
  split
  · next h _ =>
    have hx := fold_lt x
    have hlt : 2 ^ 256 < 2 * sparsePrime := by decide
    rw [h, subtractOnce_eq_mod (by omega), fold_mod]
  · next bits reciprocal hbits hreciprocal _ =>
    split
    · rfl
    · have hle : quotient bits reciprocal x * m.value ≤ x := by
        rw [hreciprocal]
        refine quotient_mul_le ?_ x
        rw [hbits]
        exact (Number.lt_bitLength_iff m.value 0).mpr hm
      rw [subtractAll_eq_mod hm, ← Nat.add_mul_mod_self_right, Nat.sub_add_cancel hle]

/-- Reducing an integer gives its least non-negative remainder. -/
theorem reduceInt_eq_emod (m : Modulus) (x : Int) : (m.reduceInt x : Int) = x % m.value := by
  have hm : (m.value : Int) ≠ 0 := Int.ofNat_ne_zero.mpr (Nat.ne_of_gt m.value_pos)
  unfold reduceInt
  split
  · exact Int.toNat_of_nonneg (Int.emod_nonneg x hm)
  · next hx =>
    rw [reduceNat_eq_mod, Int.natCast_emod, Int.toNat_of_nonneg (by omega)]

end Secp.Modulus
