import Mathlib.Data.Int.GCD
import Mathlib.RingTheory.Coprime.Lemmas
import Mathlib.Tactic.LinearCombination
import Secp.Number.Euclid

/-!
# Greatest common divisors and inverses

The loop of Euclid's algorithm keeps the greatest common divisor of its pair, and it keeps both
numbers of the pair equal to their factors times the first operand, modulo the second. It ends
with the divisor and its factor, which is an inverse where the divisor is one.
-/

namespace Secp.Number

/-- The loop ends with the greatest common divisor of the pair it starts from. -/
theorem cofactorFrom_fst (a b : Nat) (x y : Int) : (cofactorFrom a b x y).1 = Nat.gcd a b := by
  fun_induction cofactorFrom a b x y with
  | case1 a x y => exact (Nat.gcd_zero_right a).symm
  | case2 a b x y h ih => rw [ih, Nat.gcd_comm b, ← Nat.gcd_rec, Nat.gcd_comm]

/-- If `x` and `y` are factors of `c` that give the pair modulo `m`, the factor at the end gives
the divisor. -/
theorem dvd_cofactorFrom {m c : Int} (a b : Nat) (x y : Int) (ha : m ∣ a - c * x)
    (hb : m ∣ b - c * y) :
    m ∣ (cofactorFrom a b x y).1 - c * (cofactorFrom a b x y).2 := by
  fun_induction cofactorFrom a b x y with
  | case1 a x y => exact ha
  | case2 a b x y h ih =>
    apply ih hb
    have hsplit : ((a % b : Nat) : Int) = a - b * (a / b : Nat) := Int.emod_def a b
    have hrest : ((a % b : Nat) : Int) - c * (x - (a / b : Nat) * y) =
        a - c * x - (a / b : Nat) * (b - c * y) := by
      rw [hsplit]
      ring
    rw [hrest]
    exact Int.dvd_sub ha (hb.mul_left _)

/-- The first part is the greatest common divisor. -/
theorem cofactor_fst (a b : Nat) : (cofactor a b).1 = Nat.gcd a b := cofactorFrom_fst a b 1 0

/-- The second part is a factor that gives the greatest common divisor modulo the second
operand. -/
theorem dvd_cofactor (a b : Nat) : (b : Int) ∣ (cofactor a b).1 - a * (cofactor a b).2 :=
  dvd_cofactorFrom a b 1 0 (by simp) (by simp)

/-- An inverse is reduced, and its product with the number is one modulo `m`. -/
theorem mul_of_inverse? {a m x : Int} (h : inverse? a m = some x) :
    0 ≤ x ∧ x < m.natAbs ∧ m ∣ a * x - 1 := by
  unfold inverse? at h
  split at h
  · contradiction
  · next hm =>
    have hfactor := dvd_cofactor (a % m).toNat m.natAbs
    dsimp only at h
    split at h
    · next hone =>
      cases h
      refine ⟨Int.emod_nonneg _ hm, ?_, ?_⟩
      · rw [Int.natCast_natAbs]
        exact Int.emod_lt_abs _ hm
      · rw [hone, Int.toNat_of_nonneg (Int.emod_nonneg _ hm), Int.natAbs_dvd] at hfactor
        generalize (cofactor (a % m).toNat m.natAbs).2 = y at hfactor ⊢
        have hprod : m ∣ a * (y % m) - a % m * y := by
          have hy : m ∣ y - y % m := Int.dvd_self_sub_emod
          have ha : m ∣ a - a % m := Int.dvd_self_sub_emod
          have hsum : a * (y % m) - a % m * y = (a - a % m) * y - a * (y - y % m) := by ring
          rw [hsum]
          exact Int.dvd_sub (ha.mul_right _) (hy.mul_left _)
        have hsum : a * (y % m) - 1 =
            a * (y % m) - a % m * y - (((1 : Nat) : Int) - a % m * y) := by
          push_cast
          ring
        rw [hsum]
        exact Int.dvd_sub hprod hfactor
    · contradiction

/-- A number that has an inverse shares no factor with the modulus, which is not zero. -/
theorem gcd_of_inverse? {a m x : Int} (h : inverse? a m = some x) : m ≠ 0 ∧ Int.gcd a m = 1 := by
  obtain ⟨hnonneg, hlt, k, hk⟩ := mul_of_inverse? h
  refine ⟨by omega, Int.isCoprime_iff_gcd_eq_one.mp ⟨x, -k, ?_⟩⟩
  linear_combination hk

/-- A number that shares no factor with a modulus other than zero has an inverse. -/
theorem exists_inverse? {a m : Int} (hm : m ≠ 0) (h : Int.gcd a m = 1) :
    ∃ x, inverse? a m = some x := by
  have hgcd : (cofactor (a % m).toNat m.natAbs).1 = 1 := by
    rw [cofactor_fst]
    have habs : (a % m).toNat = (a % m).natAbs := by
      have := Int.emod_nonneg a hm
      omega
    have hsub : Int.gcd (a % m) m = Int.gcd a m := by
      rw [Int.emod_def, Int.gcd_sub_mul_left_left]
    rw [habs]
    exact hsub.trans h
  refine ⟨(cofactor (a % m).toNat m.natAbs).2 % m, ?_⟩
  simp only [inverse?, hm, hgcd, if_true, if_false]

end Secp.Number
