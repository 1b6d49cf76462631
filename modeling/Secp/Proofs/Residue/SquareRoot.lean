import Mathlib.FieldTheory.Finite.Basic
import Secp.Proofs.Residue.Power
import Secp.Residue.SquareRoot

/-!
# Square roots

What is found is a root, for every modulus, as it is squared to see. Modulo a prime that leaves
three when divided by four, every square has a root found: the square of the power is the number
times a power that Fermat's theorem makes one.
-/

namespace Secp.Residue

variable {m : Modulus}

/-- What is found is a root. -/
theorem sq_of_sqrt? {a r : Residue m} (h : a.sqrt? = some r) : r.toZMod ^ 2 = a.toZMod := by
  unfold sqrt? at h
  split at h
  · next hzero =>
    cases h
    rw [(isZero_iff a).mp hzero]
    exact zero_pow two_ne_zero
  · have hsqr := (Option.filter_eq_some_iff.mp h).2
    rw [decide_eq_true_iff, ← toZMod_inj, toZMod_sqr] at hsqr
    exact hsqr

/-- Modulo a prime that leaves three when divided by four, a root of every square is found. -/
theorem exists_sqrt?_eq_some (hprime : m.value.Prime) (hmod : m.value % 4 = 3) {a : Residue m}
    {b : ZMod m.value} (h : b ^ 2 = a.toZMod) : ∃ r, a.sqrt? = some r := by
  unfold sqrt?
  split
  · exact ⟨a, rfl⟩
  · next hzero =>
    have hb : b ≠ 0 := by
      rintro rfl
      rw [isZero_iff, ← h] at hzero
      exact hzero (zero_pow two_ne_zero)
    have : Fact m.value.Prime := ⟨hprime⟩
    have hfermat : b ^ (m.value - 1) = 1 := ZMod.pow_card_sub_one_eq_one hb
    have hroot : (a.pow ((m.value + 1) / 4)).sqr = a := by
      rw [← toZMod_inj, toZMod_sqr, toZMod_pow, ← h, ← pow_mul, ← pow_mul,
        show 2 * ((m.value + 1) / 4 * 2) = m.value - 1 + 2 by omega, pow_add, hfermat, one_mul]
    refine ⟨a.pow ((m.value + 1) / 4), ?_⟩
    exact Option.filter_eq_some_iff.mpr ⟨rfl, decide_eq_true hroot⟩

end Secp.Residue
