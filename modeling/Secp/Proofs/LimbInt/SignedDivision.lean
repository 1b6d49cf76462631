import Mathlib.Algebra.Order.Round
import Mathlib.Data.Rat.Floor
import Secp.Proofs.LimbInt.Quotient
import Secp.Proofs.Number.Rounding

/-!
# Division of integers of any signs

The truncated remainder is below the divisor in magnitude and on the side of the dividend, the least
remainder lies between zero and the divisor. The rounded quotient is the floor of the exact quotient
and a half: no integer is nearer, and of two that are equally near it is the greater one.
-/

namespace Secp

namespace Number

/-- The residue of a quotient tells how far it is from the exact one. -/
theorem div_eq_add_residue (n q : Int) {d : Int} (hd : d ≠ 0) :
    (n : ℚ) / d = q + residue n d q / |(d : ℚ)| := by
  have hne : (d : ℚ) ≠ 0 := Int.cast_ne_zero.mpr hd
  have hmagnitude : (d : ℚ) * (d.sign : ℚ) = |(d : ℚ)| := by
    rw [← Int.cast_mul, Int.mul_sign_self, Int.natCast_natAbs, Int.cast_abs]
  rw [residue, ← sub_eq_iff_eq_add', div_sub' hne, div_eq_div_iff hne (abs_ne_zero.mpr hne),
    ← hmagnitude]
  push_cast
  ring

/-- The rounded quotient is the floor of the exact quotient and a half. -/
theorem divRound_eq_floor (n : Int) {d : Int} (hd : d ≠ 0) :
    divRound n d = ⌊(n : ℚ) / d + 1 / 2⌋ := by
  obtain ⟨hlower, hupper⟩ := residue_divRound n hd
  rw [Int.natCast_natAbs] at hlower hupper
  have hpos : 0 < |(d : ℚ)| := abs_pos.mpr (Int.cast_ne_zero.mpr hd)
  have hlow : -(1 / 2) ≤ (residue n d (divRound n d) : ℚ) / |(d : ℚ)| := by
    have : -|(d : ℚ)| ≤ 2 * residue n d (divRound n d) := by exact_mod_cast hlower
    rw [le_div_iff₀ hpos]
    linarith
  have hhigh : (residue n d (divRound n d) : ℚ) / |(d : ℚ)| < 1 / 2 := by
    have : 2 * (residue n d (divRound n d) : ℚ) < |(d : ℚ)| := by exact_mod_cast hupper
    rw [div_lt_iff₀ hpos]
    linarith
  rw [eq_comm, Int.floor_eq_iff, div_eq_add_residue n (divRound n d) hd]
  constructor <;> linarith

end Number

namespace LimbInt

/-- The truncated remainder is smaller than the divisor. -/
theorem abs_tmod_lt (x : Int) {d : Int} (hd : d ≠ 0) : |x.tmod d| < |d| := by
  rw [Int.abs_eq_natAbs, Int.abs_eq_natAbs, Int.natAbs_tmod]
  exact Int.ofNat_lt.mpr (Nat.mod_lt _ (Int.natAbs_pos.mpr hd))

/-- The truncated remainder is zero or has the sign of the dividend. -/
theorem tmod_eq_zero_or_sign_eq (x d : Int) : x.tmod d = 0 ∨ (x.tmod d).sign = x.sign := by
  rw [← Int.sign_eq_zero_iff_zero, Int.sign_tmod]
  split
  · exact .inl rfl
  · exact .inr rfl

/-- Division by an integer that is not zero, whatever the signs are, truncates the quotient toward
zero and leaves a remainder smaller than the divisor that is zero or has the sign of the dividend;
the least remainder is the representative between zero and the divisor; and the rounded quotient is
the floor of the exact one and a half, which is the nearest integer, an exact half rounded up, and
off by at most half of the divisor. -/
theorem division_of_signed_exact (x : Int) {d : Int} (hd : d ≠ 0) :
    (∃ q r, (ofInt x).divRem (ofInt d) = .ok (ofInt q, ofInt r) ∧
      q = x.tdiv d ∧ x = q * d + r ∧ |r| < |d| ∧ (r = 0 ∨ r.sign = x.sign)) ∧
    (∃ r, (ofInt x).umod (ofInt d) = .ok (ofInt r) ∧ 0 ≤ r ∧ r < |d| ∧ d ∣ x - r) ∧
    (∃ q, (ofInt x).divRound (ofInt d) = .ok (ofInt q) ∧
      q = ⌊(x : ℚ) / d + 1 / 2⌋ ∧ (∀ k : Int, |(x : ℚ) / d - q| ≤ |(x : ℚ) / d - k|) ∧
      2 * |x - d * q| ≤ |d|) := by
  have hx := denotes_ofInt x
  have hdenotes := denotes_ofInt d
  refine ⟨⟨x.tdiv d, x.tmod d, ?_, rfl, (Int.tdiv_mul_add_tmod x d).symm, abs_tmod_lt x hd,
      tmod_eq_zero_or_sign_eq x d⟩,
    ⟨x % d, ?_, Int.emod_nonneg x hd, Int.emod_lt_abs x hd, Int.dvd_self_sub_emod⟩,
    ⟨Number.divRound x d, ?_, Number.divRound_eq_floor x hd, fun k ↦ ?_, ?_⟩⟩
  · exact (hx.divRem_eq_ok_iff hdenotes).mpr ⟨hd, denotes_ofInt _, denotes_ofInt _⟩
  · exact (hx.umod_eq_ok_iff hdenotes).mpr ⟨hd, denotes_ofInt _⟩
  · exact (hx.divRound_eq_ok_iff hdenotes).mpr ⟨hd, denotes_ofInt _⟩
  · rw [Number.divRound_eq_floor x hd, ← round_eq]
    exact round_le _ k
  · rw [Int.abs_eq_natAbs, Int.abs_eq_natAbs]
    exact_mod_cast Number.two_mul_natAbs_sub_le x hd

/-- An exact half between negative integers is rounded up. -/
theorem division_of_signed_exact_half :
    (-2 : Int) ≠ 0 ∧ (ofInt 5).divRound (ofInt (-2)) = .ok (ofInt (-2)) := by
  have hne : (-2 : Int) ≠ 0 := by decide
  obtain ⟨-, -, q, hround, hfloor, -⟩ := division_of_signed_exact 5 hne
  have hq : q = -2 := by
    rw [hfloor]
    norm_num
  exact ⟨hne, hq ▸ hround⟩

end LimbInt

end Secp
