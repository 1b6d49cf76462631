import Mathlib.Tactic.Ring
import Secp.Number.Rounding

/-!
# How far a rounded quotient is off

The truncated quotient and its remainder give the floor and a remainder in `[0, |d|)`, measured in
the direction of the divisor, whichever signs the operands have. Rounding the floor up where that
remainder reaches half the divisor leaves a residue in `[-|d| / 2, |d| / 2)` in the same direction:
an exact half is rounded upwards.
-/

namespace Secp.Number

/-- What is left of the dividend, counted in the direction of the divisor. -/
def residue (n d q : Int) : Int := d.sign * (n - d * q)

/-- One more in the quotient takes the divisor's magnitude off the residue. -/
theorem residue_add_one (n d q : Int) : residue n d (q + 1) = residue n d q - d.natAbs := by
  rw [residue, residue, ← Int.sign_mul_self_eq_natAbs d]
  ring

/-- The truncated remainder of a negative number is not positive. -/
private theorem tmod_nonpos {n : Int} (hn : n < 0) (d : Int) : n.tmod d ≤ 0 := by
  have hopposite := Int.tmod_nonneg (a := -n) d (by omega)
  rw [Int.neg_tmod] at hopposite
  omega

/-- The truncated quotient leaves the remainder, against the divisor's direction where the operands
have opposite signs. -/
theorem residue_tdiv {n d : Int} (hd : d ≠ 0) :
    residue n d (n.tdiv d) =
      if (decide (n < 0) != decide (d < 0)) = true then -((n.tmod d).natAbs : Int)
      else (n.tmod d).natAbs := by
  have hsplit : n - d * n.tdiv d = n.tmod d := by
    have := Int.mul_tdiv_add_tmod n d
    omega
  have hnonpos : n < 0 → n.tmod d ≤ 0 := fun hn ↦ tmod_nonpos hn d
  have hnonneg : 0 ≤ n → 0 ≤ n.tmod d := Int.tmod_nonneg d
  rw [residue, hsplit]
  simp only [bne_iff_ne, ne_eq, decide_eq_decide]
  rcases Int.lt_or_gt_of_ne hd with hneg | hpos
  · rw [Int.sign_eq_neg_one_of_neg hneg]
    split <;> omega
  · rw [Int.sign_eq_one_of_pos hpos]
    split <;> omega

/-- The rounded quotient leaves at most half the divisor's magnitude, and half of it only below. -/
theorem residue_divRound (n : Int) {d : Int} (hd : d ≠ 0) :
    -(d.natAbs : Int) ≤ 2 * residue n d (divRound n d) ∧
      2 * residue n d (divRound n d) < d.natAbs := by
  have hpos := Int.natAbs_pos.mpr hd
  have htruncated := residue_tdiv (n := n) hd
  have hlt : (n.tmod d).natAbs < d.natAbs := by
    rw [Int.natAbs_tmod]
    exact Nat.mod_lt _ hpos
  unfold divRound
  dsimp only
  split
  · next hzero =>
    rw [htruncated, hzero]
    simp only [Int.natAbs_zero, Int.natCast_zero, Int.neg_zero, ite_self]
    omega
  · next hrest =>
    have hne : (n.tmod d).natAbs ≠ 0 := Int.natAbs_ne_zero.mpr hrest
    generalize (decide (n < 0) != decide (d < 0)) = opposite at htruncated ⊢
    cases opposite with
    | false =>
      simp only [Bool.false_eq_true, if_false] at htruncated ⊢
      split
      · omega
      · rw [residue_add_one]
        omega
    | true =>
      simp only [if_true] at htruncated ⊢
      have hfloor := residue_add_one n d (n.tdiv d - 1)
      rw [Int.sub_add_cancel] at hfloor
      split
      · omega
      · rw [Int.sub_add_cancel]
        omega

/-- A rounded quotient is off by at most half of the divisor. -/
theorem two_mul_natAbs_sub_le (n : Int) {d : Int} (hd : d ≠ 0) :
    2 * (n - d * divRound n d).natAbs ≤ d.natAbs := by
  obtain ⟨hlower, hupper⟩ := residue_divRound n hd
  have hmagnitude : (residue n d (divRound n d)).natAbs = (n - d * divRound n d).natAbs := by
    rw [residue, Int.natAbs_mul, Int.natAbs_sign_of_ne_zero hd, Nat.one_mul]
  omega

example : divRound (-5) 2 = -2 ∧ divRound 5 2 = 3 ∧ divRound 5 (-2) = -2 := by decide

end Secp.Number
