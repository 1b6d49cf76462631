import Secp.Proofs.Limbs.Columns
import Secp.Proofs.Limbs.Rows

/-!
# Products of magnitudes are exact

Whichever way the number of limbs selects, the product of two magnitudes denotes the product of
their numbers in canonical form, and so does the square.
-/

namespace Secp.Limbs

variable {a b : Limbs}

/-- The product of two magnitudes denotes the product of their numbers. -/
theorem toNat_mul (ha : Bounded a) (hb : Bounded b) : toNat (mul a b) = toNat a * toNat b := by
  fun_cases mul a b with
  | case1 => exact (Nat.zero_mul _).symm
  | case2 => exact (Nat.mul_zero _).symm
  | case3 x => rw [toNat_mulWord hb, Nat.mul_comm]; rfl
  | case4 a y => rw [toNat_mulWord ha]; rfl
  | case5 a b hne _ _ _ hlength => exact toNat_mulColumns ha hb hne hlength.1
  | case6 => exact toNat_mulRows ha hb

/-- The product of two canonical magnitudes is canonical. -/
theorem canonical_mul (ha : Canonical a) (hb : Canonical b) : Canonical (mul a b) := by
  fun_cases mul a b with
  | case1 | case2 => exact canonical_nil
  | case3 x => exact canonical_mulWord hb x
  | case4 a y => exact canonical_mulWord ha y
  | case5 a b hne _ _ _ hlength => exact canonical_mulColumns ha.1 hb.1 hne hlength.1
  | case6 => exact canonical_mulRows ha.1 hb.1

/-- The square of a magnitude that is short enough is its product by columns. -/
theorem sqr_eq (a : Limbs) :
    sqr a = if a = [] then [] else if columnLimit < a.length then mulRows a a
      else mulColumns a a := by
  unfold sqr mulColumns
  rw [funext (squareColumn_eq_column a), Nat.two_mul]

/-- The square of a magnitude denotes the square of its number. -/
theorem toNat_sqr (ha : Bounded a) : toNat (sqr a) = toNat a * toNat a := by
  rw [sqr_eq]
  split
  · next hnil => rw [hnil]; rfl
  · next hne =>
    split
    · exact toNat_mulRows ha ha
    · next hlength => exact toNat_mulColumns ha ha hne (Nat.le_of_not_lt hlength)

/-- The square of a magnitude is canonical. -/
theorem canonical_sqr (ha : Bounded a) : Canonical (sqr a) := by
  rw [sqr_eq]
  split
  · exact canonical_nil
  · next hne =>
    split
    · exact canonical_mulRows ha ha
    · next hlength => exact canonical_mulColumns ha ha hne (Nat.le_of_not_lt hlength)

end Secp.Limbs
