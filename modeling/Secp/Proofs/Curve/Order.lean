import Mathlib.Algebra.Module.ZMod
import Mathlib.FieldTheory.Finite.Basic
import Mathlib.GroupTheory.Perm.Cycle.Type
import Mathlib.GroupTheory.SpecificGroups.Cyclic
import Secp.Curve.Base
import Secp.Proofs.Curve.Coordinates

/-!
# The order of the group

Doubling and adding over the bits of a scalar gives the multiple, so it can be evaluated that the
generator taken `order` times is zero. The order is prime and divides the number of points, which is
at most twice the prime and one; that leaves the order and its double. The double would need a point
of order two, whose abscissa is a cube root of minus seven, and there is none. The group is
therefore cyclic, and a vector space over the integers modulo the order.
-/

namespace Secp.Curve

open WeierstrassCurve.Affine (Point)

/-- The run over the bits adds the multiple of the power to the sum. -/
theorem Jacobian.Denotes.addBits {sum power : Jacobian} {g h : PointGroup} (hsum : sum.Denotes g)
    (hpower : power.Denotes h) (k : Nat) : (Base.addBits sum power k).Denotes (g + k • h) := by
  fun_induction Base.addBits sum power k generalizing g h with
  | case1 sum power => rwa [zero_nsmul, add_zero]
  | case2 sum power k hk ih =>
    have hsplit : k • h = (k % 2) • h + (k / 2) • (h + h) := by
      rw [← two_nsmul, ← mul_nsmul', ← add_nsmul, Nat.mul_comm, Nat.mod_add_div]
    rw [hsplit, ← add_assoc]
    refine ih ?_ hpower.dbl
    split
    · next hodd =>
      rw [hodd, one_nsmul]
      exact hsum.add hpower
    · next heven =>
      rw [show k % 2 = 0 by omega, zero_nsmul, add_zero]
      exact hsum

/-- A multiple of the magnitude of a scalar, or its opposite where the scalar is negative. -/
theorem Affine.neg_of_sign {p : Affine} {g : PointGroup} {k : Int}
    (hp : p = .ofGroup (k.natAbs • g)) : (if k < 0 then p.neg else p) = .ofGroup (k • g) := by
  subst hp
  split
  · next hk =>
    rw [Affine.neg_ofGroup, ← natCast_zsmul, ← neg_zsmul, Int.ofNat_natAbs_of_nonpos hk.le, neg_neg]
  · next hk => rw [← natCast_zsmul, Int.natAbs_of_nonneg (not_lt.mp hk)]

/-- Doubling and adding gives the multiple. -/
theorem Base.mulBits_eq {b : Base} {g : PointGroup} (hb : b.point = .ofGroup g) (k : Int) :
    b.mulBits k = .ofGroup (k • g) := by
  apply Affine.neg_of_sign
  have hsum := Jacobian.denotes_infinity.addBits (Jacobian.denotes_ofAffine g) k.natAbs
  rw [zero_add, ← hb] at hsum
  exact hsum.toAffine

/-- The generator as an element of the group. -/
def generatorElement : PointGroup := Affine.generator.toGroup

/-- The generator is on the curve. -/
theorem onCurve_generator : Affine.generator.onCurve = true := by decide +kernel

/-- The generator is its element. -/
theorem ofGroup_generatorElement : .ofGroup generatorElement = Affine.generator :=
  Affine.ofGroup_toGroup onCurve_generator

/-- The generator is not zero. -/
theorem generatorElement_ne_zero : generatorElement ≠ 0 := by
  rw [ne_eq, ← Affine.isInfinity_ofGroup, ofGroup_generatorElement]
  exact Bool.false_ne_true

/-- The generator taken `order` times is zero. -/
theorem order_nsmul_generatorElement : order • generatorElement = 0 := by
  have hrun : (Base.plain .generator).mulBits order = .infinity := by decide +kernel
  rw [Base.mulBits_eq ofGroup_generatorElement.symm] at hrun
  rw [← natCast_zsmul, ← Affine.ofGroup_inj, hrun, Affine.ofGroup_zero]

/-- The order of the generator in the group. -/
theorem addOrderOf_generatorElement : addOrderOf generatorElement = order :=
  addOrderOf_eq_prime order_nsmul_generatorElement generatorElement_ne_zero

/-- Of an ordinate and its opposite one is odd, unless they are the same. -/
theorem isOdd_neg {y : Fp} (hy : y.toZMod ≠ 0) : (-y).isOdd = !y.isOdd := by
  have hlt := y.val_lt
  have hval : y.val ≠ 0 := by
    intro h
    rw [Residue.toZMod, h, Nat.cast_zero] at hy
    exact hy rfl
  have hneg : (-y).val = sparsePrime - y.val := if_neg hval
  have hodd : sparsePrime % 2 = 1 := by decide
  change y.val < sparsePrime at hlt
  rw [Residue.isOdd, Residue.isOdd, hneg, Bool.eq_iff_iff]
  simp only [beq_iff_eq, Bool.not_eq_true', beq_eq_false_iff_ne]
  omega

/-- An element by its abscissa and the parity of its ordinate. -/
def abscissaAndParity : PointGroup → Option (BaseField × Bool)
  | .zero => none
  | .some x y _ => some (x, (Residue.ofZMod y : Fp).isOdd)

/-- Ordinates of the same abscissa and parity are the same. -/
theorem ordinate_unique {x y y' : BaseField} (h : curve.Nonsingular x y)
    (h' : curve.Nonsingular x y')
    (hodd : (Residue.ofZMod y : Fp).isOdd = (Residue.ofZMod y' : Fp).isOdd) : y = y' := by
  have hsquare := (nonsingular_iff.mp h).trans (nonsingular_iff.mp h').symm
  rcases sq_eq_sq_iff_eq_or_eq_neg.mp hsquare with heq | hneg
  · exact heq
  · by_cases hy : y' = 0
    · rw [hneg, hy, neg_zero]
    · have hopp : (Residue.ofZMod y : Fp) = -Residue.ofZMod y' := by
        rw [← Residue.toZMod_inj, Residue.toZMod_neg, Residue.toZMod_ofZMod, Residue.toZMod_ofZMod,
          hneg]
      rw [hopp, isOdd_neg (by rwa [Residue.toZMod_ofZMod])] at hodd
      exact absurd hodd (Bool.not_ne_self _)

/-- Elements with the same abscissa and parity are the same. -/
theorem abscissaAndParity_injective : Function.Injective abscissaAndParity := by
  intro g g' heq
  cases g with
  | zero =>
    cases g' with
    | zero => rfl
    | some x' y' h' => cases heq
  | some x y h =>
    cases g' with
    | zero => cases heq
    | some x' y' h' =>
      obtain ⟨rfl, hodd⟩ := Prod.mk.inj (Option.some.inj heq)
      obtain rfl := ordinate_unique h h' hodd
      rfl

instance : Finite PointGroup := Finite.of_injective _ abscissaAndParity_injective

/-- There are at most two points for every abscissa, and infinity. -/
theorem card_pointGroup_le : Nat.card PointGroup ≤ 2 * sparsePrime + 1 := by
  have hle := Nat.card_le_card_of_injective _ abscissaAndParity_injective
  have hcard : Nat.card (Option (BaseField × Bool)) = sparsePrime * 2 + 1 := by
    rw [Finite.card_option, Nat.card_prod, Nat.card_zmod, Nat.card_eq_fintype_card,
      Fintype.card_bool]
    rfl
  omega

/-- A number has no root in the field of a degree that divides `p - 1`, unless the number raised to
the other part of `p - 1` is one. -/
theorem pow_ne_natCast {degree part n : Nat} (hsplit : sparsePrime - 1 = degree * part) (hn : n ≠ 0)
    (hlt : n < sparsePrime) (hpower : Number.powMod sparsePrime 256 n part ≠ 1) (x : BaseField) :
    x ^ degree ≠ n := by
  intro hx
  have hparts : degree * part ≠ 0 := by
    rw [← hsplit]
    decide
  have hbits : part < 2 ^ 256 := by
    have hle : part ≤ sparsePrime - 1 := by
      rw [hsplit]
      exact Nat.le_mul_of_pos_left part (Nat.pos_of_ne_zero (left_ne_zero_of_mul hparts))
    exact lt_of_le_of_lt hle (by decide)
  have hx₀ : x ≠ 0 := by
    rintro rfl
    apply natCast_ne_zero hn hlt
    rw [← hx, zero_pow (left_ne_zero_of_mul hparts)]
  have hone : x ^ (sparsePrime - 1) = 1 := ZMod.pow_card_sub_one_eq_one hx₀
  rw [hsplit, pow_mul, hx, Number.natCast_pow_eq_one_iff (by decide),
    ← Number.powMod_eq Modulus.sparse.value hbits] at hone
  exact hpower hone

/-- Minus seven has no cube root in the field. -/
theorem cube_ne_neg_seven (x : BaseField) : x ^ 3 ≠ -7 := by
  have hneg : ((sparsePrime - 7 : Nat) : BaseField) = -7 := by
    rw [Nat.cast_sub (by decide)]
    simp [show ((sparsePrime : Nat) : BaseField) = 0 from ZMod.natCast_self _]
  have hpower : Number.powMod sparsePrime 256 (sparsePrime - 7) ((sparsePrime - 1) / 3) ≠ 1 := by
    decide +kernel
  rw [← hneg]
  exact pow_ne_natCast (by decide) (by decide) (by decide) hpower x

/-- No point has order two. -/
theorem add_self_ne_zero {g : PointGroup} (hg : g ≠ 0) : g + g ≠ 0 := by
  cases g with
  | zero => exact absurd rfl hg
  | some x y h =>
    intro hsum
    have hneg : Point.some x y h = -Point.some x y h := eq_neg_of_add_eq_zero_left hsum
    rw [Point.neg_some] at hneg
    have hy : y = -y := by
      have := (Point.some.inj hneg).2
      simpa using this
    have hy₀ : y = 0 := by
      have htwo : (2 : BaseField) ≠ 0 := two_ne_zero
      apply mul_left_cancel₀ htwo
      linear_combination hy
    have heq := nonsingular_iff.mp h
    rw [hy₀] at heq
    exact cube_ne_neg_seven x (by linear_combination -heq)

/-- The group has as many elements as the order of its generator. -/
theorem card_pointGroup : Nat.card PointGroup = order := by
  have hdvd : order ∣ Nat.card PointGroup := by
    rw [← addOrderOf_generatorElement]
    exact addOrderOf_dvd_natCard generatorElement
  obtain ⟨c, hc⟩ := hdvd
  have hle := card_pointGroup_le
  have hpos : 0 < Nat.card PointGroup := Nat.card_pos
  have hlt : 2 * sparsePrime + 1 < order * 3 := by decide
  have hc₃ : c < 3 := Nat.lt_of_mul_lt_mul_left (a := order) (by omega)
  have hc₀ : c ≠ 0 := by
    rintro rfl
    omega
  have hc₂ : c ≠ 2 := by
    rintro rfl
    -- A group of even order has an element of order two.
    obtain ⟨g, hg⟩ := exists_prime_addOrderOf_dvd_card' 2 (Dvd.intro_left order hc.symm)
    have hne : g ≠ 0 := by
      rintro rfl
      rw [addOrderOf_zero] at hg
      contradiction
    apply add_self_ne_zero hne
    rw [← two_nsmul, ← hg]
    exact addOrderOf_nsmul_eq_zero g
  rw [hc, show c = 1 by omega, Nat.mul_one]

/-- Every element taken `order` times is zero. -/
theorem order_nsmul (g : PointGroup) : order • g = 0 := by
  rw [← card_pointGroup]
  exact card_nsmul_eq_zero'

/-- The integers modulo the order as scalars of the group. -/
instance : Module (ZMod order) PointGroup := AddCommGroup.zmodModule order_nsmul

/-- Every element is a multiple of the generator. -/
theorem exists_zsmul_generatorElement (g : PointGroup) : ∃ k : Int, k • generatorElement = g :=
  AddSubgroup.mem_zmultiples_iff.mp
    (mem_zmultiples_of_prime_card card_pointGroup generatorElement_ne_zero)

/-- Scalars that agree modulo the order give the same multiple. -/
theorem zsmul_eq_zsmul {k l : Int} (h : (k : ZMod order) = l) (g : PointGroup) : k • g = l • g := by
  rw [← Int.cast_smul_eq_zsmul (ZMod order), h, Int.cast_smul_eq_zsmul]

end Secp.Curve
