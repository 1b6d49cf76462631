import Secp.Proofs.Curve.Order
import Secp.Proofs.LimbInt.Bits

/-!
# The cofactor is one

The group has as many elements as the order of its generator, and that order is prime, so every
finite point of the curve has it. The test of a point's order therefore accepts every pair of
coordinates that solves the equation, and nothing else: the multiple that it takes is infinity
whenever it is taken.

The multiple is also run through by place, over the bits that are read off the limbs of a scalar.
The power of the point is then not doubled after the last bit. The result is the same for every
scalar and every point, on the curve or not.
-/

namespace Secp.Curve

open Number (bitLength)

namespace ByPlace

/-- Pass the bit at a place: a set bit adds the power to the sum, and the power is doubled if more
bits follow. -/
def passBit (bit : Nat → Bool) (length : Nat) (run : Jacobian × Jacobian) (place : Nat) :
    Jacobian × Jacobian :=
  (if bit place then run.1.add run.2 else run.1, if place + 1 < length then run.2.dbl else run.2)

/-- The multiple by doubling and adding over the bits of a scalar's magnitude. -/
def mulBits (p : Affine) (k : LimbInt) : Affine :=
  if k.isZero || p.isInfinity then .infinity
  else
    let run := (List.range k.bitLength).foldl (passBit k.testBit k.bitLength)
      (.infinity, .ofAffine p)
    if k.negative then run.1.toAffine.neg else run.1.toAffine

/-- A number other than zero has one bit more than its half. -/
theorem bitLength_of_ne_zero {n : Nat} (hn : n ≠ 0) : bitLength n = bitLength (n / 2) + 1 := by
  rw [bitLength, if_neg hn, Nat.log2_def]
  by_cases htwo : 2 ≤ n
  · rw [if_pos htwo, bitLength, if_neg (by omega)]
  · rw [if_neg htwo, show n / 2 = 0 by omega]
    rfl

/-- Behind its first place a number has the bits of its half. -/
theorem passBit_succ (n : Nat) :
    (fun run place ↦ passBit n.testBit (bitLength (n / 2) + 1) run (place + 1)) =
      passBit (n / 2).testBit (bitLength (n / 2)) := by
  funext run place
  simp only [passBit, Nat.testBit_succ, Nat.add_lt_add_iff_right]

/-- Passing every bit of a number gives the sum that halving it again and again does. -/
theorem foldl_passBit (n : Nat) (sum power : Jacobian) :
    ((List.range (bitLength n)).foldl (passBit n.testBit (bitLength n)) (sum, power)).1 =
      Base.addBits sum power n := by
  fun_induction Base.addBits sum power n with
  | case1 sum power => rfl
  | case2 sum power n hn ih =>
    rw [bitLength_of_ne_zero hn, List.range_succ_eq_map, List.foldl_cons, List.foldl_map,
      passBit_succ]
    have hfirst : passBit n.testBit (bitLength (n / 2) + 1) (sum, power) 0 =
        (if n % 2 = 1 then sum.add power else sum,
          if 0 < bitLength (n / 2) then power.dbl else power) := by
      simp [passBit, Nat.testBit_zero]
    rw [hfirst]
    by_cases hhalf : n / 2 = 0
    · -- The power behind the last bit is not added any more.
      rw [hhalf, Base.addBits, dif_pos rfl]
      rfl
    · have hlength : 0 < bitLength (n / 2) := by
        rw [bitLength_of_ne_zero hhalf]
        exact Nat.succ_pos _
      rw [if_pos hlength]
      simpa using ih

/-- A multiple that is not run through is infinity. -/
theorem mulBits_of_trivial {p : Affine} {x : Int} (h : x = 0 ∨ p.isInfinity = true) :
    (Base.plain p).mulBits x = .infinity := by
  rcases h with rfl | hinfinity
  · have hsum : Base.addBits .infinity (.ofAffine p) 0 = .infinity := by
      rw [Base.addBits, dif_pos rfl]
    have hneutral : Jacobian.infinity.toAffine = .infinity :=
      Jacobian.toAffine_of_eq_zero Residue.toZMod_zero
    simp [Base.mulBits, Base.plain, hsum, hneutral]
  · cases p with
    | finite u v => cases hinfinity
    | infinity =>
      rw [Base.mulBits_eq (b := .plain .infinity) Affine.ofGroup_zero.symm, zsmul_zero,
        Affine.ofGroup_zero]

/-- The run over the bits of the limbs gives the multiple, on the curve or not. -/
theorem mulBits_eq (p : Affine) {k : LimbInt} {x : Int} (hk : k.Denotes x) :
    mulBits p k = (Base.plain p).mulBits x := by
  have hbits : k.testBit = x.natAbs.testBit := funext hk.testBit_eq
  by_cases htrivial : x = 0 ∨ p.isInfinity = true
  · rw [mulBits_of_trivial htrivial, mulBits, if_pos]
    rwa [Bool.or_eq_true, hk.isZero_iff]
  · rw [mulBits, if_neg (by rwa [Bool.or_eq_true, hk.isZero_iff]), hk.negative_eq, hk.bitLength_eq,
      hbits]
    simp only [foldl_passBit, decide_eq_true_eq]
    rfl

end ByPlace

/-- Every element but zero has the order of the generator. -/
theorem addOrderOf_eq {g : PointGroup} (hg : g ≠ 0) : addOrderOf g = order :=
  addOrderOf_eq_prime (order_nsmul g) hg

/-- A multiple of an element other than zero is zero for the multiples of the order alone. -/
theorem zsmul_eq_zero_iff {g : PointGroup} (hg : g ≠ 0) {k : Int} :
    k • g = 0 ↔ (order : Int) ∣ k := by
  rw [← addOrderOf_eq hg, addOrderOf_dvd_iff_zsmul_eq_zero]

namespace Affine

/-- A pair of coordinates is on the curve when their representatives solve the equation modulo the
prime. -/
theorem onCurve_iff_modEq {x y : Fp} :
    (finite x y).onCurve = true ↔ y.val ^ 2 ≡ x.val ^ 3 + 7 [MOD sparsePrime] := by
  rw [onCurve_finite_iff, nonsingular_iff, ← ZMod.natCast_eq_natCast_iff]
  push_cast
  exact Iff.rfl

/-- A multiple of a point of the curve is infinity where the point is, and otherwise for the
multiples of the order alone. -/
theorem mulBits_eq_infinity_iff {p : Affine} (hp : p.onCurve = true) {k : Int} :
    (Base.plain p).mulBits k = infinity ↔ p.isInfinity = true ∨ (order : Int) ∣ k := by
  obtain ⟨g, rfl⟩ := onCurve_iff_exists.mp hp
  rw [Base.mulBits_eq (b := .plain (ofGroup g)) rfl, ← ofGroup_zero, ofGroup_inj,
    isInfinity_ofGroup]
  by_cases hg : g = 0
  · simp [hg, zsmul_zero]
  · simp [hg, zsmul_eq_zero_iff]

/-- The order of a point is tested by its equation alone. -/
theorem hasOrder_iff {p : Affine} :
    p.hasOrder = true ↔ p.isInfinity = false ∧ p.onCurve = true := by
  simp only [hasOrder, Bool.and_eq_true, Bool.not_eq_true']
  refine and_iff_left_of_imp ?_
  rintro ⟨-, hp⟩
  rw [(mulBits_eq_infinity_iff hp).mpr (.inr (Int.dvd_refl _))]
  rfl

/-- The cofactor is one. The test of the order accepts a pair of coordinates exactly when it solves
the equation of the curve, and it refuses infinity. The `order`-fold of every point of the curve is
infinity, however its bits are run through; only the multiples of the order take a finite point of
the curve there, so that every element of the group but zero has that order. -/
theorem cofactor_one :
    (∀ p : Affine, p.hasOrder = true ↔ p.isInfinity = false ∧ p.onCurve = true) ∧
      (∀ x y : Fp, (finite x y).hasOrder = true ↔ y.val ^ 2 ≡ x.val ^ 3 + 7 [MOD sparsePrime]) ∧
      (∀ p : Affine, p.onCurve = true →
        ByPlace.mulBits p (.ofInt order) = infinity ∧
          ∀ k : Int, (Base.plain p).mulBits k = infinity ↔
            p.isInfinity = true ∨ (order : Int) ∣ k) ∧
      (∀ (p : Affine) (k : Int), ByPlace.mulBits p (.ofInt k) = (Base.plain p).mulBits k) ∧
      ∀ g : PointGroup, addOrderOf g = if g = 0 then 1 else order := by
  have hplaces (p : Affine) (k : Int) :
      ByPlace.mulBits p (.ofInt k) = (Base.plain p).mulBits k :=
    ByPlace.mulBits_eq p (LimbInt.denotes_ofInt k)
  refine ⟨fun p ↦ hasOrder_iff, ?_, ?_, hplaces, ?_⟩
  · intro x y
    rw [hasOrder_iff, onCurve_iff_modEq]
    exact and_iff_right rfl
  · intro p hp
    refine ⟨?_, fun k ↦ mulBits_eq_infinity_iff hp⟩
    rw [hplaces, mulBits_eq_infinity_iff hp]
    exact .inr (Int.dvd_refl _)
  · intro g
    split
    · next hg => rw [hg, addOrderOf_zero]
    · next hg => exact addOrderOf_eq hg

/-- The point of the curve with abscissa one and an even ordinate. -/
def ofUnitAbscissa : Affine :=
  ofResidues 1 0x4218F20AE6C646B363DB68605822FB14264CA8D2587FDD6FBC750D587E76A7EE

/-- The point with abscissa one has the order, and the pair of fourteen and sixteen, which is not on
the curve, does not. -/
theorem cofactor_one_unit_abscissa :
    ofUnitAbscissa.onCurve = true ∧ ofUnitAbscissa.hasOrder = true ∧
      ByPlace.mulBits ofUnitAbscissa (.ofInt order) = infinity ∧
      (ofResidues 14 16).hasOrder = false := by
  have hcurve : ofUnitAbscissa.onCurve = true := by decide +kernel
  have hpair : (ofResidues 14 16).onCurve = false := by decide +kernel
  obtain ⟨htest, -, hmultiple, -⟩ := cofactor_one
  refine ⟨hcurve, (htest _).mpr ⟨rfl, hcurve⟩, (hmultiple _ hcurve).1, ?_⟩
  rw [← Bool.not_eq_true, htest, hpair]
  exact fun h ↦ Bool.false_ne_true h.2

end Affine

end Secp.Curve
