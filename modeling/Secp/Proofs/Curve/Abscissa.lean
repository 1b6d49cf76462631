import Secp.Proofs.Curve.Order
import Secp.Proofs.Outcome
import Secp.Proofs.Residue.SquareRoot

/-!
# Points by their abscissas

The point with a given abscissa and parity is found whenever there is one. No point of the curve has
ordinate zero, so the two points of an abscissa have ordinates of different parity, and the one that
is asked for is the one that is found.
-/

namespace Secp.Curve

namespace Affine

/-- No point of the curve has ordinate zero. -/
theorem ordinate_ne_zero {x y : BaseField} (h : curve.Nonsingular x y) : y ≠ 0 := by
  rintro rfl
  have heq := nonsingular_iff.mp h
  exact cube_ne_neg_seven x (by linear_combination -heq)

/-- Coordinates are accepted from zero up to the prime. -/
theorem coordinate_eq_ok_iff {v : Int} {x : Fp} :
    coordinate v = .ok x ↔ (0 ≤ v ∧ v < sparsePrime) ∧ x = .ofInt v := by
  unfold coordinate
  split
  · next h =>
    refine ⟨nofun, ?_⟩
    rintro ⟨hv, -⟩
    omega
  · next h =>
    constructor
    · intro heq
      cases heq
      exact ⟨by omega, rfl⟩
    · rintro ⟨-, rfl⟩
      rfl

/-- Of a root and its opposite, the one with the parity asked for is an ordinate too. -/
theorem nonsingular_withParity {x : BaseField} {y : Fp} (h : curve.Nonsingular x y.toZMod)
    (odd : Bool) :
    curve.Nonsingular x (if y.isOdd = odd then y else -y).toZMod ∧
      (if y.isOdd = odd then y else -y).isOdd = odd := by
  split
  · next hodd => exact ⟨h, hodd⟩
  · next hodd =>
    constructor
    · rw [nonsingular_iff] at h ⊢
      rw [Residue.toZMod_neg, neg_sq, h]
    · rw [isOdd_neg (ordinate_ne_zero h)]
      exact Bool.not_eq.mpr hodd

/-- A root of the equation's right-hand side is an ordinate. -/
theorem nonsingular_of_sqrt? {x y : Fp} (h : (cubic x).sqrt? = some y) :
    curve.Nonsingular x.toZMod y.toZMod := by
  rw [nonsingular_iff, Residue.sq_of_sqrt? h, toZMod_cubic]

/-- A point is found from an accepted coordinate and a root. -/
theorem ofAbscissa_eq_ok_iff_root {v : Int} {odd : Bool} {p : Affine} :
    ofAbscissa v odd = .ok p ↔
      ∃ x y, coordinate v = .ok x ∧ (cubic x).sqrt? = some y ∧
        p = finite x (if y.isOdd = odd then y else -y) := by
  unfold ofAbscissa
  rw [bind_eq_ok_iff]
  refine exists_congr fun x ↦ ?_
  cases hy : (cubic x).sqrt? with
  | none => simp
  | some y => simp [eq_comm]

/-- The point with a given abscissa and parity is found exactly when there is one. -/
theorem ofAbscissa_eq_ok_iff {v : Int} {odd : Bool} {p : Affine} :
    ofAbscissa v odd = .ok p ↔
      (0 ≤ v ∧ v < sparsePrime) ∧
        ∃ g, p = ofGroup g ∧ abscissaAndParity g = some ((v : BaseField), odd) := by
  rw [ofAbscissa_eq_ok_iff_root]
  constructor
  · rintro ⟨x, y, hx, hy, rfl⟩
    obtain ⟨hrange, rfl⟩ := coordinate_eq_ok_iff.mp hx
    obtain ⟨hpoint, hodd⟩ := nonsingular_withParity (nonsingular_of_sqrt? hy) odd
    refine ⟨hrange, .some _ _ hpoint, ?_, ?_⟩
    · rw [ofGroup, Residue.ofZMod_toZMod, Residue.ofZMod_toZMod]
    · rw [abscissaAndParity, Residue.ofZMod_toZMod, hodd, Residue.toZMod_ofInt]
  · rintro ⟨hrange, g, rfl, hg⟩
    cases g with
    | zero => cases hg
    | some x y h =>
      obtain ⟨rfl, hodd⟩ := Prod.mk.inj (Option.some.inj hg)
      have hroot : y ^ 2 = (cubic (.ofInt v)).toZMod := by
        rw [toZMod_cubic, Residue.toZMod_ofInt]
        exact nonsingular_iff.mp h
      obtain ⟨r, hr⟩ := Residue.exists_sqrt?_eq_some prime_sparsePrime (by decide) hroot
      obtain ⟨hpoint, hparity⟩ := nonsingular_withParity (nonsingular_of_sqrt? hr) odd
      rw [Residue.toZMod_ofInt] at hpoint
      have hy := ordinate_unique h hpoint (by rw [hodd, Residue.ofZMod_toZMod, hparity])
      refine ⟨_, r, coordinate_eq_ok_iff.mpr ⟨hrange, rfl⟩, hr, ?_⟩
      rw [ofGroup, hy, Residue.ofZMod_toZMod, ← Residue.toZMod_ofInt, Residue.ofZMod_toZMod]

/-- Where no point is found the coordinate is refused or there is no root, with one refusal for
both. -/
theorem eq_of_ofAbscissa_eq_error {v : Int} {odd : Bool} {fault : Error}
    (h : ofAbscissa v odd = .error fault) : fault = .invalidPoint := by
  rcases bind_eq_error_iff.mp h with hcoordinate | ⟨x, -, hroot⟩
  · unfold coordinate at hcoordinate
    split at hcoordinate <;> cases hcoordinate
    rfl
  · cases hy : (cubic x).sqrt? with
    | none =>
      rw [hy] at hroot
      cases hroot
      rfl
    | some y =>
      rw [hy] at hroot
      cases hroot

end Affine

/-- The opposite element has the same abscissa and the other parity. -/
theorem abscissaAndParity_neg (g : PointGroup) :
    abscissaAndParity (-g) = (abscissaAndParity g).map fun (x, odd) ↦ (x, !odd) := by
  cases g with
  | zero => rfl
  | some x y h =>
    have hy : (Residue.ofZMod y : Fp).toZMod ≠ 0 := by
      rw [Residue.toZMod_ofZMod]
      exact Affine.ordinate_ne_zero h
    rw [WeierstrassCurve.Affine.Point.neg_some, abscissaAndParity, abscissaAndParity,
      Affine.ofZMod_negY, isOdd_neg hy]
    rfl

end Secp.Curve
