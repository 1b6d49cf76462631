import Mathlib.AlgebraicGeometry.EllipticCurve.Affine.Point
import Secp.Curve.Affine
import Secp.Proofs.Curve.Primes
import Secp.Proofs.Residue.Ring

/-!
# The group of the curve

The points of `y ^ 2 = x ^ 3 + 7` with coordinates in the prime field form a group under the
addition by chords and tangents. `Affine.ofGroup` writes an element of the group as an affine point
and `Affine.toGroup` reads one; they are inverse to each other between the group and the points that
`Affine.onCurve` accepts.
-/

namespace Secp.Curve

/-- The prime field, in which the coordinates of points are read. -/
abbrev BaseField : Type := ZMod Modulus.sparse.value

/-- The curve, with the coefficients of its equation. -/
def curve : WeierstrassCurve.Affine BaseField :=
  ⟨0, 0, 0, linearCoefficient.toZMod, constantTerm.toZMod⟩

/-- The group of the points of the curve. -/
abbrev PointGroup : Type := curve.Point

/-- A small number other than zero is not zero in the prime field. -/
theorem natCast_ne_zero {n : Nat} (hn : n ≠ 0) (hlt : n < sparsePrime) : (n : BaseField) ≠ 0 := by
  rw [ne_eq, ZMod.natCast_eq_zero_iff]
  exact Nat.not_dvd_of_pos_of_lt (Nat.pos_of_ne_zero hn) hlt

instance : NeZero (2 : BaseField) := ⟨natCast_ne_zero (by decide : 2 ≠ 0) (by decide)⟩

@[simp] theorem curve_a₁ : curve.a₁ = 0 := rfl

@[simp] theorem curve_a₂ : curve.a₂ = 0 := rfl

@[simp] theorem curve_a₃ : curve.a₃ = 0 := rfl

@[simp] theorem curve_a₄ : curve.a₄ = 0 := Residue.toZMod_zero

@[simp] theorem curve_a₆ : curve.a₆ = 7 := Residue.toZMod_ofNat 7

/-- The points of the curve are the solutions of its equation. -/
theorem equation_iff {x y : BaseField} : curve.Equation x y ↔ y ^ 2 = x ^ 3 + 7 := by
  simp [WeierstrassCurve.Affine.equation_iff]

/-- The curve is smooth. -/
theorem discriminant_ne_zero : curve.Δ ≠ 0 := by
  have hvalue : curve.Δ = -((21168 : Nat) : BaseField) := by
    simp only [WeierstrassCurve.Δ, WeierstrassCurve.b₂, WeierstrassCurve.b₄, WeierstrassCurve.b₆,
      WeierstrassCurve.b₈, curve_a₁, curve_a₂, curve_a₃, curve_a₄, curve_a₆]
    norm_num
  rw [hvalue, neg_ne_zero]
  exact natCast_ne_zero (by decide) (by decide)

/-- Every solution of the equation is a point of the group. -/
theorem nonsingular_iff {x y : BaseField} : curve.Nonsingular x y ↔ y ^ 2 = x ^ 3 + 7 := by
  rw [← curve.equation_iff_nonsingular_of_Δ_ne_zero discriminant_ne_zero, equation_iff]

namespace Affine

/-- The right-hand side of the equation in the field. -/
theorem toZMod_cubic (x : Fp) : (cubic x).toZMod = x.toZMod ^ 3 + 7 := by
  have hconstant : constantTerm.toZMod = 7 := curve_a₆
  rw [cubic, Residue.toZMod_add, Residue.toZMod_mul, Residue.toZMod_sqr, hconstant, ← pow_succ]

/-- A finite point is on the curve when its coordinates solve the equation. -/
theorem onCurve_finite_iff {x y : Fp} :
    (finite x y).onCurve = true ↔ curve.Nonsingular x.toZMod y.toZMod := by
  rw [onCurve, decide_eq_true_iff, ← Residue.toZMod_inj, Residue.toZMod_sqr, toZMod_cubic,
    nonsingular_iff]

/-- An element of the group as an affine point. -/
def ofGroup : PointGroup → Affine
  | .zero => infinity
  | .some x y _ => finite (.ofZMod x) (.ofZMod y)

/-- The element of the group that an affine point stands for, and zero for a pair off the
curve. -/
def toGroup : Affine → PointGroup
  | infinity => 0
  | finite x y => if h : (finite x y).onCurve then .some _ _ (onCurve_finite_iff.mp h) else 0

/-- Zero is infinity. -/
@[simp] theorem ofGroup_zero : ofGroup 0 = infinity := rfl

/-- Infinity is zero. -/
@[simp] theorem toGroup_infinity : toGroup infinity = 0 := rfl

/-- A finite point of the curve stands for the element with its coordinates. -/
theorem toGroup_finite {x y : Fp} (h : curve.Nonsingular x.toZMod y.toZMod) :
    toGroup (finite x y) = .some _ _ h := dif_pos (onCurve_finite_iff.mpr h)

/-- The points of the group are on the curve. -/
@[simp] theorem onCurve_ofGroup (g : PointGroup) : (ofGroup g).onCurve = true := by
  cases g with
  | zero => rfl
  | some x y h =>
    apply onCurve_finite_iff.mpr
    rwa [Residue.toZMod_ofZMod, Residue.toZMod_ofZMod]

/-- Reading back what was written gives the element. -/
@[simp] theorem toGroup_ofGroup (g : PointGroup) : toGroup (ofGroup g) = g := by
  cases g with
  | zero => rfl
  | some x y h =>
    rw [ofGroup, toGroup_finite (by rwa [Residue.toZMod_ofZMod, Residue.toZMod_ofZMod])]
    congr 1 <;> exact Residue.toZMod_ofZMod _

/-- Writing what was read from a point of the curve gives the point. -/
theorem ofGroup_toGroup {p : Affine} (h : p.onCurve = true) : ofGroup p.toGroup = p := by
  cases p with
  | infinity => rfl
  | finite x y =>
    rw [toGroup_finite (onCurve_finite_iff.mp h), ofGroup, Residue.ofZMod_toZMod,
      Residue.ofZMod_toZMod]

/-- The points on the curve are those of the group. -/
theorem onCurve_iff_exists {p : Affine} : p.onCurve = true ↔ ∃ g, p = ofGroup g := by
  constructor
  · intro h
    exact ⟨p.toGroup, (ofGroup_toGroup h).symm⟩
  · rintro ⟨g, rfl⟩
    exact onCurve_ofGroup g

/-- Different elements are different points. -/
theorem ofGroup_inj {g h : PointGroup} : ofGroup g = ofGroup h ↔ g = h :=
  ⟨fun he ↦ by rw [← toGroup_ofGroup g, he, toGroup_ofGroup], congrArg ofGroup⟩

/-- The only element at infinity is zero. -/
@[simp] theorem isInfinity_ofGroup (g : PointGroup) : (ofGroup g).isInfinity = true ↔ g = 0 := by
  cases g with
  | zero => exact ⟨fun _ ↦ rfl, fun _ ↦ rfl⟩
  | some x y h => simp [ofGroup, isInfinity]

/-- The ordinate of the opposite element is the opposite ordinate. -/
theorem ofZMod_negY (x y : BaseField) :
    (Residue.ofZMod (curve.negY x y) : Fp) = -Residue.ofZMod y := by
  rw [← Residue.toZMod_inj, Residue.toZMod_neg, Residue.toZMod_ofZMod, Residue.toZMod_ofZMod]
  simp

/-- The opposite point is the opposite element. -/
@[simp] theorem neg_ofGroup (g : PointGroup) : (ofGroup g).neg = ofGroup (-g) := by
  cases g with
  | zero => rfl
  | some x y h =>
    rw [WeierstrassCurve.Affine.Point.neg_some, ofGroup, ofGroup, neg, ofZMod_negY]

end Affine

end Secp.Curve
