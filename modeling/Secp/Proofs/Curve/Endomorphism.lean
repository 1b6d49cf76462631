import Secp.Curve.Splitting
import Secp.Proofs.Curve.Order

/-!
# The endomorphism multiplies by `lambda`

Multiplying abscissas by the cube root of one `beta` is a homomorphism of the group: it takes the
slope of a chord or a tangent to `beta ^ 2` times the slope. It takes the generator to `lambda`
times the generator, of which every element is a multiple, so it takes every element to `lambda`
times itself. A scalar split in two therefore gives the same multiple in two shorter terms.
-/

namespace Secp.Curve

open WeierstrassCurve.Affine (Point)

/-- `beta` is a cube root of one. -/
theorem beta_cube : beta.toZMod ^ 3 = 1 := by
  have hcube : beta.sqr * beta = Residue.one := by decide +kernel
  rw [← Residue.toZMod_inj, Residue.toZMod_mul, Residue.toZMod_sqr, Residue.toZMod_one] at hcube
  rwa [pow_succ]

private theorem beta_ne_zero : beta.toZMod ≠ 0 := by
  intro h
  have hcube := beta_cube
  rw [h] at hcube
  simp at hcube

/-- Multiplying the abscissa by `beta` stays on the curve. -/
theorem nonsingular_beta {x y : BaseField} (h : curve.Nonsingular x y) :
    curve.Nonsingular (x * beta.toZMod) y := by
  rw [nonsingular_iff] at h ⊢
  rw [mul_pow, beta_cube, mul_one, h]

/-- Slopes are multiplied by the square of `beta`. -/
theorem slope_beta (x₁ x₂ y₁ y₂ : BaseField) :
    curve.slope (x₁ * beta.toZMod) (x₂ * beta.toZMod) y₁ y₂ =
      curve.slope x₁ x₂ y₁ y₂ * beta.toZMod ^ 2 := by
  by_cases hx : x₁ = x₂
  · subst hx
    by_cases hy : y₁ = curve.negY x₁ y₂
    · have hy' : y₁ = curve.negY (x₁ * beta.toZMod) y₂ := by simpa using hy
      rw [WeierstrassCurve.Affine.slope_of_Y_eq rfl hy,
        WeierstrassCurve.Affine.slope_of_Y_eq rfl hy', zero_mul]
    · have hy' : y₁ ≠ curve.negY (x₁ * beta.toZMod) y₂ := by simpa using hy
      rw [WeierstrassCurve.Affine.slope_of_Y_ne rfl hy,
        WeierstrassCurve.Affine.slope_of_Y_ne rfl hy']
      simp only [curve_a₁, curve_a₂, curve_a₃, curve_a₄, WeierstrassCurve.Affine.negY]
      ring
  · have hx' : x₁ * beta.toZMod ≠ x₂ * beta.toZMod := by
      intro heq
      exact hx (mul_right_cancel₀ beta_ne_zero heq)
    have hd : x₁ - x₂ ≠ 0 := sub_ne_zero.mpr hx
    have hd' : x₁ * beta.toZMod - x₂ * beta.toZMod ≠ 0 := sub_ne_zero.mpr hx'
    rw [WeierstrassCurve.Affine.slope_of_X_ne hx, WeierstrassCurve.Affine.slope_of_X_ne hx',
      div_mul_eq_mul_div, div_eq_div_iff hd' hd]
    linear_combination (y₁ - y₂) * (x₂ - x₁) * beta_cube

/-- The third point of a chord has its abscissa multiplied by `beta` too. -/
theorem addX_beta (x₁ x₂ l : BaseField) :
    curve.addX (x₁ * beta.toZMod) (x₂ * beta.toZMod) (l * beta.toZMod ^ 2) =
      curve.addX x₁ x₂ l * beta.toZMod := by
  simp only [WeierstrassCurve.Affine.addX, curve_a₁, curve_a₂]
  linear_combination l ^ 2 * beta.toZMod * beta_cube

/-- The third point of a chord keeps its ordinate. -/
theorem addY_beta (x₁ x₂ y₁ l : BaseField) :
    curve.addY (x₁ * beta.toZMod) (x₂ * beta.toZMod) y₁ (l * beta.toZMod ^ 2) =
      curve.addY x₁ x₂ y₁ l := by
  rw [WeierstrassCurve.Affine.addY, WeierstrassCurve.Affine.addY, WeierstrassCurve.Affine.negAddY,
    WeierstrassCurve.Affine.negAddY, addX_beta]
  simp only [WeierstrassCurve.Affine.negY, WeierstrassCurve.Affine.addX, curve_a₁, curve_a₂,
    curve_a₃]
  linear_combination -l * (l ^ 2 - 2 * x₁ - x₂) * beta_cube

/-- The element with the abscissa multiplied by `beta`. -/
def betaImage : PointGroup → PointGroup
  | .zero => 0
  | .some _ _ h => .some _ _ (nonsingular_beta h)

/-- Sums are taken to sums. -/
theorem betaImage_add (g h : PointGroup) : betaImage (g + h) = betaImage g + betaImage h := by
  cases g with
  | zero => rw [← Point.zero_def, zero_add]; exact (zero_add _).symm
  | some x₁ y₁ h₁ =>
    cases h with
    | zero => rw [← Point.zero_def, add_zero]; exact (add_zero _).symm
    | some x₂ y₂ h₂ =>
      by_cases hxy : x₁ = x₂ ∧ y₁ = curve.negY x₂ y₂
      · have hy' : y₁ = curve.negY (x₂ * beta.toZMod) y₂ := by simpa using hxy.2
        rw [Point.add_of_Y_eq hxy.1 hxy.2, betaImage, betaImage,
          Point.add_of_Y_eq (congrArg (· * beta.toZMod) hxy.1) hy']
        rfl
      · have hxy' : ¬(x₁ * beta.toZMod = x₂ * beta.toZMod ∧
            y₁ = curve.negY (x₂ * beta.toZMod) y₂) := by
          rintro ⟨hx, hy⟩
          exact hxy ⟨mul_right_cancel₀ beta_ne_zero hx, by simpa using hy⟩
        rw [Point.add_some hxy, betaImage, betaImage, betaImage, Point.add_some hxy']
        congr 1
        · rw [slope_beta, addX_beta]
        · rw [slope_beta, addY_beta]

/-- Multiplying the abscissa by `beta` is a homomorphism. -/
def betaHom : PointGroup →+ PointGroup := .mk' betaImage betaImage_add

/-- The homomorphism on a finite point. -/
theorem betaHom_some {x y : BaseField} (h : curve.Nonsingular x y) :
    betaHom (.some x y h) = .some _ _ (nonsingular_beta h) := rfl

private theorem finite_of_val_eq {x y : BaseField} {h : curve.Nonsingular x y} {g : PointGroup}
    (hx : (Affine.ofGroup g).x.val = x.val) (hy : (Affine.ofGroup g).y.val = y.val)
    (hg : g ≠ 0) : .some x y h = g := by
  cases g with
  | zero => exact absurd rfl hg
  | some x' y' h' =>
    obtain rfl : x' = x := ZMod.val_injective _ hx
    obtain rfl : y' = y := ZMod.val_injective _ hy
    rfl

/-- The image of the generator is `lambda` times the generator. -/
theorem betaHom_generatorElement : betaHom generatorElement = lambda • generatorElement := by
  have hrun : (((Base.plain .generator).mulBits lambda).x.val,
      ((Base.plain .generator).mulBits lambda).y.val) =
        ((generatorX * beta).val, generatorY.val) := by
    decide +kernel
  rw [Base.mulBits_eq ofGroup_generatorElement.symm, natCast_zsmul] at hrun
  obtain ⟨hx, hy⟩ := Prod.mk.inj hrun
  have hne : lambda • generatorElement ≠ 0 := by
    intro h
    rw [h] at hy
    revert hy
    decide +kernel
  have hmem := Affine.onCurve_finite_iff.mp onCurve_generator
  rw [generatorElement, Affine.generator, Affine.toGroup_finite hmem] at hx hy hne ⊢
  refine finite_of_val_eq ?_ ?_ hne
  · rw [hx, ← Residue.toZMod_mul, Residue.val_toZMod]
  · rw [hy, Residue.val_toZMod]

private theorem map_of_map_generator {A : Type} [AddCommGroup A] (f : A →+ A) {g : A} {l : Nat}
    (h : f g = l • g) (k : Int) : f (k • g) = l • k • g := by
  rw [map_zsmul, h, smul_comm]

/-- The image of every element is `lambda` times the element. -/
theorem betaHom_eq (g : PointGroup) : betaHom g = lambda • g := by
  obtain ⟨k, hk⟩ := exists_zsmul_generatorElement g
  rw [← hk]
  exact map_of_map_generator betaHom betaHom_generatorElement k

/-- Multiplying the abscissa of a triple by `beta` gives `lambda` times what it denotes. -/
theorem Jacobian.Denotes.endomorphism {p : Jacobian} {g : PointGroup} (hp : p.Denotes g) :
    p.endomorphism.Denotes (lambda • g) := by
  cases hp with
  | zero hz =>
    -- `denotes_mk_zero` keeps the components apart: to compare whole triples the kernel would have
    -- to compare an abscissa with its product with `beta`.
    rw [nsmul_zero, Jacobian.endomorphism]
    exact Jacobian.denotes_mk_zero hz
  | some h hz hx hy =>
    rw [← betaHom_eq, betaHom_some, Jacobian.endomorphism]
    refine Jacobian.denotes_mk _ hz ?_ hy
    rw [Residue.toZMod_mul, hx]
    ring

/-- Multiplying the abscissa of a finite affine point by `beta` gives `lambda` times the point. -/
theorem Affine.ofGroup_lambda_nsmul {g : PointGroup} (hg : g ≠ 0) :
    .ofGroup (lambda • g) = Affine.finite ((Affine.ofGroup g).x * beta) (Affine.ofGroup g).y := by
  cases g with
  | zero => exact absurd rfl hg
  | some x y h =>
    rw [← betaHom_eq, betaHom_some, Affine.ofGroup, Affine.ofGroup, Affine.x, Affine.y]
    congr 1
    rw [← Residue.toZMod_inj, Residue.toZMod_mul, Residue.toZMod_ofZMod, Residue.toZMod_ofZMod]

/-- The vectors of the splitting lattice give zero modulo the order. -/
def LatticeVector.InLattice (v : LatticeVector) : Prop :=
  ((v.scalar + v.lambdaPart * lambda : Int) : ZMod order) = 0

/-- The basis vectors are in the lattice. -/
theorem inLattice_shortVectors : shortVector₁.InLattice ∧ shortVector₂.InLattice := by
  unfold LatticeVector.InLattice
  rw [ZMod.intCast_zmod_eq_zero_iff_dvd, ZMod.intCast_zmod_eq_zero_iff_dvd]
  decide +kernel

/-- The parts of a split scalar make up the scalar modulo the order, whatever the rounded
coordinates are. -/
theorem split_fst_add_snd_mul_lambda (k : Int) :
    (((split k).1 + (split k).2 * lambda : Int) : ZMod order) = k := by
  obtain ⟨h₁, h₂⟩ := inLattice_shortVectors
  unfold LatticeVector.InLattice at h₁ h₂
  unfold split
  dsimp only
  generalize Number.divRound _ _ = c₁
  generalize Number.divRound _ _ = c₂
  push_cast at h₁ h₂ ⊢
  linear_combination -(c₁ : ZMod order) * h₁ - (c₂ : ZMod order) * h₂

/-- The multiples by the parts of a split scalar, the second of the image, make up the multiple. -/
theorem split_zsmul (k : Int) (g : PointGroup) :
    (split k).1 • g + (split k).2 • lambda • g = k • g := by
  rw [← natCast_zsmul g lambda, ← mul_zsmul', ← add_zsmul]
  apply zsmul_eq_zsmul
  rw [← split_fst_add_snd_mul_lambda k]
  ring_nf

end Secp.Curve
