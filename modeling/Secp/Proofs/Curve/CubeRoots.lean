import Secp.Proofs.Curve.Cofactor
import Secp.Proofs.Curve.Endomorphism
import Secp.Proofs.Curve.Representatives

/-!
# The endomorphism on the whole curve

Multiplying the abscissa of any triple of the curve by `beta` gives a triple of the curve, of
`lambda` times the point. No other factor does, not even another cube root of one: as seven is not
a square, no point of the curve has abscissa zero, so that different factors lead to different
points. And as every finite point has order `order`, no other multiple will do, but for those that
differ from `lambda` by multiples of the order.
-/

namespace Secp.Curve

/-- Seven is not a square in the field. -/
theorem sq_ne_seven (y : BaseField) : y ^ 2 ≠ 7 := by
  have hpower : Number.powMod sparsePrime 256 7 ((sparsePrime - 1) / 2) ≠ 1 := by decide +kernel
  exact_mod_cast pow_ne_natCast (by decide) (by decide) (by decide) hpower y

namespace Jacobian

/-- The triple with its abscissa multiplied by a factor. -/
def stretch (c : Fp) (p : Jacobian) : Jacobian := { p with x := p.x * c }

/-- A finite triple of the curve has an abscissa other than zero. -/
theorem OnCurve.x_ne_zero {p : Jacobian} (hp : p.OnCurve) (hz : p.z.toZMod ≠ 0) :
    p.x.toZMod ≠ 0 := by
  intro hx
  have heq := hp.resolve_left hz
  rw [hx] at heq
  apply sq_ne_seven (p.y.toZMod / p.z.toZMod ^ 3)
  field_simp
  linear_combination heq

/-- A finite triple of the curve is stretched to another of the curve by the cube roots of one. -/
theorem OnCurve.stretch_iff {p : Jacobian} (hp : p.OnCurve) (hz : p.z.toZMod ≠ 0) {c : Fp} :
    (p.stretch c).OnCurve ↔ c.toZMod ^ 3 = 1 := by
  have hx := pow_ne_zero 3 (hp.x_ne_zero hz)
  have heq := hp.resolve_left hz
  have hstretch : (p.stretch c).OnCurve ↔
      p.y.toZMod ^ 2 = (p.x.toZMod * c.toZMod) ^ 3 + 7 * p.z.toZMod ^ 6 := by
    rw [← Residue.toZMod_mul]
    exact or_iff_right hz
  rw [hstretch, heq, add_left_inj, mul_pow, eq_comm, mul_eq_left₀ hx]

/-- Different factors stretch a finite triple of the curve to different points. -/
theorem OnCurve.toAffine_stretch_inj {p : Jacobian} (hp : p.OnCurve) (hz : p.z.toZMod ≠ 0)
    {c d : Fp} : (p.stretch c).toAffine = (p.stretch d).toAffine ↔ c = d := by
  have hx := hp.x_ne_zero hz
  have haffine (e : Fp) := toAffine_of_ne_zero (p := p.stretch e) hz
  constructor
  · intro h
    rw [haffine, haffine, Affine.finite.injEq, Residue.ofZMod_inj] at h
    have habscissa := (div_left_inj' (pow_ne_zero 2 hz)).mp h.1
    simp only [stretch, Residue.toZMod_mul] at habscissa
    exact Residue.toZMod_inj.mp (mul_left_cancel₀ hx habscissa)
  · intro h
    rw [h]

/-- The endomorphism is multiplication by `lambda` on the whole curve, whatever the denominator is.
It takes a triple of the curve to one of the curve, whose affine form is `lambda` times the point,
as an element of the group and by doubling and adding. On a finite point it is the multiple by no
scalar but those congruent to `lambda` modulo the order, and though every cube root of one stays on
the curve, no factor but `beta` gives the same point. -/
theorem endomorphism_is_multiplication {p : Jacobian} (hp : p.OnCurve) :
    p.endomorphism.OnCurve ∧
      p.endomorphism.toAffine = .ofGroup (lambda • p.toAffine.toGroup) ∧
      p.endomorphism.toAffine = (Base.plain p.toAffine).mulBits lambda ∧
      (p.isInfinity = false →
        (∀ k : Int, p.endomorphism.toAffine = .ofGroup (k • p.toAffine.toGroup) ↔
          k ≡ lambda [ZMOD order]) ∧
        (∀ c : Fp, (p.stretch c).OnCurve ↔ c.sqr * c = .one) ∧
        ∀ c : Fp, (p.stretch c).toAffine = p.endomorphism.toAffine ↔ c = beta) := by
  have hdenotes := hp.denotes
  have himage := hdenotes.endomorphism
  have hbase : (Base.plain p.toAffine).point = .ofGroup p.toAffine.toGroup := hdenotes.toAffine
  refine ⟨himage.onCurve, himage.toAffine, ?_, ?_⟩
  · rw [Base.mulBits_eq hbase, natCast_zsmul]
    exact himage.toAffine
  · intro hfinite
    have hz := isInfinity_eq_false_iff.mp hfinite
    have hne : p.toAffine.toGroup ≠ 0 := by
      rw [ne_eq, ← Affine.isInfinity_ofGroup, ← hdenotes.toAffine, isInfinity_toAffine]
      exact Bool.eq_false_iff.mp hfinite
    refine ⟨?_, ?_, ?_⟩
    · intro k
      rw [himage.toAffine, Affine.ofGroup_inj, ← natCast_zsmul, zsmul_eq_zsmul_iff_modEq,
        addOrderOf_eq hne]
      exact Int.modEq_comm
    · intro c
      rw [hp.stretch_iff hz, ← Residue.toZMod_inj, Residue.toZMod_mul, Residue.toZMod_sqr,
        Residue.toZMod_one, ← pow_succ]
    · intro c
      exact hp.toAffine_stretch_inj hz

/-- A triple with denominator two of the point with abscissa one is taken to `lambda` times that
point; the square of `beta` takes it to another point of the curve. -/
theorem endomorphism_is_multiplication_denominator_two :
    ∃ p : Jacobian, p.OnCurve ∧ p.isInfinity = false ∧ p.z = .ofNat 2 ∧
      p.toAffine = .ofUnitAbscissa ∧ p.endomorphism.OnCurve ∧
      p.endomorphism.toAffine = (Base.plain .ofUnitAbscissa).mulBits lambda ∧
      (p.stretch beta.sqr).OnCurve ∧ (p.stretch beta.sqr).toAffine ≠ p.endomorphism.toAffine := by
  have haffine : ((ofAffine .ofUnitAbscissa).scale (.ofNat 2)).toAffine = .ofUnitAbscissa := by
    decide +kernel
  have hcurve : ((ofAffine .ofUnitAbscissa).scale (.ofNat 2)).OnCurve := by
    rw [← onCurve_toAffine_iff, haffine]
    decide +kernel
  have hfinite : ((ofAffine .ofUnitAbscissa).scale (.ofNat 2)).isInfinity = false := by
    decide +kernel
  have hroot : beta.sqr.sqr * beta.sqr = .one := by decide +kernel
  have hother : beta.sqr ≠ beta := by decide +kernel
  obtain ⟨himage, -, hmultiple, hfactors⟩ := endomorphism_is_multiplication hcurve
  obtain ⟨-, hstretch, hunique⟩ := hfactors hfinite
  rw [haffine] at hmultiple
  refine ⟨_, hcurve, hfinite, ?_, haffine, himage, hmultiple, (hstretch _).mpr hroot, ?_⟩
  · decide +kernel
  · exact (hunique _).not.mpr hother

end Jacobian

end Secp.Curve
