import Mathlib.Tactic.FieldSimp
import Mathlib.Tactic.LinearCombination
import Secp.Curve.Point
import Secp.Proofs.Curve.Group

/-!
# Coordinate formulas compute in the group

A triple of coordinates denotes an element of the group when its quotients are the coordinates of
the element, or when its denominator is zero and the element is too. Every operation on triples
keeps this relation: sums, doubles and opposites of triples denote those of the elements, whatever
the denominators are and whichever exceptional case is met.
-/

namespace Secp.Curve

open WeierstrassCurve.Affine (Point)

/-- An element of the prime field has an inverse unless it is zero. -/
theorem inverse?_eq_none_iff {a : Fp} : a.inverse? = none ↔ a.toZMod = 0 := by
  constructor
  · intro h
    have hgcd := Residue.gcd_of_inverse?_eq_none h
    have hdvd : sparsePrime ∣ a.val := by
      by_contra hdvd
      exact hgcd ((prime_sparsePrime.coprime_iff_not_dvd.mpr hdvd).symm)
    exact (ZMod.natCast_eq_zero_iff a.val sparsePrime).mpr hdvd
  · intro h
    cases hi : a.inverse? with
    | none => rfl
    | some b =>
      have hmul := Residue.mul_of_inverse? hi
      rw [h, zero_mul] at hmul
      exact absurd hmul zero_ne_one

namespace Jacobian

/-- The triple stands for infinity, or it solves the equation with its denominators cleared. -/
def OnCurve (p : Jacobian) : Prop :=
  p.z.toZMod = 0 ∨ p.y.toZMod ^ 2 = p.x.toZMod ^ 3 + 7 * p.z.toZMod ^ 6

instance (p : Jacobian) : Decidable p.OnCurve := inferInstanceAs (Decidable (_ ∨ _))

/-- The triple with its denominator multiplied by a number, and its numerators to match. -/
def scale (c : Fp) (p : Jacobian) : Jacobian := ⟨c.sqr * p.x, c.sqr * c * p.y, c * p.z⟩

/-- The triple stands for an element of the group. -/
inductive Denotes (p : Jacobian) : PointGroup → Prop where
  | zero (hz : p.z.toZMod = 0) : Denotes p 0
  | some {x y : BaseField} (h : curve.Nonsingular x y) (hz : p.z.toZMod ≠ 0)
    (hx : p.x.toZMod = x * p.z.toZMod ^ 2) (hy : p.y.toZMod = y * p.z.toZMod ^ 3) :
    Denotes p (.some x y h)

/-- The test for infinity decides whether the denominator is zero. -/
@[simp] theorem isInfinity_iff (p : Jacobian) : p.isInfinity = true ↔ p.z.toZMod = 0 :=
  Residue.isZero_iff p.z

/-- A triple that denotes an element is on the curve. -/
theorem Denotes.onCurve {p : Jacobian} {g : PointGroup} (hp : p.Denotes g) : p.OnCurve := by
  cases hp with
  | zero hz => exact .inl hz
  | some h hz hx hy =>
    right
    rw [hx, hy]
    linear_combination p.z.toZMod ^ 6 * nonsingular_iff.mp h

/-- A triple with denominator zero has no finite affine form. -/
theorem toAffine_of_eq_zero {p : Jacobian} (hz : p.z.toZMod = 0) : p.toAffine = .infinity := by
  rw [Jacobian.toAffine, inverse?_eq_none_iff.mpr hz]

/-- The affine form of any other triple holds its quotients. -/
theorem toAffine_of_ne_zero {p : Jacobian} (hz : p.z.toZMod ≠ 0) :
    p.toAffine =
      .finite (.ofZMod (p.x.toZMod / p.z.toZMod ^ 2)) (.ofZMod (p.y.toZMod / p.z.toZMod ^ 3)) := by
  cases hw : p.z.inverse? with
  | none => exact absurd (inverse?_eq_none_iff.mp hw) hz
  | some w =>
    have hinv : w.toZMod = p.z.toZMod⁻¹ := eq_inv_of_mul_eq_one_right (Residue.mul_of_inverse? hw)
    rw [Jacobian.toAffine, hw]
    refine congrArg₂ Affine.finite ?_ ?_
    all_goals
      rw [← Residue.toZMod_inj]
      simp only [Residue.toZMod_mul, Residue.toZMod_sqr, Residue.toZMod_ofZMod, hinv]
      field_simp

/-- The affine form of a triple is on the curve exactly when the triple is. -/
theorem onCurve_toAffine_iff {p : Jacobian} : p.toAffine.onCurve = true ↔ p.OnCurve := by
  by_cases hz : p.z.toZMod = 0
  · rw [toAffine_of_eq_zero hz]
    exact ⟨fun _ ↦ .inl hz, fun _ ↦ rfl⟩
  · rw [toAffine_of_ne_zero hz, Affine.onCurve_finite_iff, nonsingular_iff, Residue.toZMod_ofZMod,
      Residue.toZMod_ofZMod, OnCurve, or_iff_right hz]
    field_simp

/-- A triple on the curve denotes an element. -/
theorem OnCurve.exists_denotes {p : Jacobian} (hp : p.OnCurve) : ∃ g, p.Denotes g := by
  by_cases hz : p.z.toZMod = 0
  · exact ⟨0, .zero hz⟩
  · have hpoint := onCurve_toAffine_iff.mpr hp
    rw [toAffine_of_ne_zero hz, Affine.onCurve_finite_iff, Residue.toZMod_ofZMod,
      Residue.toZMod_ofZMod] at hpoint
    exact ⟨_, .some hpoint hz (by field_simp) (by field_simp)⟩

/-- The affine form of a triple is the element that it denotes. -/
theorem Denotes.toAffine {p : Jacobian} {g : PointGroup} (hp : p.Denotes g) :
    p.toAffine = .ofGroup g := by
  cases hp with
  | zero hz => exact toAffine_of_eq_zero hz
  | some h hz hx hy =>
    rw [toAffine_of_ne_zero hz, hx, hy, Affine.ofGroup, mul_div_cancel_right₀ _ (pow_ne_zero 2 hz),
      mul_div_cancel_right₀ _ (pow_ne_zero 3 hz)]

/-- A triple denotes an element exactly when it is on the curve and its affine form is the
element. -/
theorem denotes_iff {p : Jacobian} {g : PointGroup} :
    p.Denotes g ↔ p.OnCurve ∧ p.toAffine = .ofGroup g := by
  constructor
  · intro hp
    exact ⟨hp.onCurve, hp.toAffine⟩
  · rintro ⟨hp, haffine⟩
    obtain ⟨h, hh⟩ := hp.exists_denotes
    rw [← Affine.ofGroup_inj.mp (hh.toAffine.symm.trans haffine)]
    exact hh

/-- A triple on the curve denotes the element that its affine form stands for. -/
theorem OnCurve.denotes {p : Jacobian} (hp : p.OnCurve) : p.Denotes p.toAffine.toGroup := by
  obtain ⟨g, hg⟩ := hp.exists_denotes
  rwa [hg.toAffine, Affine.toGroup_ofGroup]

/-- A triple whose last component is zero denotes zero. -/
theorem denotes_mk_zero {a b c : Fp} (hc : c.toZMod = 0) : Denotes ⟨a, b, c⟩ 0 := .zero hc

/-- A triple denotes the element that has the quotients of its components as coordinates. -/
theorem denotes_mk {a b c : Fp} {x y : BaseField} (h : curve.Nonsingular x y) (hc : c.toZMod ≠ 0)
    (ha : a.toZMod = x * c.toZMod ^ 2) (hb : b.toZMod = y * c.toZMod ^ 3) :
    Denotes ⟨a, b, c⟩ (.some x y h) := .some h hc ha hb

/-- The triple of infinity denotes zero. -/
theorem denotes_infinity : infinity.Denotes 0 := .zero Residue.toZMod_zero

/-- The triple of a point of the group denotes it. -/
theorem denotes_ofAffine (g : PointGroup) : (ofAffine (.ofGroup g)).Denotes g := by
  cases g with
  | zero => exact denotes_infinity
  | some x y h =>
    refine .some h ?_ ?_ ?_ <;> simp [ofAffine, Affine.ofGroup]

/-- The opposite triple denotes the opposite element. -/
theorem Denotes.neg {p : Jacobian} {g : PointGroup} (hp : p.Denotes g) : p.neg.Denotes (-g) := by
  cases hp with
  | zero hz => exact .zero hz
  | some h hz hx hy =>
    refine .some _ hz hx ?_
    simp [Jacobian.neg, hy]

/-- The tangent formula gives the double. -/
theorem Denotes.dbl {p : Jacobian} {g : PointGroup} (hp : p.Denotes g) : p.dbl.Denotes (g + g) := by
  cases hp with
  | zero hz =>
    have hdbl : p.dbl = infinity := by simp [Jacobian.dbl, hz]
    rw [hdbl, add_zero]
    exact denotes_infinity
  | @some x y h hz hx hy =>
    by_cases hy₀ : y = 0
    · -- The tangent at a point of order two is vertical.
      have hdbl : p.dbl = infinity := by simp [Jacobian.dbl, hy, hy₀]
      rw [hdbl, Point.add_self_of_Y_eq (by simp [hy₀])]
      exact denotes_infinity
    · have hy₁ : p.y.toZMod ≠ 0 := by
        rw [hy]
        exact mul_ne_zero hy₀ (pow_ne_zero 3 hz)
      have htwo : (2 : BaseField) ≠ 0 := two_ne_zero
      have hyne : y ≠ curve.negY x y := by
        intro heq
        apply mul_ne_zero htwo hy₀
        linear_combination heq + (by simp : curve.negY x y = -y)
      have hslope : curve.slope x x y y = 3 * x ^ 2 / (2 * y) := by
        rw [WeierstrassCurve.Affine.slope_of_Y_ne rfl hyne]
        simp [two_mul]
      have hdbl : p.dbl = ⟨_, _, _⟩ := if_neg (by simp [hz, hy₁])
      rw [Point.add_self_of_Y_ne hyne, hdbl]
      refine .some _ ?_ ?_ ?_
      · simp [hz, hy₁, htwo]
      · simp [hslope, hx, hy]
        field_simp
        ring
      · simp [hslope, hx, hy, WeierstrassCurve.Affine.addY]
        field_simp
        ring

/-- The end of the chord formula gives the sum of two finite points: `u` and `s` are the first
point's coordinates over a denominator `z`, and `h` and `r` are the differences to the second
one's. -/
theorem Denotes.chord {p : Jacobian} {x₁ y₁ x₂ y₂ : BaseField} {h₁ : curve.Nonsingular x₁ y₁}
    {h₂ : curve.Nonsingular x₂ y₂} {u s h r z : Fp} (hp : p.Denotes (.some x₁ y₁ h₁))
    (hz : z.toZMod ≠ 0) (hu : u.toZMod = x₁ * z.toZMod ^ 2) (hs : s.toZMod = y₁ * z.toZMod ^ 3)
    (hh : h.toZMod = (x₂ - x₁) * z.toZMod ^ 2) (hr : r.toZMod = (y₂ - y₁) * z.toZMod ^ 3) :
    (Jacobian.chord p u s h r z).Denotes (.some x₁ y₁ h₁ + .some x₂ y₂ h₂) := by
  by_cases hx : x₁ = x₂
  · subst hx
    have hzero : h.isZero = true := by simp [hh]
    by_cases hy : y₁ = y₂
    · subst hy
      have hdbl : Jacobian.chord p u s h r z = p.dbl := by simp [Jacobian.chord, hh, hr]
      rw [hdbl]
      exact hp.dbl
    · have hr₀ : r.toZMod ≠ 0 := by
        rw [hr]
        exact mul_ne_zero (sub_ne_zero.mpr (Ne.symm hy)) (pow_ne_zero 3 hz)
      have hinf : Jacobian.chord p u s h r z = infinity := by simp [Jacobian.chord, hh, hr₀]
      have hneg : y₁ = curve.negY x₁ y₂ :=
        (WeierstrassCurve.Affine.Y_eq_of_X_eq h₁.1 h₂.1 rfl).resolve_left hy
      rw [hinf, Point.add_of_Y_eq rfl hneg]
      exact denotes_infinity
  · have hd : x₂ - x₁ ≠ 0 := sub_ne_zero.mpr (Ne.symm hx)
    have hd' : x₁ - x₂ ≠ 0 := sub_ne_zero.mpr hx
    have hh₀ : h.toZMod ≠ 0 := by
      rw [hh]
      exact mul_ne_zero hd (pow_ne_zero 2 hz)
    have hchord : Jacobian.chord p u s h r z = ⟨_, _, _⟩ := if_neg (by simp [hh₀])
    rw [Point.add_of_X_ne hx, hchord]
    refine .some _ ?_ ?_ ?_
    · simp [hh₀, hz]
    · simp [hx, hh, hr, hu]
      field_simp
      ring
    · simp [hx, hh, hr, hu, hs, WeierstrassCurve.Affine.addY]
      field_simp
      ring

/-- The sum of two triples denotes the sum. -/
theorem Denotes.add {p q : Jacobian} {g h : PointGroup} (hp : p.Denotes g) (hq : q.Denotes h) :
    (p.add q).Denotes (g + h) := by
  cases hp with
  | zero hz =>
    have hadd : p.add q = q := if_pos ((isInfinity_iff p).mpr hz)
    rwa [hadd, zero_add]
  | some h₁ hz₁ hx₁ hy₁ =>
    have hp' : ¬p.isInfinity = true := (isInfinity_iff p).not.mpr hz₁
    cases hq with
    | zero hz =>
      have hadd : p.add q = p := (if_neg hp').trans (if_pos ((isInfinity_iff q).mpr hz))
      rw [hadd, add_zero]
      exact .some h₁ hz₁ hx₁ hy₁
    | some h₂ hz₂ hx₂ hy₂ =>
      have hq' : ¬q.isInfinity = true := (isInfinity_iff q).not.mpr hz₂
      have hadd : p.add q = Jacobian.chord p _ _ _ _ _ := (if_neg hp').trans (if_neg hq')
      rw [hadd]
      refine Denotes.chord (.some h₁ hz₁ hx₁ hy₁) ?_ ?_ ?_ ?_ ?_
      · rw [Residue.toZMod_mul]
        exact mul_ne_zero hz₁ hz₂
      all_goals
        simp only [Residue.toZMod_sub, Residue.toZMod_mul, Residue.toZMod_sqr, hx₁, hy₁, hx₂, hy₂]
        ring

/-- The sum of a triple and an affine point denotes the sum. -/
theorem Denotes.addAffine {p : Jacobian} {g : PointGroup} (hp : p.Denotes g) (h : PointGroup) :
    (p.addAffine (.ofGroup h)).Denotes (g + h) := by
  cases h with
  | zero => rwa [← Point.zero_def, add_zero]
  | some x₂ y₂ h₂ =>
    cases hp with
    | zero hz =>
      have hadd : p.addAffine (.ofGroup (.some x₂ y₂ h₂)) = ofAffine (.ofGroup (.some x₂ y₂ h₂)) :=
        if_pos ((isInfinity_iff p).mpr hz)
      rw [hadd, zero_add]
      exact denotes_ofAffine _
    | some h₁ hz hx₁ hy₁ =>
      have hadd : p.addAffine (.ofGroup (.some x₂ y₂ h₂)) = Jacobian.chord p _ _ _ _ _ :=
        if_neg ((isInfinity_iff p).not.mpr hz)
      rw [hadd]
      refine Denotes.chord (.some h₁ hz hx₁ hy₁) hz hx₁ hy₁ ?_ ?_
      all_goals
        simp only [Residue.toZMod_sub, Residue.toZMod_mul, Residue.toZMod_sqr,
          Residue.toZMod_ofZMod, hx₁, hy₁]
        ring

/-- Repeated doubling multiplies by a power of two. -/
theorem Denotes.dblTimes {p : Jacobian} {g : PointGroup} (hp : p.Denotes g) (count : Nat) :
    (p.dblTimes count).Denotes (2 ^ count • g) := by
  induction count generalizing p g with
  | zero => rwa [pow_zero, one_nsmul]
  | succ count ih =>
    have hnext := ih hp.dbl
    rwa [← two_nsmul, ← mul_nsmul', ← pow_succ] at hnext

end Jacobian

namespace Point

/-- The point stands for an element of the group, in whichever form it is. -/
def Denotes : Point → PointGroup → Prop
  | affine b, g => b.point = .ofGroup g
  | jacobian p, g => p.Denotes g

/-- A point denotes an element exactly when it is on the curve and its affine form is the
element. -/
theorem denotes_iff {p : Point} {g : PointGroup} :
    p.Denotes g ↔ p.onCurve = true ∧ p.toAffine = .ofGroup g := by
  cases p with
  | affine b =>
    refine (and_iff_right_of_imp ?_).symm
    intro h
    exact Affine.onCurve_iff_exists.mpr ⟨g, h⟩
  | jacobian p =>
    have hcurve : p.OnCurve ↔ (jacobian p).onCurve = true := Jacobian.onCurve_toAffine_iff.symm
    rw [← hcurve]
    exact Jacobian.denotes_iff

/-- A point on the curve denotes the element that its affine form stands for. -/
theorem denotes_toGroup {p : Point} (hp : p.onCurve = true) : p.Denotes p.toAffine.toGroup :=
  denotes_iff.mpr ⟨hp, (Affine.ofGroup_toGroup hp).symm⟩

/-- The Jacobian form denotes the same element. -/
theorem Denotes.toJacobian {p : Point} {g : PointGroup} (hp : p.Denotes g) :
    p.toJacobian.Denotes g := by
  cases p with
  | affine b =>
    rw [Point.toJacobian, show b.point = .ofGroup g from hp]
    exact Jacobian.denotes_ofAffine g
  | jacobian p => exact hp

/-- The sum of two points denotes the sum, whatever their forms. -/
theorem Denotes.add {p q : Point} {g h : PointGroup} (hp : p.Denotes g) (hq : q.Denotes h) :
    (p.add q).Denotes (g + h) := by
  cases p with
  | affine p =>
    have hp' : p.point = .ofGroup g := hp
    cases q with
    | affine q =>
      have hq' : q.point = .ofGroup h := hq
      have hsum := (Jacobian.denotes_ofAffine g).addAffine h
      rw [← hp', ← hq'] at hsum
      exact hsum.toAffine
    | jacobian q =>
      rw [Point.add, hp', add_comm g]
      exact Jacobian.Denotes.addAffine hq g
  | jacobian p =>
    cases q with
    | affine q =>
      rw [Point.add, show q.point = .ofGroup h from hq]
      exact Jacobian.Denotes.addAffine hp h
    | jacobian q => exact Jacobian.Denotes.add hp hq

/-- The double of a point denotes the double. -/
theorem Denotes.dbl {p : Point} {g : PointGroup} (hp : p.Denotes g) : p.dbl.Denotes (g + g) := by
  cases p with
  | affine p => exact hp.toJacobian.dbl.toAffine
  | jacobian p => exact Jacobian.Denotes.dbl hp

/-- The opposite point denotes the opposite. -/
theorem Denotes.neg {p : Point} {g : PointGroup} (hp : p.Denotes g) : p.neg.Denotes (-g) := by
  cases p with
  | affine p => exact (congrArg Affine.neg hp).trans (Affine.neg_ofGroup g)
  | jacobian p => exact Jacobian.Denotes.neg hp

end Point

/-- Every coordinate formula gives a point of the curve whose affine form is what the group makes
of the affine forms of the operands. Forms of the same points give forms of the same result. -/
theorem formulas_compute_in_group :
    (∀ p q : Jacobian, p.OnCurve → q.OnCurve →
      (p.add q).OnCurve ∧
        (p.add q).toAffine = .ofGroup (p.toAffine.toGroup + q.toAffine.toGroup)) ∧
    (∀ (p : Jacobian) (q : Affine), p.OnCurve → q.onCurve = true →
      (p.addAffine q).OnCurve ∧
        (p.addAffine q).toAffine = .ofGroup (p.toAffine.toGroup + q.toGroup)) ∧
    (∀ p : Jacobian, p.OnCurve →
      (p.dbl.OnCurve ∧ p.dbl.toAffine = .ofGroup (p.toAffine.toGroup + p.toAffine.toGroup)) ∧
      (p.neg.OnCurve ∧ p.neg.toAffine = .ofGroup (-p.toAffine.toGroup)) ∧
      ∀ count, (p.dblTimes count).OnCurve ∧
        (p.dblTimes count).toAffine = .ofGroup (2 ^ count • p.toAffine.toGroup)) ∧
    (∀ p q : Point, p.onCurve = true → q.onCurve = true →
      ((p.add q).onCurve = true ∧
        (p.add q).toAffine = .ofGroup (p.toAffine.toGroup + q.toAffine.toGroup)) ∧
      (p.dbl.onCurve = true ∧
        p.dbl.toAffine = .ofGroup (p.toAffine.toGroup + p.toAffine.toGroup)) ∧
      (p.neg.onCurve = true ∧ p.neg.toAffine = .ofGroup (-p.toAffine.toGroup))) ∧
    (∀ p p' q q' : Point, p.onCurve = true → p'.onCurve = true → q.onCurve = true →
      q'.onCurve = true → p.toAffine = p'.toAffine → q.toAffine = q'.toAffine →
      (p.add q).toAffine = (p'.add q').toAffine ∧ p.dbl.toAffine = p'.dbl.toAffine ∧
        p.neg.toAffine = p'.neg.toAffine) := by
  refine ⟨?_, ?_, ?_, ?_, ?_⟩
  · intro p q hp hq
    exact Jacobian.denotes_iff.mp (hp.denotes.add hq.denotes)
  · intro p q hp hq
    have hsum := hp.denotes.addAffine q.toGroup
    rw [Affine.ofGroup_toGroup hq] at hsum
    exact Jacobian.denotes_iff.mp hsum
  · intro p hp
    refine ⟨Jacobian.denotes_iff.mp hp.denotes.dbl, Jacobian.denotes_iff.mp hp.denotes.neg, ?_⟩
    intro count
    exact Jacobian.denotes_iff.mp (hp.denotes.dblTimes count)
  · intro p q hp hq
    have hp' := Point.denotes_toGroup hp
    exact ⟨Point.denotes_iff.mp (hp'.add (Point.denotes_toGroup hq)),
      Point.denotes_iff.mp hp'.dbl, Point.denotes_iff.mp hp'.neg⟩
  · intro p p' q q' hp hp' hq hq' hpp hqq
    have hpg := Point.denotes_toGroup hp
    have hpg' := Point.denotes_toGroup hp'
    have hqg := Point.denotes_toGroup hq
    have hqg' := Point.denotes_toGroup hq'
    rw [← hpp] at hpg'
    rw [← hqq] at hqg'
    have same {r r' : Point} {g : PointGroup} (hr : r.Denotes g) (hr' : r'.Denotes g) :
        r.toAffine = r'.toAffine :=
      (Point.denotes_iff.mp hr).2.trans (Point.denotes_iff.mp hr').2.symm
    exact ⟨same (hpg.add hqg) (hpg'.add hqg'), same hpg.dbl hpg'.dbl, same hpg.neg hpg'.neg⟩

/-- Two triples of opposite points with different denominators add up to infinity. -/
theorem formulas_compute_in_group_opposite :
    ((Jacobian.ofAffine .generator).scale (Residue.ofNat 2)).OnCurve ∧
    (Jacobian.ofAffine .generator).neg.OnCurve ∧
    (((Jacobian.ofAffine .generator).scale (Residue.ofNat 2)).add
      (Jacobian.ofAffine .generator).neg).toAffine =
      .ofGroup (((Jacobian.ofAffine .generator).scale (Residue.ofNat 2)).toAffine.toGroup +
        (Jacobian.ofAffine .generator).neg.toAffine.toGroup) := by
  have hp : ((Jacobian.ofAffine .generator).scale (Residue.ofNat 2)).OnCurve := by decide +kernel
  have hq : (Jacobian.ofAffine .generator).neg.OnCurve := by decide +kernel
  exact ⟨hp, hq, (formulas_compute_in_group.1 _ _ hp hq).2⟩

end Secp.Curve
