import Secp.Proofs.Curve.Encoding

/-!
# Triples of the same point

Two triples stand for the same point in three ways of saying: their coordinates agree when the
denominators are cleared, their affine forms are equal, or one of them is a multiple of the other,
with weights two, three and one on the components. The three are the same for every pair of triples,
whether on the curve or not; a triple with denominator zero stands for infinity and agrees with the
others of that kind alone. Points in either form are therefore compared by their affine forms.
-/

namespace Secp.Curve

namespace Jacobian

/-- The test for infinity fails where the denominator is not zero. -/
theorem isInfinity_eq_false_iff {p : Jacobian} : p.isInfinity = false ↔ p.z.toZMod ≠ 0 := by
  rw [← Bool.not_eq_true, isInfinity_iff]

/-- The affine form is infinity where the triple is. -/
theorem isInfinity_toAffine (p : Jacobian) : p.toAffine.isInfinity = p.isInfinity := by
  by_cases hz : p.z.toZMod = 0
  · rw [toAffine_of_eq_zero hz, (isInfinity_iff p).mpr hz]
    rfl
  · rw [toAffine_of_ne_zero hz, isInfinity_eq_false_iff.mpr hz]
    rfl

/-- Triples with denominators other than zero agree when their cleared coordinates do. -/
theorem agrees_of_ne_zero {p q : Jacobian} (hp : p.z.toZMod ≠ 0) (hq : q.z.toZMod ≠ 0) :
    p.agrees q = true ↔
      p.x.toZMod * q.z.toZMod ^ 2 = q.x.toZMod * p.z.toZMod ^ 2 ∧
        p.y.toZMod * q.z.toZMod ^ 3 = q.y.toZMod * p.z.toZMod ^ 3 := by
  have hfinite : ¬(p.isInfinity || q.isInfinity) = true := by simp [hp, hq]
  rw [agrees, if_neg hfinite]
  simp only [Bool.and_eq_true, decide_eq_true_eq, ← Residue.toZMod_inj, Residue.toZMod_mul,
    Residue.toZMod_sqr, ← pow_succ]

/-- Triples agree exactly when their affine forms are equal. -/
theorem agrees_iff {p q : Jacobian} : p.agrees q = true ↔ p.toAffine = q.toAffine := by
  by_cases hp : p.z.toZMod = 0
  · by_cases hq : q.z.toZMod = 0
    · simp [agrees, hp, hq, toAffine_of_eq_zero]
    · simp [agrees, hp, hq, toAffine_of_eq_zero, toAffine_of_ne_zero]
  · by_cases hq : q.z.toZMod = 0
    · simp [agrees, hp, hq, toAffine_of_eq_zero, toAffine_of_ne_zero]
    · rw [agrees_of_ne_zero hp hq, toAffine_of_ne_zero hp, toAffine_of_ne_zero hq,
        Affine.finite.injEq, Residue.ofZMod_inj, Residue.ofZMod_inj,
        div_eq_div_iff (pow_ne_zero 2 hp) (pow_ne_zero 2 hq),
        div_eq_div_iff (pow_ne_zero 3 hp) (pow_ne_zero 3 hq)]

/-- Scaling a triple keeps its affine form. -/
theorem toAffine_scale {c : Fp} (hc : c ≠ .zero) (p : Jacobian) :
    (p.scale c).toAffine = p.toAffine := by
  have hc : c.toZMod ≠ 0 := Residue.toZMod_eq_zero_iff.not.mpr hc
  by_cases hz : p.z.toZMod = 0
  · rw [toAffine_of_eq_zero hz, toAffine_of_eq_zero]
    simp [scale, hz]
  · have hz' : (p.scale c).z.toZMod ≠ 0 := by simp [scale, hc, hz]
    rw [toAffine_of_ne_zero hz, toAffine_of_ne_zero hz', Affine.finite.injEq, Residue.ofZMod_inj,
      Residue.ofZMod_inj]
    simp only [scale, Residue.toZMod_mul, Residue.toZMod_sqr]
    constructor <;> field_simp

/-- A triple that agrees with a finite one is a multiple of it. -/
theorem agrees_iff_exists_scale {p q : Jacobian} (hp : p.isInfinity = false) :
    p.agrees q = true ↔ ∃ c : Fp, c ≠ .zero ∧ q = p.scale c := by
  have hz := isInfinity_eq_false_iff.mp hp
  constructor
  · intro h
    have hq : q.isInfinity = false := by
      rw [← isInfinity_toAffine, ← agrees_iff.mp h, isInfinity_toAffine, hp]
    have hz' := isInfinity_eq_false_iff.mp hq
    obtain ⟨hx, hy⟩ := (agrees_of_ne_zero hz hz').mp h
    refine ⟨.ofZMod (q.z.toZMod / p.z.toZMod), ?_, ?_⟩
    · apply Residue.toZMod_eq_zero_iff.not.mp
      rw [Residue.toZMod_ofZMod]
      exact div_ne_zero hz' hz
    · cases q with
      | mk x y z =>
        simp only [scale, mk.injEq, ← Residue.toZMod_inj, Residue.toZMod_mul, Residue.toZMod_sqr,
          Residue.toZMod_ofZMod] at hx hy ⊢
        refine ⟨?_, ?_, ?_⟩
        · field_simp
          linear_combination -hx
        · field_simp
          linear_combination -hy
        · field_simp
  · rintro ⟨c, hc, rfl⟩
    rw [agrees_iff, toAffine_scale hc]

end Jacobian

namespace Affine

/-- Different coordinates take different bytes. -/
theorem coordinateBytes_inj {u v : Fp} : coordinateBytes u = coordinateBytes v ↔ u = v := by
  constructor
  · intro h
    apply Residue.ext
    rw [← toNat_coordinateBytes u, h, toNat_coordinateBytes]
  · intro h
    rw [h]

/-- Points with the same encoding in both coordinates are the same, on the curve or not. -/
theorem encode_inj {p q : Affine} : p.encode false = q.encode false ↔ p = q := by
  constructor
  · intro h
    cases p with
    | infinity =>
      cases q with
      | infinity => rfl
      | finite x y => simp [encode] at h
    | finite x y =>
      cases q with
      | infinity => simp [encode] at h
      | finite x' y' =>
        have hbytes : coordinateBytes x ++ coordinateBytes y =
            coordinateBytes x' ++ coordinateBytes y' := by simpa [encode] using h
        obtain ⟨hx, hy⟩ := List.append_inj hbytes (by simp)
        rw [coordinateBytes_inj.mp hx, coordinateBytes_inj.mp hy]
  · intro h
    rw [h]

end Affine

namespace Point

/-- Points in either form agree exactly when their affine forms are equal. -/
theorem agrees_iff {p q : Point} : p.agrees q = true ↔ p.toAffine = q.toAffine := by
  cases p with
  | affine b => exact decide_eq_true_iff
  | jacobian p =>
    cases q with
    | affine b => exact decide_eq_true_iff
    | jacobian q => exact Jacobian.agrees_iff

/-- To agree is an equivalence relation on the points in either form. -/
theorem equivalence_agrees : Equivalence fun p q : Point ↦ p.agrees q = true where
  refl _ := agrees_iff.mpr rfl
  symm h := agrees_iff.mpr (agrees_iff.mp h).symm
  trans h h' := agrees_iff.mpr ((agrees_iff.mp h).trans (agrees_iff.mp h'))

end Point

/-- Two triples agree exactly when their affine forms are equal, whether on the curve or not.
Scaling a triple gives one that agrees with it, with the same affine form and encodings, and
whatever agrees with a finite triple is a scaling of it. Points in any two forms agree exactly when
their affine forms are equal, or their encodings with both coordinates; this is an equivalence
relation. -/
theorem representatives_agree :
    (∀ p q : Jacobian, p.agrees q = true ↔ p.toAffine = q.toAffine) ∧
      (∀ (p : Jacobian) (c : Fp), c ≠ .zero →
        (p.scale c).agrees p = true ∧ (p.scale c).toAffine = p.toAffine ∧
          ∀ compressed, (p.scale c).toAffine.encode compressed = p.toAffine.encode compressed) ∧
      (∀ p q : Jacobian, p.isInfinity = false →
        (p.agrees q = true ↔ ∃ c : Fp, c ≠ .zero ∧ q = p.scale c)) ∧
      (∀ p q : Point, (p.agrees q = true ↔ p.toAffine = q.toAffine) ∧
        (p.agrees q = true ↔ p.toAffine.encode false = q.toAffine.encode false)) ∧
      Equivalence fun p q : Point ↦ p.agrees q = true := by
  refine ⟨fun p q ↦ Jacobian.agrees_iff, ?_, fun p q ↦ Jacobian.agrees_iff_exists_scale, ?_,
    Point.equivalence_agrees⟩
  · intro p c hc
    have hsame := Jacobian.toAffine_scale hc p
    refine ⟨Jacobian.agrees_iff.mpr hsame, hsame, ?_⟩
    intro compressed
    rw [hsame]
  · intro p q
    rw [Affine.encode_inj]
    exact ⟨Point.agrees_iff, Point.agrees_iff⟩

/-- A triple off the curve agrees with its scaling by seven, and the origin, whose numerators are
zero, does not agree with infinity. -/
theorem representatives_agree_off_curve :
    (.ofNat 7 : Fp) ≠ .zero ∧
      (Jacobian.scale (.ofNat 7) ⟨.ofNat 2, .ofNat 3, .ofNat 5⟩).agrees
        ⟨.ofNat 2, .ofNat 3, .ofNat 5⟩ = true ∧
      (Jacobian.mk .zero .zero .one).isInfinity = false ∧
      (∃ c : Fp, c ≠ .zero ∧ (⟨.zero, .zero, .ofNat 7⟩ : Jacobian) =
        Jacobian.scale c ⟨.zero, .zero, .one⟩) ∧
      (Jacobian.mk .zero .zero .one).agrees .infinity = false := by
  have hseven : (.ofNat 7 : Fp) ≠ .zero := by decide +kernel
  have hfinite : (Jacobian.mk .zero .zero .one : Jacobian).isInfinity = false := by decide +kernel
  obtain ⟨haffine, hscale, hrepresents, -⟩ := representatives_agree
  refine ⟨hseven, (hscale _ _ hseven).1, hfinite, ?_, ?_⟩
  · exact (hrepresents _ _ hfinite).mp (by decide +kernel)
  · rw [← Bool.not_eq_true, haffine]
    decide +kernel

end Secp.Curve
