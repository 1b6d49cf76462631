import Mathlib.Data.Int.ModEq
import Secp.Proofs.LimbInt.Quotient
import Secp.Proofs.Loops
import Secp.Proofs.Number.Euclid

/-!
# Euclid's algorithm ends

Where the loops of Euclid's algorithm are defined, they stop at a remainder that is not smaller than
its divisor. Here they go on until a remainder is zero: a run that never comes to one gives nothing,
and neither does a run that divides by zero. For canonical integers of any sign the runs end with
what the loops give, the greatest common divisor and the inverse, if there is one.
-/

namespace Secp.LimbInt

variable {a b m s t : LimbInt}

namespace Unbounded

/-- The first of a pair when the second is zero, and the second with the remainder otherwise. -/
noncomputable def gcdStep : LimbInt × LimbInt → Part (LimbInt ⊕ LimbInt × LimbInt)
  | (a, b) =>
    if b.isZero then Part.some (.inl a)
    else do
      let r ← Part.ofOption (a.rem b).toOption
      return .inr (b, r)

/-- Greatest common divisor of the magnitudes. -/
noncomputable def gcd (a b : LimbInt) : Part LimbInt := PFun.fix gcdStep (a.abs, b.abs)

/-- A pair and the factors that give it. -/
abbrev Factored : Type := LimbInt × LimbInt × LimbInt × LimbInt

/-- A step of `gcdStep` on a pair, and the same combination of the factors. -/
noncomputable def cofactorStep : Factored → Part (LimbInt × LimbInt ⊕ Factored)
  | (a, b, x, y) =>
    if b.isZero then Part.some (.inl (a, x))
    else do
      let (q, r) ← Part.ofOption (a.divRem b).toOption
      return .inr (b, r, y, x.sub (q.mul y))

/-- The inverse modulo `m`, if there is one. -/
noncomputable def inverse (a m : LimbInt) : Part (Option LimbInt) :=
  let modulus := m.abs
  if modulus.isZero then Part.some none
  else do
    let rest ← Part.ofOption (a.umod modulus).toOption
    let (g, x) ← PFun.fix cofactorStep (rest, modulus, one, zero)
    if g = one then do
      let least ← Part.ofOption (x.umod modulus).toOption
      return some least
    else return none

/-- What the guarded loop of remainders ends with, the run ends with. -/
theorem fix_gcdStep {g : LimbInt} (h : gcdFrom a b = some g) :
    PFun.fix gcdStep (a, b) = Part.some g := by
  fun_induction gcdFrom a b with
  | case1 a b hzero =>
    obtain rfl := Option.some.inj h
    exact fix_stop (if_pos hzero)
  | case2 a b hzero ih =>
    obtain ⟨r, hr, h⟩ := Option.bind_eq_some_iff.mp h
    have hstep : gcdStep (a, b) = Part.some (.inr (b, r)) := by
      rw [gcdStep, if_neg hzero, hr]
      exact Part.bind_some _ _
    rw [fix_next hstep]
    split at h
    · next hlt => exact ih r hlt h
    · cases h

/-- What the guarded loop with factors ends with, the run ends with. -/
theorem fix_cofactorStep {result : LimbInt × LimbInt} (h : cofactorFrom a b s t = some result) :
    PFun.fix cofactorStep (a, b, s, t) = Part.some result := by
  fun_induction cofactorFrom a b s t with
  | case1 a b s t hzero =>
    obtain rfl := Option.some.inj h
    exact fix_stop (if_pos hzero)
  | case2 a b s t hzero ih =>
    obtain ⟨⟨q, r⟩, hdivRem, h⟩ := Option.bind_eq_some_iff.mp h
    have hstep : cofactorStep (a, b, s, t) = Part.some (.inr (b, r, t, s.sub (q.mul t))) := by
      rw [cofactorStep, if_neg hzero, hdivRem]
      exact Part.bind_some _ _
    rw [fix_next hstep]
    dsimp only at h
    split at h
    · next hlt => exact ih q r hlt h
    · cases h

/-- Of canonical integers, the run of remainders ends with their greatest common divisor. -/
theorem gcd_eq (ha : a.Canonical) (hb : b.Canonical) : gcd a b = Part.some (a.gcd b) := by
  obtain ⟨g, hend, -⟩ := exists_gcdFrom ha.denotes.natAbs hb.denotes.natAbs
  rw [gcd, fix_gcdStep hend, LimbInt.gcd, hend]
  rfl

/-- Of canonical integers, the run with factors ends, and it gives the inverse if there is one. -/
theorem inverse_eq (ha : a.Canonical) (hm : m.Canonical) :
    inverse a m = Part.some (a.inverse? m) := by
  have hmodulus := hm.denotes.abs
  unfold inverse LimbInt.inverse?
  dsimp only
  by_cases hzero : m.abs.isZero = true
  · rw [if_pos hzero, ha.denotes.toOption_umod hmodulus, if_pos (hmodulus.isZero_iff.mp hzero)]
    rfl
  · have hne := mt hmodulus.isZero_iff.mpr hzero
    rw [if_neg hzero, ha.denotes.toOption_umod hmodulus, if_neg hne]
    -- the bounded loop ends on the rest and the modulus, and so does the run on them
    obtain ⟨g, x, hend, -, hx⟩ := exists_cofactorFrom (denotes_emod a.toInt hne)
      hm.denotes.natAbs denotes_one denotes_zero
    simp only [Option.bind_eq_bind, Option.bind_some, Part.bind_eq_bind, Part.ofOption,
      Part.bind_some, hend, fix_cofactorStep hend]
    split
    · rw [hx.toOption_umod hmodulus, if_neg hne]
      exact Part.bind_some _ _
    · rfl

end Unbounded

/-- Euclid's algorithm is exact for integers of any sign. The run of remainders ends, with the
greatest common divisor of the magnitudes, which is not negative. The run with factors ends too; it
gives an inverse exactly if the modulus is not zero and shares no factor with the number. The
inverse is below the magnitude of the modulus and not negative, and modulo this magnitude its
product with the number is one. -/
theorem euclid_exact (ha : a.Canonical) (hm : m.Canonical) :
    (Unbounded.gcd a m = Part.some (a.gcd m) ∧ (a.gcd m).Canonical ∧
      (a.gcd m).toInt = Int.gcd a.toInt m.toInt) ∧
    Unbounded.inverse a m = Part.some (a.inverse? m) ∧
    ((∃ x, a.inverse? m = some x) ↔ m.toInt ≠ 0 ∧ Int.gcd a.toInt m.toInt = 1) ∧
    ∀ x, a.inverse? m = some x →
      x.Canonical ∧ 0 ≤ x.toInt ∧ x.toInt < |m.toInt| ∧
        a.toInt * x.toInt ≡ 1 [ZMOD |m.toInt|] := by
  have hgcd := ha.denotes.gcd hm.denotes
  have hinverse := ha.denotes.inverse?_eq hm.denotes
  refine ⟨⟨Unbounded.gcd_eq ha hm, hgcd.canonical, hgcd.toInt_eq⟩, Unbounded.inverse_eq ha hm,
    ?_, ?_⟩
  · simp only [hinverse, Option.map_eq_some_iff]
    constructor
    · rintro ⟨-, z, hz, -⟩
      exact Number.gcd_of_inverse? hz
    · rintro ⟨hne, hone⟩
      obtain ⟨z, hz⟩ := Number.exists_inverse? hne hone
      exact ⟨_, z, hz, rfl⟩
  · intro x hx
    rw [hinverse, Option.map_eq_some_iff] at hx
    obtain ⟨z, hz, rfl⟩ := hx
    obtain ⟨hnonneg, hlt, hdvd⟩ := Number.mul_of_inverse? hz
    have hform := denotes_ofInt z
    rw [hform.toInt_eq, Int.abs_eq_natAbs]
    refine ⟨hform.canonical, hnonneg, hlt, ?_⟩
    exact (Int.modEq_iff_dvd.mpr (Int.natAbs_dvd.mpr hdvd)).symm

/-- Two is the inverse of minus three modulo minus seven. -/
theorem euclid_exact_negative :
    (ofInt (-3)).Canonical ∧ (ofInt (-7)).Canonical ∧
      Unbounded.inverse (ofInt (-3)) (ofInt (-7)) = Part.some (some (ofInt 2)) := by
  have ha : (ofInt (-3)).Canonical := (denotes_ofInt _).canonical
  have hm : (ofInt (-7)).Canonical := (denotes_ofInt _).canonical
  have hinverse : (ofInt (-3)).inverse? (ofInt (-7)) = some (ofInt 2) := by decide +kernel
  exact ⟨ha, hm, (euclid_exact ha hm).2.1.trans (congrArg Part.some hinverse)⟩

end Secp.LimbInt
