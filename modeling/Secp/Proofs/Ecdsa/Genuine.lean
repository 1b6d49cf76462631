import Secp.Ecdsa.Verify
import Secp.Proofs.Curve.Multiples

/-!
# Genuine signatures

A signature is genuine for a key when some point, whose abscissa is the first part modulo the order,
taken as often as the second part says makes up the digest times the generator and the first part
times the key. Verification decides this relation: as the second part has an inverse, the equation
has one solution, which is the point that is computed.
-/

namespace Secp.Curve

/-- A scalar is not zero modulo the order. -/
theorem Scalar.cast_ne_zero (s : Scalar) : (s.val : ZMod order) ≠ 0 := by
  rw [ne_eq, ZMod.natCast_eq_zero_iff]
  exact Nat.not_dvd_of_pos_of_lt s.pos s.lt

/-- A scalar has an inverse modulo the order. -/
theorem Scalar.exists_inverse? (s : Scalar) :
    ∃ w, Number.inverse? s.val order = some w ∧ (w : ZMod order) = (s.val : ZMod order)⁻¹ := by
  have hgcd : Int.gcd s.val order = 1 := by
    rw [Int.gcd_natCast_natCast, Nat.gcd_comm]
    exact prime_order.coprime_iff_not_dvd.mpr (Nat.not_dvd_of_pos_of_lt s.pos s.lt)
  obtain ⟨w, hw⟩ := Number.exists_inverse? (by decide : (order : Int) ≠ 0) hgcd
  refine ⟨w, hw, eq_inv_of_mul_eq_one_right ?_⟩
  have hdvd := (Number.mul_of_inverse? hw).2.2
  rw [← ZMod.intCast_zmod_eq_zero_iff_dvd] at hdvd
  push_cast at hdvd
  exact sub_eq_zero.mp hdvd

/-- The generator with its tables is the generator. -/
theorem Base.point_generator : Base.generator.point = .ofGroup generatorElement :=
  ofGroup_generatorElement.symm

end Secp.Curve

namespace Secp.Ecdsa

open Curve

/-- The element is finite, and its abscissa is `r` modulo the order. -/
def HasResidue (r : Nat) : PointGroup → Prop
  | .zero => False
  | .some x _ _ => x.val % order = r

/-- The point of the nonce, the key and the digest fit the signature. -/
def Balanced (digest : Int) (sig : Signature) (nonce key : PointGroup) : Prop :=
  (sig.s.val : ZMod order) • nonce =
    (reduceDigest digest : ZMod order) • generatorElement + (sig.r.val : ZMod order) • key

/-- The key is finite, and some point with the right abscissa fits the signature. -/
def Genuine (digest : Int) (sig : Signature) (key : PointGroup) : Prop :=
  key ≠ 0 ∧ ∃ nonce, HasResidue sig.r.val nonce ∧ Balanced digest sig nonce key

/-- There is exactly one point that fits a signature and a key. -/
theorem balanced_iff_nonce {digest : Int} {sig : Signature} {nonce key : PointGroup} :
    Balanced digest sig nonce key ↔
      nonce = (sig.s.val : ZMod order)⁻¹ •
        ((reduceDigest digest : ZMod order) • generatorElement +
          (sig.r.val : ZMod order) • key) :=
  (eq_inv_smul_iff₀ sig.s.cast_ne_zero).symm

/-- There is exactly one key that fits a signature and a point. -/
theorem balanced_iff_key {digest : Int} {sig : Signature} {nonce key : PointGroup} :
    Balanced digest sig nonce key ↔
      key = (sig.r.val : ZMod order)⁻¹ •
        ((sig.s.val : ZMod order) • nonce -
          (reduceDigest digest : ZMod order) • generatorElement) := by
  rw [eq_inv_smul_iff₀ sig.r.cast_ne_zero, eq_sub_iff_add_eq, add_comm, eq_comm]
  rfl

/-- A sum of multiples with reduced integers is one with scalars of the field. -/
theorem mulAdd_generator {b : Base} {g : PointGroup} (hb : b.point = .ofGroup g) {k l : Int}
    {u v : ZMod order} (hk : (k : ZMod order) = u) (hl : (l : ZMod order) = v) :
    Base.generator.mulAdd k b l = .ofGroup (u • generatorElement + v • g) := by
  rw [Base.mulAdd_eq Base.point_generator hb, ← hk, ← hl, Int.cast_smul_eq_zsmul,
    Int.cast_smul_eq_zsmul]

/-- The sum that verification computes is the point that fits. -/
theorem mulAdd_balanced (digest : Int) {w : Int} {sig : Signature} {key : Base} {g : PointGroup}
    (hkey : key.point = .ofGroup g) (hw : (w : ZMod order) = (sig.s.val : ZMod order)⁻¹) :
    ∃ nonce, Balanced digest sig nonce g ∧
      Base.generator.mulAdd (w * reduceDigest digest % order) key (w * sig.r.val % order) =
        .ofGroup nonce := by
  refine ⟨_, balanced_iff_nonce.mpr rfl, ?_⟩
  rw [smul_add, smul_smul, smul_smul]
  apply mulAdd_generator hkey
  · rw [ZMod.intCast_mod, Int.cast_mul, hw]
  · rw [ZMod.intCast_mod, Int.cast_mul, hw, Int.cast_natCast]

/-- Verification decides whether a signature is genuine for the key. -/
theorem verify_iff {digest : Int} {sig : Signature} {key : Base} :
    verify digest sig key = true ↔ ∃ g, key.point = .ofGroup g ∧ Genuine digest sig g := by
  unfold verify
  split
  · next hbad =>
    refine ⟨nofun, ?_⟩
    rintro ⟨g, hg, hne, -⟩
    rw [hg, Affine.onCurve_ofGroup, Bool.not_true, Bool.or_false, Affine.isInfinity_ofGroup] at hbad
    exact absurd hbad hne
  · next hgood =>
    rw [Bool.or_eq_true, not_or, Bool.not_eq_true', Bool.not_eq_false] at hgood
    obtain ⟨hfinite, hcurve⟩ := hgood
    obtain ⟨g, hg⟩ := Affine.onCurve_iff_exists.mp hcurve
    rw [hg, Affine.isInfinity_ofGroup] at hfinite
    obtain ⟨w, hw, hinv⟩ := sig.s.exists_inverse?
    obtain ⟨nonce, hbalanced, hsum⟩ := mulAdd_balanced digest hg hinv
    -- The key is one element, and only one point fits it.
    have hunique : (∃ g', key.point = .ofGroup g' ∧ Genuine digest sig g') ↔
        HasResidue sig.r.val nonce := by
      constructor
      · rintro ⟨g', hg', -, nonce', hresidue, hbalanced'⟩
        obtain rfl := Affine.ofGroup_inj.mp (hg.symm.trans hg')
        rwa [balanced_iff_nonce.mp hbalanced, ← balanced_iff_nonce.mp hbalanced']
      · intro hresidue
        exact ⟨g, hg, hfinite, nonce, hresidue, hbalanced⟩
    rw [hunique, hw]
    dsimp only
    rw [hsum]
    cases nonce with
    | zero => exact ⟨nofun, nofun⟩
    | some x y h => exact decide_eq_true_iff

end Secp.Ecdsa
