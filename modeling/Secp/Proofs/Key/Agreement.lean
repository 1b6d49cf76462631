import Secp.Proofs.Key.Public

/-!
# Shared secrets

A private key and the other side's point give a shared secret. A finite point of the curve is an
element of the group other than zero, and its multiple by a scalar is one too, since the order of
the group is a prime above the scalar. Every other point is refused before it is multiplied. The
two sides of an agreement find the same point, as their scalars commute on the generator.
-/

namespace Secp

open Curve

namespace PrivateKey

/-- With an element of the group the shared secret is its multiple. -/
theorem sharedSecret_of_element (key : PrivateKey) {other : PublicKey} {g : PointGroup}
    (hg : g ≠ 0) (hpoint : other.point = .ofGroup g) :
    key.sharedSecret other = .ok (.ofGroup (key.scalar.val • g)) := by
  obtain ⟨hfinite, hcurve⟩ := PublicKey.hasElement_iff.mp ⟨g, hg, hpoint⟩
  have hmul : other.base.mul key.scalar.val = .ofGroup (key.scalar.val • g) := by
    rw [Base.mul_eq hpoint, natCast_zsmul]
  simp only [sharedSecret, hfinite, hcurve, hmul]
  rfl

/-- A point that is no element of the group, or its zero, is refused. -/
theorem sharedSecret_of_not_hasElement (key : PrivateKey) {other : PublicKey}
    (h : ¬other.HasElement) : key.sharedSecret other = .error .invalidPoint := by
  rw [PublicKey.hasElement_iff, not_and_or, Bool.not_eq_false] at h
  apply if_pos
  rcases h with hinfinite | hoff
  · simp [hinfinite]
  · simp [hoff]

/-- The multiple of an element other than zero is a finite point of the curve. -/
theorem finite_of_multiple (key : PrivateKey) {g : PointGroup} (hg : g ≠ 0) :
    (Affine.ofGroup (key.scalar.val • g)).isInfinity = false ∧
      (Affine.ofGroup (key.scalar.val • g)).onCurve = true := by
  refine ⟨?_, Affine.onCurve_ofGroup _⟩
  rw [← Bool.not_eq_true, Affine.isInfinity_ofGroup]
  exact key.scalar.multiple_ne_zero hg

/-- The secret shared with the holder of another private key. -/
theorem sharedSecret_ofPrivate (key other : PrivateKey) :
    key.sharedSecret (.ofPrivate other) =
      .ok (.ofGroup (key.scalar.val • other.scalar.val • generatorElement)) := by
  apply sharedSecret_of_element key _ (PublicKey.point_ofPrivate other)
  exact other.scalar.multiple_ne_zero generatorElement_ne_zero

/-- Two holders of private keys share a finite point of the curve. With any public key whatever, the
shared secret is the multiple of its point, again a finite point of the curve, if that is a finite
point of the curve, and is refused otherwise. -/
theorem shared_secrets_agree :
    (∀ a b : PrivateKey, ∃ p, a.sharedSecret (.ofPrivate b) = .ok p ∧
      b.sharedSecret (.ofPrivate a) = .ok p ∧ p.isInfinity = false ∧ p.onCurve = true) ∧
    ∀ (key : PrivateKey) (other : PublicKey),
      (other.point.isInfinity = false ∧ other.point.onCurve = true →
        ∃ p, key.sharedSecret other = .ok p ∧ p.isInfinity = false ∧ p.onCurve = true ∧
          p.toGroup = key.scalar.val • other.point.toGroup) ∧
      (other.point.isInfinity = true ∨ other.point.onCurve = false →
        key.sharedSecret other = .error .invalidPoint) := by
  constructor
  · intro a b
    have hne := b.scalar.multiple_ne_zero generatorElement_ne_zero
    refine ⟨_, sharedSecret_ofPrivate a b, ?_, finite_of_multiple a hne⟩
    rw [sharedSecret_ofPrivate, smul_comm]
  · intro key other
    constructor
    · intro h
      obtain ⟨g, hg, hpoint⟩ := PublicKey.hasElement_iff.mpr h
      obtain ⟨hfinite, hcurve⟩ := finite_of_multiple key hg
      refine ⟨_, sharedSecret_of_element key hg hpoint, hfinite, hcurve, ?_⟩
      rw [hpoint, Affine.toGroup_ofGroup, Affine.toGroup_ofGroup]
    · intro h
      apply sharedSecret_of_not_hasElement
      rw [PublicKey.hasElement_iff, not_and_or, Bool.not_eq_false, Bool.not_eq_true]
      exact h

/-- The holders of the private keys one and its opposite share a point. The holder of the first
refuses a pair off the curve that was wrapped unchecked, and infinity. -/
theorem shared_secrets_agree_opposite :
    (∃ p, (⟨Ecdsa.scalarOne⟩ : PrivateKey).sharedSecret (.ofPrivate ⟨Ecdsa.scalarOne.neg⟩) = .ok p ∧
      (⟨Ecdsa.scalarOne.neg⟩ : PrivateKey).sharedSecret (.ofPrivate ⟨Ecdsa.scalarOne⟩) = .ok p) ∧
    (⟨Ecdsa.scalarOne⟩ : PrivateKey).sharedSecret ⟨Affine.ofResidues 14 16⟩ =
      .error .invalidPoint ∧
    (⟨Ecdsa.scalarOne⟩ : PrivateKey).sharedSecret ⟨Affine.infinity⟩ = .error .invalidPoint := by
  obtain ⟨hagree, hany⟩ := shared_secrets_agree
  obtain ⟨p, hp, hp', -⟩ := hagree ⟨Ecdsa.scalarOne⟩ ⟨Ecdsa.scalarOne.neg⟩
  have hoff : (Affine.ofResidues 14 16).onCurve = false := by decide +kernel
  exact ⟨⟨p, hp, hp'⟩, (hany _ ⟨Affine.ofResidues 14 16⟩).2 (.inr hoff),
    (hany _ ⟨Affine.infinity⟩).2 (.inl rfl)⟩

end PrivateKey

end Secp
