import Secp.Curve.Scalar
import Secp.Proofs.Curve.Primes

/-!
# Scalars and the numbers they stand for

A number below the order is a scalar unless it is zero. The opposite of a scalar is its opposite
modulo the order, and one of the two is at most half the order.
-/

namespace Secp.Curve.Scalar

/-- An integer is accepted as the scalar that it is the value of. -/
theorem ofInt?_eq_some_iff {k : Int} {s : Scalar} : ofInt? k = some s ↔ k = s.val := by
  have hpos := s.pos
  have hlt := s.lt
  unfold ofInt?
  split
  · next h =>
    constructor
    · rintro ⟨⟩
      exact (Int.toNat_of_nonneg (by omega)).symm
    · rintro rfl
      rfl
  · next h =>
    refine ⟨nofun, ?_⟩
    rintro rfl
    exact absurd ⟨hpos, hlt⟩ h

/-- A number is accepted as the scalar that it is the value of. -/
theorem ofInt?_natCast_eq_some_iff {n : Nat} {s : Scalar} : ofInt? n = some s ↔ s.val = n := by
  rw [ofInt?_eq_some_iff, Int.ofNat_inj, eq_comm]

/-- A refusal is named, and nothing else changes. -/
theorem ofInt_eq_ok_iff {fault : RangeFault} {k : Int} {s : Scalar} :
    ofInt fault k = .ok s ↔ k = s.val := by
  rw [← ofInt?_eq_some_iff, ofInt]
  cases ofInt? k with
  | none => exact ⟨nofun, nofun⟩
  | some s' => rw [Except.ok.injEq, Option.some.injEq]

/-- There is a scalar for a number below the order other than zero. -/
theorem exists_val_eq_iff {n : Nat} (hlt : n < order) : (∃ s : Scalar, s.val = n) ↔ n ≠ 0 := by
  constructor
  · rintro ⟨s, rfl⟩
    exact Nat.ne_of_gt s.pos
  · intro h
    exact ⟨⟨n, Nat.pos_of_ne_zero h, hlt⟩, rfl⟩

/-- The opposite scalar is the opposite modulo the order. -/
theorem cast_neg (s : Scalar) : (s.neg.val : ZMod order) = -(s.val : ZMod order) := by
  rw [neg, Nat.cast_sub s.lt.le, ZMod.natCast_self, zero_sub]

/-- The low one of a scalar and its opposite is at most half the order. -/
theorem two_mul_toLow_le (s : Scalar) : 2 * s.toLow.val ≤ order := by
  unfold toLow
  split
  · next h =>
    have hle : s.val ≤ order / 2 := of_decide_eq_true h
    omega
  · next h =>
    have hlt : ¬s.val ≤ order / 2 := fun hle ↦ h (decide_eq_true hle)
    have hval : s.neg.val = order - s.val := rfl
    omega

end Secp.Curve.Scalar
