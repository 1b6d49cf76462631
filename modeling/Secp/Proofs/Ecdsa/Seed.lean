import Mathlib.Data.Int.ModEq
import Secp.Ecdsa.Sign
import Secp.Proofs.Bytes

/-!
# Which digests share a seed

Signing seeds its generator with the key and with the magnitude of the reduced digest, each in 32
bytes. A reduced digest has a magnitude of at most 256 bits, so no digit is lost, but its sign is:
two digests that differ modulo the order share a seed exactly when their reduced forms are opposite.
Digests that are not negative never are.
-/

namespace Secp.Ecdsa

open Curve (order Scalar)

/-- The order has 256 bits. -/
theorem bitLength_order : Number.bitLength order = 256 := by decide

/-- The leading bits of a digest fit in 32 bytes. -/
theorem natAbs_leadingBits_lt (digest : Int) : (leadingBits digest).natAbs < 256 ^ 32 := by
  have hpow : (256 : Nat) ^ 32 = 2 ^ 256 := by decide
  have hbits := Number.lt_two_pow_bitLength digest.natAbs
  have hlength : Number.bitLength digest.natAbs ≤ 8 * Number.byteLength digest.natAbs := by
    unfold Number.byteLength
    omega
  have hlt := hbits.trans_le <| Nat.pow_le_pow_right (by decide) hlength
  unfold leadingBits
  dsimp only
  rw [bitLength_order, hpow]
  split
  · next hexcess =>
    rwa [Int.natAbs_natCast, Nat.div_lt_iff_lt_mul (Nat.two_pow_pos _), ← Nat.pow_add,
      Nat.add_sub_of_le (by omega)]
  · next hexcess =>
    exact hlt.trans_le <| Nat.pow_le_pow_right (by decide) (by omega)

/-- A reduced digest fits in 32 bytes. -/
theorem natAbs_reduceDigest_lt (digest : Int) : (reduceDigest digest).natAbs < 256 ^ 32 := by
  have hlt := natAbs_leadingBits_lt digest
  unfold reduceDigest
  dsimp only
  split <;> omega

/-- A digest that is not negative has leading bits that are not. -/
theorem leadingBits_nonneg {digest : Int} (h : 0 ≤ digest) : 0 ≤ leadingBits digest := by
  unfold leadingBits
  dsimp only
  split
  · exact Int.natCast_nonneg _
  · exact h

/-- A digest that is not negative stays so when it is reduced. -/
theorem reduceDigest_nonneg {digest : Int} (h : 0 ≤ digest) : 0 ≤ reduceDigest digest := by
  have hleading := leadingBits_nonneg h
  unfold reduceDigest
  dsimp only
  split <;> omega

/-- A reduced digest is below the order. -/
theorem reduceDigest_lt_order (digest : Int) : reduceDigest digest < order := by
  have hlt := natAbs_leadingBits_lt digest
  have htwice : 256 ^ 32 ≤ 2 * order := by decide
  unfold reduceDigest
  dsimp only
  split <;> omega

/-- Under one key, two digests have the same seed exactly when the magnitudes of their reduced forms
agree. -/
theorem seedParts_eq_iff {m₁ m₂ : Int} (key : Scalar) :
    seedParts (reduceDigest m₁) key = seedParts (reduceDigest m₂) key ↔
      (reduceDigest m₁).natAbs = (reduceDigest m₂).natAbs := by
  simp only [seedParts, Prod.mk.injEq, true_and]
  exact Bytes.bigEndian_inj (natAbs_reduceDigest_lt m₁) (natAbs_reduceDigest_lt m₂)

/-- Digests that are not negative and have opposite reduced forms have the same reduced form. -/
theorem reduceDigest_eq_of_opposite {m₁ m₂ : Int} (h₁ : 0 ≤ m₁) (h₂ : 0 ≤ m₂)
    (hopposite : reduceDigest m₁ = -reduceDigest m₂) : reduceDigest m₁ = reduceDigest m₂ := by
  have := reduceDigest_nonneg h₁
  have := reduceDigest_nonneg h₂
  omega

/-- Two digests that differ modulo the order have different seeds under one key exactly when their
reduced forms are not opposite, and so always when neither is negative. -/
theorem seeds_differ_iff {m₁ m₂ : Int} (key : Scalar)
    (hdiffer : ¬ reduceDigest m₁ ≡ reduceDigest m₂ [ZMOD order]) :
    (seedParts (reduceDigest m₁) key ≠ seedParts (reduceDigest m₂) key ↔
        reduceDigest m₁ ≠ -reduceDigest m₂) ∧
      (0 ≤ m₁ → 0 ≤ m₂ → seedParts (reduceDigest m₁) key ≠ seedParts (reduceDigest m₂) key) := by
  have hne : reduceDigest m₁ ≠ reduceDigest m₂ := fun hsame ↦
    hdiffer (congrArg (· % (order : Int)) hsame)
  have hiff : seedParts (reduceDigest m₁) key ≠ seedParts (reduceDigest m₂) key ↔
      reduceDigest m₁ ≠ -reduceDigest m₂ := by
    rw [ne_eq, ne_eq, not_iff_not, seedParts_eq_iff, Int.natAbs_eq_natAbs_iff]
    exact or_iff_right hne
  refine ⟨hiff, fun h₁ h₂ ↦ hiff.mpr fun hopposite ↦ ?_⟩
  exact hne (reduceDigest_eq_of_opposite h₁ h₂ hopposite)

/-- The digests one and two differ modulo the order, are not opposite, and have different seeds
under the key one. -/
theorem seeds_differ_one_two :
    ¬ reduceDigest 1 ≡ reduceDigest 2 [ZMOD order] ∧ reduceDigest 1 ≠ -reduceDigest 2 ∧
      seedParts (reduceDigest 1) ⟨1, by decide, by decide⟩ ≠
        seedParts (reduceDigest 2) ⟨1, by decide, by decide⟩ := by
  have hdiffer : ¬ reduceDigest 1 ≡ reduceDigest 2 [ZMOD order] := by decide
  have hopposite : reduceDigest 1 ≠ -reduceDigest 2 := by decide
  exact ⟨hdiffer, hopposite, (seeds_differ_iff _ hdiffer).1.mpr hopposite⟩

/-- The digests one and minus one differ modulo the order and yet have the same seed under the key
one. -/
theorem opposite_digests_share_seed :
    ¬ reduceDigest 1 ≡ reduceDigest (-1) [ZMOD order] ∧
      seedParts (reduceDigest 1) ⟨1, by decide, by decide⟩ =
        seedParts (reduceDigest (-1)) ⟨1, by decide, by decide⟩ := by
  constructor <;> decide +kernel

end Secp.Ecdsa
