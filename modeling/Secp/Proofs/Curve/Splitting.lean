import Mathlib.Data.Int.ModEq
import Secp.Proofs.Curve.Endomorphism
import Secp.Proofs.LimbInt.Quotient
import Secp.Proofs.Number.Rounding

/-!
# The parts of a split scalar are short

The determinant of the short basis is the order, so the coordinates that are rounded are those of
`(k, 0)` in the basis, times the order. What is left of `(k, 0)` is therefore, times the order, the
sum of the basis vectors weighted by the two residues of rounding, each at most half the order. A
part is at most half of what the basis vectors have in that place together, which is less than
`2 ^ 128`, however wide the scalar is. On integers of limbs every step has a result, and the parts
are the same.
-/

namespace Secp.Curve

/-- The determinant of the short basis is the order. -/
theorem det_shortVectors :
    shortVector₁.scalar * shortVector₂.lambdaPart - shortVector₂.scalar * shortVector₁.lambdaPart =
      order := by
  decide +kernel

/-- What rounding the first coordinate of a scalar leaves. -/
def residue₁ (k : Int) : Int :=
  shortVector₂.lambdaPart * k - order * Number.divRound (shortVector₂.lambdaPart * k) order

/-- What rounding the second coordinate of a scalar leaves. -/
def residue₂ (k : Int) : Int :=
  -shortVector₁.lambdaPart * k - order * Number.divRound (-shortVector₁.lambdaPart * k) order

/-- What rounding leaves is at most half the order. -/
theorem two_mul_natAbs_residue_le (k : Int) :
    2 * (residue₁ k).natAbs ≤ order ∧ 2 * (residue₂ k).natAbs ≤ order := by
  have horder : (order : Int) ≠ 0 := by decide
  exact ⟨Number.two_mul_natAbs_sub_le _ horder, Number.two_mul_natAbs_sub_le _ horder⟩

/-- The order times the first part is made up of the basis vectors, weighted by the residues. -/
theorem order_mul_split_fst (k : Int) :
    order * (split k).1 = residue₁ k * shortVector₁.scalar + residue₂ k * shortVector₂.scalar := by
  rw [residue₁, residue₂, split]
  dsimp only
  generalize Number.divRound _ _ = c₁
  generalize Number.divRound _ _ = c₂
  linear_combination -k * det_shortVectors

/-- The order times the second part is made up of the basis vectors, weighted by the residues. -/
theorem order_mul_split_snd (k : Int) :
    order * (split k).2 =
      residue₁ k * shortVector₁.lambdaPart + residue₂ k * shortVector₂.lambdaPart := by
  rw [residue₁, residue₂, split]
  dsimp only
  generalize Number.divRound _ _ = c₁
  generalize Number.divRound _ _ = c₂
  ring

/-- A sum weighted by at most halves of a number is that number times at most half of the sum of the
magnitudes. -/
theorem two_mul_natAbs_le_of_weighted {n : Nat} (hn : 0 < n) {x a b e f : Int}
    (he : 2 * e.natAbs ≤ n) (hf : 2 * f.natAbs ≤ n) (h : n * x = e * a + f * b) :
    2 * x.natAbs ≤ a.natAbs + b.natAbs := by
  refine Nat.le_of_mul_le_mul_left ?_ hn
  calc n * (2 * x.natAbs) = 2 * (n * x : Int).natAbs := by
        rw [Int.natAbs_mul, Int.natAbs_natCast, Nat.mul_left_comm]
    _ ≤ 2 * (e.natAbs * a.natAbs + f.natAbs * b.natAbs) := by
        rw [h, ← Int.natAbs_mul, ← Int.natAbs_mul]
        exact Nat.mul_le_mul_left 2 (Int.natAbs_add_le _ _)
    _ = 2 * e.natAbs * a.natAbs + 2 * f.natAbs * b.natAbs := by
        rw [Nat.mul_add, Nat.mul_assoc, Nat.mul_assoc]
    _ ≤ n * a.natAbs + n * b.natAbs :=
        Nat.add_le_add (Nat.mul_le_mul_right _ he) (Nat.mul_le_mul_right _ hf)
    _ = n * (a.natAbs + b.natAbs) := (Nat.mul_add _ _ _).symm

/-- Each part is at most half of what the basis vectors have in its place. -/
theorem two_mul_natAbs_split_le (k : Int) :
    2 * (split k).1.natAbs ≤ shortVector₁.scalar.natAbs + shortVector₂.scalar.natAbs ∧
      2 * (split k).2.natAbs ≤ shortVector₁.lambdaPart.natAbs + shortVector₂.lambdaPart.natAbs := by
  have horder : 0 < order := by decide
  obtain ⟨h₁, h₂⟩ := two_mul_natAbs_residue_le k
  exact ⟨two_mul_natAbs_le_of_weighted horder h₁ h₂ (order_mul_split_fst k),
    two_mul_natAbs_le_of_weighted horder h₁ h₂ (order_mul_split_snd k)⟩

/-- The split of an integer of limbs, operation by operation. Only the two divisions could be
refused. -/
def splitLimbs (k : LimbInt) : Except Error (LimbInt × LimbInt) := do
  let a₁ := LimbInt.ofInt shortVector₁.scalar
  let b₁ := LimbInt.ofInt shortVector₁.lambdaPart
  let a₂ := LimbInt.ofInt shortVector₂.scalar
  let b₂ := LimbInt.ofInt shortVector₂.lambdaPart
  let c₁ ← (b₂.mul k).divRound (.ofInt order)
  let c₂ ← (b₁.neg.mul k).divRound (.ofInt order)
  .ok ((k.sub (c₁.mul a₁)).sub (c₂.mul a₂), ((c₁.mul b₁).add (c₂.mul b₂)).neg)

/-- On integers of limbs the split has a result, and the parts denote those of the number. -/
theorem splitLimbs_ofInt (k : Int) :
    splitLimbs (.ofInt k) = .ok (.ofInt (split k).1, .ofInt (split k).2) := by
  have horder : (order : Int) ≠ 0 := by decide
  have denotes := LimbInt.denotes_ofInt
  have hc₁ := (((denotes shortVector₂.lambdaPart).mul (denotes k)).divRound_eq_ok_iff
    (denotes order)).mpr ⟨horder, denotes _⟩
  have hc₂ := (((denotes shortVector₁.lambdaPart).neg.mul (denotes k)).divRound_eq_ok_iff
    (denotes order)).mpr ⟨horder, denotes _⟩
  rw [splitLimbs, hc₁, ok_bind, hc₂, ok_bind, split]
  dsimp only
  generalize Number.divRound _ _ = c₁
  generalize Number.divRound _ _ = c₂
  have hfst := ((denotes k).sub ((denotes c₁).mul (denotes shortVector₁.scalar))).sub
    ((denotes c₂).mul (denotes shortVector₂.scalar))
  have hsnd := (((denotes c₁).mul (denotes shortVector₁.lambdaPart)).add
    ((denotes c₂).mul (denotes shortVector₂.lambdaPart))).neg
  rw [(hfst.eq_iff (denotes _)).mpr rfl, (hsnd.eq_iff (denotes _)).mpr rfl]

/-- The parts of a split scalar make up the scalar modulo the order, and each has at most 128 bits.
On integers of limbs the split has a result for every scalar, with these parts. -/
theorem split_parts_short (k : Int) :
    (split k).1 + (split k).2 * lambda ≡ k [ZMOD order] ∧
      |(split k).1| < 2 ^ 128 ∧ |(split k).2| < 2 ^ 128 ∧
      splitLimbs (.ofInt k) = .ok (.ofInt (split k).1, .ofInt (split k).2) := by
  obtain ⟨hfst, hsnd⟩ := two_mul_natAbs_split_le k
  have hscalar : shortVector₁.scalar.natAbs + shortVector₂.scalar.natAbs < 2 * 2 ^ 128 := by decide
  have hlambda : shortVector₁.lambdaPart.natAbs + shortVector₂.lambdaPart.natAbs < 2 * 2 ^ 128 := by
    decide
  refine ⟨?_, ?_, ?_, splitLimbs_ofInt k⟩
  · exact (ZMod.intCast_eq_intCast_iff _ _ order).mp (split_fst_add_snd_mul_lambda k)
  · rw [Int.abs_eq_natAbs]
    omega
  · rw [Int.abs_eq_natAbs]
    omega

end Secp.Curve
