import Secp.Curve.Tables
import Secp.Proofs.Curve.Endomorphism
import Secp.Proofs.Curve.FixedBase
import Secp.Proofs.Curve.JointSum

/-!
# Tables of a point hold its multiples

The table of doubles has an entry for every piece of a scalar of up to 263 bits, and the tables of
odd multiples hold those of the point and of `lambda` times the point. The images under the
endomorphism are taken of coordinates, which is right as no odd multiple in the table is infinity:
the order is a prime beyond the window.
-/

namespace Secp.Curve

/-- A small number of times a finite element is finite. -/
theorem nsmul_ne_zero {g : PointGroup} (hg : g ≠ 0) {n : Nat} (hn : n ≠ 0) (hlt : n < order) :
    n • g ≠ 0 := by
  rw [← Nat.cast_smul_eq_nsmul (ZMod order)]
  refine smul_ne_zero ?_ hg
  rw [ne_eq, ZMod.natCast_eq_zero_iff]
  exact Nat.not_dvd_of_pos_of_lt (Nat.pos_of_ne_zero hn) hlt

namespace OddMultiples

/-- Adding the double again and again runs through the odd multiples. -/
theorem getElem?_ascending {twice p : Jacobian} {g h : PointGroup} (htwice : twice.Denotes h)
    (hp : p.Denotes g) {count i : Nat} (hi : i < count) :
    ∃ q, (ascending twice count p)[i]? = some q ∧ q.Denotes (g + i • h) := by
  induction i generalizing p g count with
  | zero =>
    obtain ⟨count, rfl⟩ : ∃ c, count = c + 1 := ⟨count - 1, by omega⟩
    exact ⟨p, rfl, by rwa [zero_nsmul, add_zero]⟩
  | succ i ih =>
    obtain ⟨count, rfl⟩ : ∃ c, count = c + 1 := ⟨count - 1, by omega⟩
    obtain ⟨q, hq, hdenotes⟩ := ih (hp.add htwice) (Nat.lt_of_succ_lt_succ hi)
    refine ⟨q, hq, ?_⟩
    rwa [succ_nsmul', ← add_assoc]

/-- The table of a window holds the odd multiples that its digits can name. -/
theorem hold_ofWindow (window : Nat) (g : PointGroup) :
    Hold (2 ^ (window - 2)) g (.jacobian (ofWindow window (.ofGroup g))) := by
  intro i hi
  have hg := Jacobian.denotes_ofAffine g
  obtain ⟨q, hq, hdenotes⟩ := getElem?_ascending hg.dbl hg hi
  refine ⟨q, hq, ?_⟩
  rwa [← two_nsmul, ← mul_nsmul', ← succ_nsmul', mul_comm] at hdenotes

/-- Multiplying the abscissas of a table by `beta` gives the odd multiples of the image. -/
theorem Hold.map_endomorphism {count : Nat} {g : PointGroup} {points : List Jacobian}
    (h : Hold count g (.jacobian points)) :
    Hold count (lambda • g) (.jacobian (points.map Jacobian.endomorphism)) := by
  intro i hi
  obtain ⟨q, hq, hdenotes⟩ := h i hi
  refine ⟨q.endomorphism, by rw [List.getElem?_map, hq]; rfl, ?_⟩
  rw [nsmul_left_comm]
  exact hdenotes.endomorphism

/-- Affine forms of a table hold the same multiples. -/
theorem Hold.map_toAffine {count : Nat} {g : PointGroup} {points : List Jacobian}
    (h : Hold count g (.jacobian points)) :
    Hold count g (.affine (points.map Jacobian.toAffine)) := by
  intro i hi
  obtain ⟨q, hq, hdenotes⟩ := h i hi
  rw [List.getElem?_map, hq, ← hdenotes.toAffine]
  rfl

/-- Multiplying the abscissas of a table of affine points by `beta` gives the odd multiples of the
image, as no point of the table is infinity. -/
theorem Hold.map_beta {count : Nat} {g : PointGroup} {points : List Affine} (hg : g ≠ 0)
    (hcount : 2 * count < order) (h : Hold count g (.affine points)) :
    Hold count (lambda • g) (.affine (points.map fun q ↦ .finite (q.x * beta) q.y)) := by
  intro i hi
  have hne : (2 * i + 1) • g ≠ 0 := nsmul_ne_zero hg (by omega) (by omega)
  rw [List.getElem?_map, h i hi, nsmul_left_comm, Affine.ofGroup_lambda_nsmul hne]
  rfl

end OddMultiples

namespace Tables

/-- The entries after the first are the doubles of it. -/
theorem doublesOf_doublesFrom {p : Jacobian} {g : PointGroup} (hp : p.Denotes g) (count : Nat) :
    FixedBase.DoublesOf doublesStep (2 ^ doublesStep • g) (doublesFrom count p) := by
  induction count generalizing p g with
  | zero => trivial
  | succ count ih =>
    have hnext := hp.dblTimes doublesStep
    exact ⟨hnext.toAffine, ih hnext⟩

/-- The number of entries that are made. -/
theorem length_doublesFrom (count : Nat) (p : Jacobian) : (doublesFrom count p).length = count := by
  induction count generalizing p with
  | zero => rfl
  | succ count ih => exact congrArg (· + 1) (ih _)

/-- The table of doubles of a point holds its doubles. -/
theorem doublesOf_build (g : PointGroup) :
    FixedBase.DoublesOf doublesStep g (build (.ofGroup g)).doubles :=
  ⟨rfl, doublesOf_doublesFrom (Jacobian.denotes_ofAffine g) _⟩

/-- The table of doubles has 66 entries. -/
theorem length_doubles_build (p : Affine) : (build p).doubles.length = 66 := by
  rw [build, List.length_cons, length_doublesFrom]
  decide +kernel

/-- The table of doubles covers the scalars whose digits it has entries for. -/
theorem cover_build_iff (p : Affine) (k : Int) :
    (build p).cover k = true ↔ Number.bitLength k.natAbs + 1 ≤ 264 := by
  rw [cover, decide_eq_true_iff, length_doubles_build, doublesStep]
  omega

/-- The table of odd multiples holds those of the point. -/
theorem hold_odd_build (g : PointGroup) :
    (OddMultiples.affine (build (.ofGroup g)).odd).Hold 8 g :=
  (OddMultiples.hold_ofWindow tableWindow g).map_toAffine

/-- The table of images holds the odd multiples of `lambda` times the point. -/
theorem hold_oddImages_build {g : PointGroup} (hg : g ≠ 0) :
    (OddMultiples.affine (build (.ofGroup g)).oddImages).Hold 8 (lambda • g) :=
  (hold_odd_build g).map_beta hg (by decide)

/-- The multiple from the table of doubles is right where the table covers the scalar. -/
theorem multiple_build (g : PointGroup) {k : Int} (hk : (build (.ofGroup g)).cover k = true) :
    (build (.ofGroup g)).multiple k = .ofGroup (k • g) := by
  apply Affine.neg_of_sign
  refine (FixedBase.denotes_multiple (by decide) (doublesOf_build g) ?_).toAffine
  rw [cover_build_iff] at hk
  have hlen := Number.length_nonAdjacentForm_le_bitLength (show 2 ≤ 2 by decide) k.natAbs
  rw [length_doubles_build, doublesStep]
  omega

end Tables

end Secp.Curve
