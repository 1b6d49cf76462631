import Secp.Proofs.Curve.Tables

/-!
# All ways to a multiple agree

A multiple is found by doubling and adding, by a table of doubles, or by a split scalar and a joint
sum, over tables in Jacobian coordinates or over those that the point carries. All of them give the
multiple in the group, for every scalar and every point of the curve.
-/

namespace Secp.Curve.Base

open FixedBase (pieceValue)

/-- The two terms of a split scalar add up to the multiple. -/
theorem exists_multiples {b : Base} {g : PointGroup} (hb : b.point = .ofGroup g) (k : Int) :
    ∃ ms : List Multiple, ms.map Multiple.toTerm = b.splitTerms k ∧
      (ms.map fun m ↦ pieceValue m.digits • m.element).sum = k • g := by
  have hsum {window : Nat} (hw : 2 ≤ window) (t₁ t₂ : OddMultiples) :
      pieceValue (Term.ofScalar window (split k).1 t₁).digits • g +
        (pieceValue (Term.ofScalar window (split k).2 t₂).digits • lambda • g + 0) = k • g := by
    rw [Term.pieceValue_ofScalar hw, Term.pieceValue_ofScalar hw, add_zero, split_zsmul]
  cases htables : b.tables with
  | none =>
    have hold := OddMultiples.hold_ofWindow plainWindow g
    refine ⟨[.ofScalar (by decide) (split k).1 hold,
      .ofScalar (by decide) (split k).2 hold.map_endomorphism], ?_, hsum (by decide) _ _⟩
    rw [splitTerms, htables, hb]
    rfl
  | some t =>
    have ht : t = Tables.build (.ofGroup g) := by rw [← hb]; exact b.tables_eq t htables
    have hg : g ≠ 0 := by
      intro hzero
      have hfinite := b.finite_of_tables (by rw [htables]; rfl)
      rw [hb, (Affine.isInfinity_ofGroup g).mpr hzero] at hfinite
      contradiction
    refine ⟨[.ofScalar (by decide : 2 ≤ tableWindow) (split k).1 (Tables.hold_odd_build g),
      .ofScalar (by decide : 2 ≤ tableWindow) (split k).2 (Tables.hold_oddImages_build hg)], ?_,
      hsum (by decide) _ _⟩
    rw [splitTerms, htables, ht]
    rfl

/-- The multiple by a split scalar is right. -/
theorem mulSplit_eq {b : Base} {g : PointGroup} (hb : b.point = .ofGroup g) (k : Int) :
    b.mulSplit k = .ofGroup (k • g) := by
  unfold mulSplit
  split
  · next h =>
    rw [hb, Affine.isInfinity_ofGroup] at h
    rcases h with rfl | rfl
    · rw [zero_zsmul, Affine.ofGroup_zero]
    · rw [zsmul_zero, Affine.ofGroup_zero]
  · obtain ⟨ms, hterms, hsum⟩ := exists_multiples hb k
    rw [← hterms, ← hsum]
    exact (Multiple.denotes_jointSum ms).toAffine

/-- The multiple from the table of doubles is right, and there is one exactly when the point has
tables and the scalar has at most 263 bits. -/
theorem mulFixed?_eq {b : Base} {g : PointGroup} (hb : b.point = .ofGroup g) (k : Int) :
    b.mulFixed? k =
      if b.hasTables = true ∧ Number.bitLength k.natAbs + 1 ≤ 264 then some (.ofGroup (k • g))
      else none := by
  unfold mulFixed? hasTables
  cases htables : b.tables with
  | none => rfl
  | some t =>
    obtain rfl : t = Tables.build (.ofGroup g) := by rw [← hb]; exact b.tables_eq t htables
    by_cases hcover : (Tables.build (.ofGroup g)).cover k = true
    · rw [if_pos ⟨rfl, (Tables.cover_build_iff _ _).mp hcover⟩, Option.filter_some, if_pos hcover,
        Option.map_some, Tables.multiple_build g hcover]
    · have hlong : ¬(Number.bitLength k.natAbs + 1 ≤ 264) :=
        (Tables.cover_build_iff _ _).not.mp hcover
      rw [if_neg (fun h ↦ hlong h.2), Option.filter_some, if_neg hcover, Option.map_none]

/-- The multiple is right, whichever way it is found. -/
theorem mul_eq {b : Base} {g : PointGroup} (hb : b.point = .ofGroup g) (k : Int) :
    b.mul k = .ofGroup (k • g) := by
  unfold mul
  split
  · next h =>
    rw [hb, Affine.isInfinity_ofGroup] at h
    rcases h with rfl | rfl
    · rw [zero_zsmul, Affine.ofGroup_zero]
    · rw [zsmul_zero, Affine.ofGroup_zero]
  · split
    · exact mulBits_eq hb k
    · rw [mulFixed?_eq hb]
      split
      · next p h =>
        split at h
        · exact (Option.some.inj h).symm
        · contradiction
      · exact mulSplit_eq hb k

/-- The sum of multiples of two points is right. -/
theorem mulAdd_eq {p q : Base} {g h : PointGroup} (hp : p.point = .ofGroup g)
    (hq : q.point = .ofGroup h) (k l : Int) :
    p.mulAdd k q l = .ofGroup (k • g + l • h) := by
  -- A point that contributes nothing has no terms.
  have hterms {b : Base} {g : PointGroup} (hb : b.point = .ofGroup g) (k : Int) :
      ∃ ms : List Multiple,
        ms.map Multiple.toTerm = (if k = 0 ∨ b.point.isInfinity then [] else b.splitTerms k) ∧
        (ms.map fun m ↦ pieceValue m.digits • m.element).sum = k • g := by
    split
    · next h =>
      rw [hb, Affine.isInfinity_ofGroup] at h
      refine ⟨[], rfl, ?_⟩
      rcases h with rfl | rfl
      · exact (zero_zsmul g).symm
      · exact (zsmul_zero k).symm
    · exact exists_multiples hb k
  obtain ⟨ms, hms, hsum⟩ := hterms hp k
  obtain ⟨ms', hms', hsum'⟩ := hterms hq l
  have hrun := (Multiple.denotes_jointSum (ms ++ ms')).toAffine
  rw [List.map_append, List.map_append, List.sum_append, hsum, hsum', hms, hms'] at hrun
  exact hrun

/-- All ways to a multiple of a point of the curve give the multiple in the group, and there is a
multiple from the table of doubles exactly when the point has tables and the scalar has at most 263
bits. -/
theorem multiples_agree (b : Base) (hb : b.point.onCurve = true) (k : Int) :
    b.mul k = .ofGroup (k • b.point.toGroup) ∧
      b.mulSplit k = .ofGroup (k • b.point.toGroup) ∧
      b.mulBits k = .ofGroup (k • b.point.toGroup) ∧
      b.mulFixed? k =
        if b.hasTables = true ∧ Number.bitLength k.natAbs + 1 ≤ 264 then
          some (.ofGroup (k • b.point.toGroup))
        else none := by
  have hpoint := (Affine.ofGroup_toGroup hb).symm
  refine ⟨?_, ?_, ?_, ?_⟩
  · exact mul_eq hpoint k
  · exact mulSplit_eq hpoint k
  · exact mulBits_eq hpoint k
  · exact mulFixed?_eq hpoint k

/-- The ways agree on a negative scalar of 264 bits, which the generator's table does not cover. -/
theorem multiples_agree_generator :
    generator.point.onCurve = true ∧
      generator.mul (-2 ^ 263) = .ofGroup ((-2 ^ 263 : Int) • generator.point.toGroup) ∧
      generator.mulFixed? (-2 ^ 263) = none := by
  have hb : generator.point.onCurve = true := by decide +kernel
  have h := multiples_agree generator hb (-2 ^ 263)
  refine ⟨hb, h.1, ?_⟩
  rw [h.2.2.2, if_neg]
  decide +kernel

end Secp.Curve.Base
