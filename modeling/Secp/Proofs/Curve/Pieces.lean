import Secp.Proofs.Curve.Tables
import Secp.Proofs.LimbInt.NonAdjacent
import Secp.Proofs.Limbs.Checked

/-!
# No piece of a scalar is dropped

The run over the magnitudes counts every piece of a scalar whose number does not exceed the greatest
magnitude, and none does. So whatever points of the curve stand in the table, the result is their
sum, each taken as often as its piece says; if they are repeated doubles, it is the multiple.

The run is made a second time as a machine makes it: the digits are those that the passes over the
limbs of the scalar give, their pieces are read in signed words of 32 bits, every step of which is
checked, and each point is looked up by its place. Up to a step of 29 digits no word overflows, and
no lookup misses in a table that covers the scalar.
-/

namespace Secp.Curve.FixedBase

open LimbInt (Recodes)
open Limbs (Fault)
open Limbs.Checked (guarded)
open Number (nonAdjacentForm bitLength)

/-- A table covers a scalar when it has an entry for every piece of as many digits as the scalar
has bits, and one more. -/
def Covers (step : Nat) (doubles : List Affine) (k : Nat) : Prop :=
  (bitLength k + 1 + step - 1) / step ≤ doubles.length

namespace Checked

/-- A number that fits a signed word of 32 bits. -/
def word (t : Int) : Except Fault Int := guarded (-2 ^ 31 ≤ t ∧ t < 2 ^ 31) .overflow t

/-- A one shifted up in a signed word, of which the highest bit is the sign. -/
def shiftedOne (r : Nat) : Except Fault Int :=
  guarded (r < 32) .overflow (Int.bmod (2 ^ r) (2 ^ 32))

/-- The greatest magnitude of a piece. -/
def maxMagnitude (step : Nat) : Except Fault Int := do
  let top ← shiftedOne (step + 1)
  let span ← word (top - if step % 2 = 0 then 2 else 1)
  return span.tdiv 3

/-- The number that a piece of digits stands for, from its last digit down. -/
def pieceValue (digits : List Int) : Except Fault Int :=
  digits.foldrM (fun d n ↦ do
    let twice ← word (n * 2)
    word (twice + d)) 0

/-- The point at a place of a table. -/
def lookUp (doubles : List Affine) (place : Nat) : Except Fault Affine :=
  match doubles[place]? with
  | some p => .ok p
  | none => .error .outOfBounds

/-- Add the point at a place if its number has the magnitude, or its opposite if the number is
negative. -/
def collectAt (doubles : List Affine) (magnitude : Nat) (sum : Jacobian) (part : Int × Nat) :
    Except Fault Jacobian :=
  if part.1 = magnitude then do
    let p ← lookUp doubles part.2
    return sum.addAffine p
  else if part.1 = -(magnitude : Int) then do
    let p ← lookUp doubles part.2
    return sum.addAffine p.neg
  else return sum

/-- Pass a magnitude: collect its points, and add all that are collected to the result. -/
def pass (doubles : List Affine) (values : List Int) (lower : Nat) (run : Jacobian × Jacobian) :
    Except Fault (Jacobian × Jacobian) := do
  let collected ← values.zipIdx.foldlM (collectAt doubles (lower + 1)) run.2
  return (run.1.add collected, collected)

/-- The multiple from a table of doubles, by a scalar with the given digits. -/
def multiple (step : Nat) (doubles : List Affine) (digits : List Int) : Except Fault Jacobian := do
  let values ← (pieces step digits).mapM pieceValue
  let greatest ← maxMagnitude step
  let run ← (List.range greatest.toNat).foldrM (pass doubles values) (.infinity, .infinity)
  return run.1

/-- A short shift leaves the sign clear. -/
theorem shiftedOne_eq {r : Nat} (hr : r ≤ 30) : shiftedOne r = .ok (2 ^ r) := by
  have hle : (2 : Int) ^ r ≤ 2 ^ 30 := pow_le_pow_right₀ (by decide) hr
  have hpos : (0 : Int) < 2 ^ r := Int.pow_pos (by decide)
  rw [shiftedOne, Limbs.Checked.guarded_of (by omega), Int.bmod_eq_of_le (by omega) (by omega)]

/-- The greatest magnitude is found exactly where its power of two leaves the sign clear. -/
theorem maxMagnitude_eq_ok_iff {step : Nat} :
    maxMagnitude step = .ok (FixedBase.maxMagnitude step : Int) ↔ step ≤ 29 := by
  constructor
  · intro h
    by_contra hlong
    by_cases hsign : step = 30
    · subst hsign
      revert h
      decide
    · rw [maxMagnitude, shiftedOne, Limbs.Checked.guarded_of_not (by omega)] at h
      cases h
  · intro hshort
    have hle : (2 : Int) ^ (step + 1) ≤ 2 ^ 30 :=
      pow_le_pow_right₀ (by decide) (Nat.succ_le_succ hshort)
    have htwo : 2 ^ 1 ≤ 2 ^ (step + 1) := Nat.pow_le_pow_right (by decide) (Nat.succ_pos step)
    have hcast : ((2 ^ (step + 1) : Nat) : Int) = 2 ^ (step + 1) := Nat.cast_pow 2 (step + 1)
    rw [maxMagnitude, shiftedOne_eq (Nat.succ_le_succ hshort), ok_bind, word,
      Limbs.Checked.guarded_of (by split <;> omega), ok_bind,
      Int.tdiv_eq_ediv_of_nonneg (by split <;> omega)]
    refine congrArg Except.ok ?_
    unfold FixedBase.maxMagnitude
    split <;> omega

/-- Signs denote a number below the power of two of their number. -/
theorem natAbs_pieceValue_lt {digits : List Int} (hsmall : ∀ d ∈ digits, d.natAbs ≤ 1) :
    (FixedBase.pieceValue digits).natAbs < 2 ^ digits.length := by
  induction digits with
  | nil => decide
  | cons d digits ih =>
    obtain ⟨hd, hrest⟩ := List.forall_mem_cons.mp hsmall
    have hlt := ih hrest
    rw [pieceValue_cons, List.length_cons, Nat.pow_succ]
    omega

/-- A piece of signs is read without a fault. -/
theorem pieceValue_eq {digits : List Int} (hsmall : ∀ d ∈ digits, d.natAbs ≤ 1)
    (hlen : digits.length ≤ 29) : pieceValue digits = .ok (FixedBase.pieceValue digits) := by
  induction digits with
  | nil => rfl
  | cons d digits ih =>
    obtain ⟨hd, hrest⟩ := List.forall_mem_cons.mp hsmall
    rw [List.length_cons] at hlen
    have hlt := natAbs_pieceValue_lt hrest
    have hpow : 2 ^ digits.length ≤ 2 ^ 29 := Nat.pow_le_pow_right (by decide) (by omega)
    have hvalue := ih hrest (by omega)
    unfold pieceValue at hvalue ⊢
    rw [List.foldrM_cons, hvalue, ok_bind, word, Limbs.Checked.guarded_of (by omega), ok_bind, word,
      Limbs.Checked.guarded_of (by omega), pieceValue_cons, Int.mul_comm]

/-- The point behind so many others is at their place. -/
theorem lookUp_append (before : List Affine) (p : Affine) (after : List Affine) :
    lookUp (before ++ p :: after) before.length = .ok p := by
  simp [lookUp]

/-- Where the table is long enough no lookup misses, and the points of the magnitude are added. -/
theorem foldlM_collectAt {values : List Int} (magnitude : Nat) (before : List Affine)
    {after : List Affine} (hlen : values.length ≤ after.length) (sum : Jacobian) :
    (values.zipIdx before.length).foldlM (collectAt (before ++ after) magnitude) sum =
      .ok (collect magnitude (values.zip after) sum) := by
  induction values generalizing before after sum with
  | nil => rfl
  | cons v values ih =>
    cases after with
    | nil => exact absurd hlen (by simp)
    | cons p after =>
      have hsplit : before ++ p :: after = before ++ [p] ++ after := by simp
      have hlength : before.length + 1 = (before ++ [p]).length := by simp
      have hstep : collectAt (before ++ p :: after) magnitude sum (v, before.length) =
          .ok (collect magnitude [(v, p)] sum) := by
        simp only [collectAt, lookUp_append, ok_bind, collect, List.foldl_cons, List.foldl_nil]
        split
        · rfl
        · split <;> rfl
      rw [List.zipIdx_cons, List.foldlM_cons, hstep, ok_bind, hsplit, hlength,
        ih _ (Nat.le_of_succ_le_succ hlen), List.zip_cons_cons]
      rfl

/-- The passes from a magnitude down give the result of the run from there. -/
theorem foldrM_pass {doubles : List Affine} {values : List Int}
    (hlen : values.length ≤ doubles.length) (magnitude : Nat) (result collected : Jacobian) :
    ∃ last, (List.range magnitude).foldrM (pass doubles values) (result, collected) =
      .ok (sumDown (values.zip doubles) magnitude result collected, last) := by
  induction magnitude generalizing result collected with
  | zero => exact ⟨collected, rfl⟩
  | succ magnitude ih =>
    have hpass : pass doubles values magnitude (result, collected) =
        .ok (result.add (collect (magnitude + 1) (values.zip doubles) collected),
          collect (magnitude + 1) (values.zip doubles) collected) := by
      have hcollect := foldlM_collectAt (magnitude + 1) [] hlen collected
      rw [List.length_nil, List.nil_append] at hcollect
      rw [pass, hcollect]
      rfl
    obtain ⟨last, hrest⟩ := ih (result.add (collect (magnitude + 1) (values.zip doubles) collected))
      (collect (magnitude + 1) (values.zip doubles) collected)
    refine ⟨last, ?_⟩
    rw [List.range_succ, List.foldrM_append, List.foldrM_cons, List.foldrM_nil, pure_bind, hpass]
    exact hrest

/-- Up to a step of 29 digits the run has a result, where no lookup misses. -/
theorem multiple_eq {step : Nat} (hshort : step ≤ 29) {doubles : List Affine} {k : Nat}
    (hlen : (pieceValues step k).length ≤ doubles.length) :
    multiple step doubles (nonAdjacentForm 2 k) = .ok (FixedBase.multiple step doubles k) := by
  have hvalues :
      (pieces step (nonAdjacentForm 2 k)).mapM pieceValue = .ok (pieceValues step k) := by
    apply mapM_eq_ok_of_forall
    intro piece hpiece
    obtain ⟨start, rfl⟩ := exists_of_mem_pieces hpiece
    exact pieceValue_eq natAbs_le_one_of_mem_row ((List.length_take_le _ _).trans hshort)
  obtain ⟨last, hrun⟩ := foldrM_pass hlen (FixedBase.maxMagnitude step) .infinity .infinity
  rw [multiple, hvalues, ok_bind, maxMagnitude_eq_ok_iff.mpr hshort, ok_bind, Int.toNat_natCast,
    hrun]
  rfl

end Checked

/-- A table that covers a scalar has room for all of its digits. -/
theorem Covers.length_digits_le {step : Nat} (hstep : 0 < step) {doubles : List Affine} {k : Nat}
    (h : Covers step doubles k) : (nonAdjacentForm 2 k).length ≤ step * doubles.length := by
  have hdigits := Number.length_nonAdjacentForm_le_bitLength (show 2 ≤ 2 by decide) k
  have hpieces := (Nat.div_le_iff_le_mul_add_pred hstep).mp h
  omega

/-- A table that covers a scalar has an entry for every piece. -/
theorem Covers.length_le {step : Nat} (hstep : 0 < step) {doubles : List Affine} {k : Nat}
    (h : Covers step doubles k) : (pieceValues step k).length ≤ doubles.length := by
  rw [pieceValues, List.length_map]
  exact length_pieces_le (h.length_digits_le hstep)

/-- The table of a point covers a scalar when its test says so. -/
theorem covers_iff {t : Tables} {k : Int} :
    t.cover k = true ↔ Covers doublesStep t.doubles k.natAbs := decide_eq_true_iff

/-- The powers of two leave two and one by turns when they are divided by three. -/
theorem two_pow_succ_mod_three (step : Nat) :
    2 ^ (step + 1) % 3 = if step % 2 = 0 then 2 else 1 := by
  induction step with
  | zero => rfl
  | succ step ih =>
    rw [Nat.pow_succ, Nat.mul_mod, ih]
    rcases Nat.mod_two_eq_zero_or_one step with h | h
    · simp [h, Nat.add_mod]
    · simp [h, Nat.add_mod]

/-- The greatest magnitude is a third of the power of two less what its division leaves. -/
theorem three_mul_maxMagnitude (step : Nat) :
    3 * maxMagnitude step + (if step % 2 = 0 then 2 else 1) = 2 ^ (step + 1) := by
  rw [maxMagnitude, ← two_pow_succ_mod_three step]
  generalize 2 ^ (step + 1) = power
  omega

/-- A number other than zero is met at one magnitude of the run, which is its own. -/
theorem existsUnique_magnitude {v : Int} (hv : v ≠ 0) {greatest : Nat} (hle : v.natAbs ≤ greatest) :
    ∃! m : Nat, (1 ≤ m ∧ m ≤ greatest) ∧ (v = m ∨ v = -(m : Int)) := by
  refine ⟨v.natAbs, ⟨by omega, by omega⟩, ?_⟩
  rintro m ⟨-, hm⟩
  omega

/-- Weighted values are their sum, each times the power of two that its piece begins at. -/
theorem weightedValue_eq_sum (step : Nat) (values : List Int) :
    weightedValue step values =
      ∑ j ∈ Finset.range values.length, values.getD j 0 * 2 ^ (step * j) := by
  induction values with
  | nil => rfl
  | cons v values ih =>
    rw [weightedValue, List.foldr_cons, ← weightedValue, ih, List.length_cons,
      Finset.sum_range_succ', Finset.mul_sum, add_comm]
    congr 1
    · refine Finset.sum_congr rfl fun j _ ↦ ?_
      rw [List.getD_cons_succ, Nat.mul_succ, pow_add]
      ring
    · simp

/-- Values up to a magnitude contribute the elements at their places, each as often as it says. -/
theorem sumUpTo_zip {magnitude : Nat} {values : List Int} (h : ∀ v ∈ values, v.natAbs ≤ magnitude)
    {elements : List PointGroup} (hlen : values.length ≤ elements.length) :
    sumUpTo magnitude (values.zip elements) =
      ∑ j ∈ Finset.range values.length, values.getD j 0 • elements.getD j 0 := by
  induction values generalizing elements with
  | nil => rfl
  | cons v values ih =>
    cases elements with
    | nil => exact absurd hlen (by simp)
    | cons g elements =>
      obtain ⟨hv, hrest⟩ := List.forall_mem_cons.mp h
      have hsum := ih hrest (Nat.le_of_succ_le_succ hlen)
      rw [List.length_cons, Finset.sum_range_succ', add_comm]
      simp only [List.getD_cons_succ, List.getD_cons_zero]
      rw [← hsum, List.zip_cons_cons]
      simp [sumUpTo, hv]

/-- Points of the curve in a table are those of their elements. -/
theorem zip_eq_points_toGroup {doubles : List Affine} (hcurve : ∀ p ∈ doubles, p.onCurve = true)
    (values : List Int) :
    values.zip doubles = points (values.zip (doubles.map Affine.toGroup)) := by
  induction values generalizing doubles with
  | nil => rfl
  | cons v values ih =>
    cases doubles with
    | nil => rfl
    | cons p doubles =>
      obtain ⟨hp, hrest⟩ := List.forall_mem_cons.mp hcurve
      rw [List.zip_cons_cons, ih hrest, List.map_cons, List.zip_cons_cons]
      simp [points, Affine.ofGroup_toGroup hp]

/-- Over any points of the curve the run gives their sum, each taken as often as the piece of its
place says. -/
theorem denotes_multiple_sum {step : Nat} {doubles : List Affine}
    (hcurve : ∀ p ∈ doubles, p.onCurve = true) {k : Nat}
    (hlen : (pieceValues step k).length ≤ doubles.length) :
    (multiple step doubles k).Denotes
      (∑ j ∈ Finset.range (pieceValues step k).length,
        (pieceValues step k).getD j 0 • (doubles.getD j .infinity).toGroup) := by
  have hrun := denotes_sumDown ((pieceValues step k).zip (doubles.map Affine.toGroup))
    (maxMagnitude step) Jacobian.denotes_infinity Jacobian.denotes_infinity
  have helement (j : Nat) :
      (doubles.map Affine.toGroup).getD j 0 = (doubles.getD j .infinity).toGroup :=
    List.getD_map doubles .infinity Affine.toGroup
  rw [← zip_eq_points_toGroup hcurve,
    sumUpTo_zip natAbs_le_of_mem_pieceValues (by simpa using hlen), nsmul_zero, add_zero,
    zero_add] at hrun
  simp only [helement] at hrun
  exact hrun

/-- A table holds the doubles of an element when the entry at every place is the double for it. -/
theorem doublesOf_iff {step : Nat} {g : PointGroup} {doubles : List Affine} :
    DoublesOf step g doubles ↔
      ∀ (j : Nat) (q : Affine), doubles[j]? = some q → q = .ofGroup (2 ^ (step * j) • g) := by
  have hnext (h : PointGroup) (j : Nat) :
      2 ^ (step * (j + 1)) • h = 2 ^ (step * j) • 2 ^ step • h := by
    rw [Nat.mul_succ, pow_add, mul_nsmul']
  induction doubles generalizing g with
  | nil => simp [DoublesOf]
  | cons p doubles ih =>
    constructor
    · rintro ⟨hp, hrest⟩ j q hq
      cases j with
      | zero => simpa [hp] using hq.symm
      | succ j =>
        rw [hnext]
        exact ih.mp hrest j q hq
    · intro h
      constructor
      · simpa using h 0 p rfl
      · apply ih.mpr
        intro j q hq
        rw [← hnext]
        exact h (j + 1) q hq

/-- No piece of a scalar is dropped. Every piece is a number between the greatest magnitude, which
is a third of a power of two and fits a word of 32 bits for steps up to 29, and its opposite, and
unless it is zero the run meets it at one magnitude. Weighted by the powers of two that the pieces
begin at, the numbers sum up to the scalar. Over a table that covers the scalar the run in words of
32 bits has no fault. Over any points of the curve it gives their sum, each taken as often as the
piece of its place says, and over the doubles of an element the multiple by the scalar. -/
theorem no_piece_dropped {step : Nat} (hstep : 0 < step) (k : Nat) :
    3 * maxMagnitude step + (if step % 2 = 0 then 2 else 1) = 2 ^ (step + 1) ∧
      (Checked.maxMagnitude step = .ok (maxMagnitude step : Int) ↔ step ≤ 29) ∧
      (∀ v ∈ pieceValues step k, (-(maxMagnitude step : Int) ≤ v ∧ v ≤ maxMagnitude step) ∧
        (v ≠ 0 → ∃! m : Nat, (1 ≤ m ∧ m ≤ maxMagnitude step) ∧ (v = m ∨ v = -(m : Int)))) ∧
      ∑ j ∈ Finset.range (pieceValues step k).length,
        (pieceValues step k).getD j 0 * 2 ^ (step * j) = k ∧
      ∀ doubles : List Affine, Covers step doubles k →
        (step ≤ 29 → ∃ digits, Recodes 2 (.ofInt k) digits ∧
          Checked.multiple step doubles digits = .ok (multiple step doubles k)) ∧
        ((∀ p ∈ doubles, p.onCurve = true) →
          (multiple step doubles k).toAffine = .ofGroup
            (∑ j ∈ Finset.range (pieceValues step k).length,
              (pieceValues step k).getD j 0 • (doubles.getD j .infinity).toGroup)) ∧
        ∀ g : PointGroup,
          (∀ (j : Nat) (q : Affine), doubles[j]? = some q → q = .ofGroup (2 ^ (step * j) • g)) →
            (multiple step doubles k).toAffine = .ofGroup (k • g) := by
  refine ⟨three_mul_maxMagnitude step, Checked.maxMagnitude_eq_ok_iff, ?_, ?_, ?_⟩
  · intro v hv
    have hle := natAbs_le_of_mem_pieceValues v hv
    exact ⟨by omega, fun hne ↦ existsUnique_magnitude hne hle⟩
  · rw [← weightedValue_eq_sum, pieceValues, weightedValue_pieces hstep.ne',
      Number.pieceValue_nonAdjacentForm (by decide)]
  · intro doubles hcovers
    have hlen := hcovers.length_le hstep
    refine ⟨?_, ?_, ?_⟩
    · intro hshort
      have hrecodes := (LimbInt.denotes_ofInt k).recodes (show 2 ≤ 2 by decide) (by decide)
      exact ⟨_, hrecodes, Checked.multiple_eq hshort hlen⟩
    · intro hcurve
      exact (denotes_multiple_sum hcurve hlen).toAffine
    · intro g hdoubles
      have hdigits := hcovers.length_digits_le hstep
      exact (denotes_multiple hstep.ne' (doublesOf_iff.mpr hdoubles) hdigits).toAffine

/-- The table of the generator covers a scalar of 263 bits, over which the run in words gives the
multiple. -/
theorem no_piece_dropped_generator :
    0 < doublesStep ∧ doublesStep ≤ 29 ∧
      Covers doublesStep (Tables.build .generator).doubles (2 ^ 262) ∧
      (∀ (j : Nat) (q : Affine), (Tables.build .generator).doubles[j]? = some q →
        q = .ofGroup (2 ^ (doublesStep * j) • generatorElement)) ∧
      ∃ digits run, Recodes 2 (.ofInt (2 ^ 262 : Nat)) digits ∧
        Checked.multiple doublesStep (Tables.build .generator).doubles digits = .ok run ∧
          run.toAffine = .ofGroup (2 ^ 262 • generatorElement) := by
  have hcovers : Covers doublesStep (Tables.build .generator).doubles (2 ^ 262) := by
    apply covers_iff (k := (2 ^ 262 : Nat)).mp
    rw [Tables.cover_build_iff]
    decide +kernel
  have hdoubles := doublesOf_iff.mp (Tables.doublesOf_build generatorElement)
  rw [ofGroup_generatorElement] at hdoubles
  have hrun := (no_piece_dropped (show 0 < doublesStep by decide) (2 ^ 262)).2.2.2.2 _ hcovers
  obtain ⟨digits, hrecodes, hmultiple⟩ := hrun.1 (by decide)
  exact ⟨by decide, by decide, hcovers, hdoubles, digits, _, hrecodes, hmultiple,
    hrun.2.2 generatorElement hdoubles⟩

end Secp.Curve.FixedBase
