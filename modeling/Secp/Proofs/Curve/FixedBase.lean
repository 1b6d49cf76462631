import Mathlib.Tactic.Abel
import Secp.Proofs.Curve.Coordinates
import Secp.Proofs.Number.NonAdjacent

/-!
# Multiples of a fixed point are right

The pieces of a scalar's digits, each weighted by the power of two that it begins at, denote the
scalar, and none is greater than `maxMagnitude`. The run over the magnitudes adds every point of the
table as often as its piece says: when the magnitudes down to `m` are done, what is collected will
still be added `m` times, and so will the pieces up to `m` be, each as often as it says. So the run
ends with the multiple of the point by the scalar.
-/

namespace Secp.Curve.FixedBase

open Number (Sparse nonAdjacentForm)

/-- Digits in a row among sparse ones are sparse. -/
theorem sparse_take_drop {window : Nat} {digits : List Int} (h : Sparse window digits)
    (start size : Nat) : Sparse window ((digits.drop start).take size) := by
  intro i j hij hj
  rcases h (start + i) (start + j) (by omega) (by omega) with hi | hj
  · left
    by_cases hlt : i < size
    · simpa [List.getD_eq_getElem?_getD, hlt] using hi
    · simp [List.getD_eq_getElem?_getD, hlt]
  · right
    by_cases hlt : j < size
    · simpa [List.getD_eq_getElem?_getD, hlt] using hj
    · simp [List.getD_eq_getElem?_getD, hlt]

/-- A piece is a row of digits. -/
theorem exists_of_mem_pieces {α : Type} {size : Nat} {xs piece : List α}
    (h : piece ∈ pieces size xs) : ∃ start, piece = (xs.drop start).take size := by
  fun_induction pieces size xs with
  | case1 xs hxs => cases h
  | case2 xs hxs ih =>
    rcases List.mem_cons.mp h with rfl | h
    · exact ⟨0, rfl⟩
    · obtain ⟨start, rfl⟩ := ih h
      exact ⟨size + start, by rw [List.drop_drop]⟩

/-- A list of at most `count` times the size has at most `count` pieces. -/
theorem length_pieces_le {α : Type} {size count : Nat} {xs : List α}
    (h : xs.length ≤ size * count) : (pieces size xs).length ≤ count := by
  induction count generalizing xs with
  | zero =>
    rw [Nat.mul_zero, Nat.le_zero, List.length_eq_zero_iff] at h
    rw [h, pieces, dif_pos (.inr rfl)]
    exact Nat.zero_le _
  | succ count ih =>
    rw [pieces]
    split
    · exact Nat.zero_le _
    · rw [List.length_cons]
      apply Nat.succ_le_succ
      apply ih
      rw [List.length_drop, Nat.mul_succ] at *
      omega

/-- The number that values denote, each weighted by the power of two that its piece begins at. -/
def weightedValue (step : Nat) (values : List Int) : Int :=
  values.foldr (fun v n ↦ v + 2 ^ step * n) 0

/-- Digits denote what their first ones do, and what the others do moved up. -/
theorem pieceValue_take_add_drop (size : Nat) (digits : List Int) :
    pieceValue (digits.take size) + 2 ^ size * pieceValue (digits.drop size) =
      pieceValue digits := by
  induction size generalizing digits with
  | zero => simp
  | succ size ih =>
    cases digits with
    | nil => simp
    | cons d digits =>
      rw [List.take_succ_cons, List.drop_succ_cons, pieceValue_cons, pieceValue_cons, ← ih digits]
      ring

/-- The pieces of digits denote what the digits do. -/
theorem weightedValue_pieces {step : Nat} (hstep : step ≠ 0) (digits : List Int) :
    weightedValue step ((pieces step digits).map pieceValue) = pieceValue digits := by
  fun_induction pieces step digits with
  | case1 digits h =>
    obtain rfl := h.resolve_left hstep
    rfl
  | case2 digits h ih =>
    rw [← pieceValue_take_add_drop step digits, ← ih]
    rfl

/-- The greatest magnitude more than doubles with one digit more. -/
theorem two_mul_maxMagnitude_le (step : Nat) : 2 * maxMagnitude step ≤ maxMagnitude (step + 1) := by
  have hpow : 2 ^ (step + 1 + 1) = 2 * 2 ^ (step + 1) := Nat.pow_succ'
  unfold maxMagnitude
  split <;> split <;> omega

/-- With two digits more there is room for a one below the others. -/
theorem four_mul_maxMagnitude_lt (step : Nat) :
    4 * maxMagnitude step + 1 ≤ maxMagnitude (step + 2) := by
  have hpow : 2 ^ (step + 2 + 1) = 4 * 2 ^ (step + 1) := by
    rw [Nat.pow_succ', Nat.pow_succ']
    omega
  have hpos := Nat.pow_le_pow_right (show 0 < 2 by decide) (show 1 ≤ step + 1 by omega)
  unfold maxMagnitude
  split <;> split <;> omega

/-- Sparse signs denote a number up to the greatest magnitude. -/
theorem natAbs_pieceValue_le :
    ∀ {digits : List Int} {step : Nat}, Sparse 2 digits → (∀ d ∈ digits, d.natAbs ≤ 1) →
      digits.length ≤ step → (pieceValue digits).natAbs ≤ maxMagnitude step
  | [], _, _, _, _ => Nat.zero_le _
  | [d], 1, _, hsmall, _ => by
    have hd := hsmall d List.mem_cons_self
    rw [pieceValue_cons, pieceValue_nil, show maxMagnitude 1 = 1 by decide]
    omega
  | [d], step + 2, _, hsmall, _ => by
    have hd := hsmall d List.mem_cons_self
    have hmax := four_mul_maxMagnitude_lt step
    rw [pieceValue_cons, pieceValue_nil]
    omega
  | d :: d' :: digits, step + 2, hsparse, hsmall, hlen => by
    have hrest : Sparse 2 (d' :: digits) := fun i j hi hj ↦
      hsparse (i + 1) (j + 1) (by omega) (by omega)
    have hd := hsmall d List.mem_cons_self
    have hsmall' := fun e he ↦ hsmall e (List.mem_cons_of_mem d he)
    rw [List.length_cons, List.length_cons] at hlen
    rw [pieceValue_cons]
    rcases hsparse 0 1 (by decide) (by decide) with hzero | hzero
    · obtain rfl : d = 0 := hzero
      have ih : (pieceValue (d' :: digits)).natAbs ≤ maxMagnitude (step + 1) :=
        natAbs_pieceValue_le hrest hsmall' (by rw [List.length_cons]; omega)
      have hmax : 2 * maxMagnitude (step + 1) ≤ maxMagnitude (step + 2) :=
        two_mul_maxMagnitude_le (step + 1)
      omega
    · -- The digit after one that is not zero is zero, so two places are passed at once.
      obtain rfl : d' = 0 := hzero
      have hrest' : Sparse 2 digits := fun i j hi hj ↦
        hsparse (i + 2) (j + 2) (by omega) (by omega)
      have ih : (pieceValue digits).natAbs ≤ maxMagnitude step :=
        natAbs_pieceValue_le hrest' (fun e he ↦ hsmall' e (List.mem_cons_of_mem 0 he)) (by omega)
      have hmax := four_mul_maxMagnitude_lt step
      rw [pieceValue_cons]
      omega

/-- The digits of a scalar are signs, in every row of them. -/
theorem natAbs_le_one_of_mem_row {k start size : Nat} :
    ∀ d ∈ ((nonAdjacentForm 2 k).drop start).take size, d.natAbs ≤ 1 := by
  intro d hd
  have hmem := List.mem_of_mem_drop (List.mem_of_mem_take hd)
  by_cases hzero : d = 0
  · rw [hzero]
    decide
  · have := (Number.odd_and_lt_of_mem_nonAdjacentForm (by decide) k d hmem hzero).2
    omega

/-- No piece of a scalar's digits is greater than the greatest magnitude. -/
theorem natAbs_le_of_mem_pieceValues {step k : Nat} :
    ∀ v ∈ pieceValues step k, v.natAbs ≤ maxMagnitude step := by
  intro v hv
  obtain ⟨piece, hpiece, rfl⟩ := List.mem_map.mp hv
  obtain ⟨start, rfl⟩ := exists_of_mem_pieces hpiece
  exact natAbs_pieceValue_le (sparse_take_drop (Number.sparse_nonAdjacentForm (by decide) k) _ _)
    natAbs_le_one_of_mem_row (List.length_take_le _ _)

/-- What is added for one value when its magnitude comes up. -/
def share (magnitude : Nat) (v : Int) (g : PointGroup) : PointGroup :=
  if v = magnitude then g else if v = -(magnitude : Int) then -g else 0

/-- What the values up to a magnitude contribute, each as often as it says. -/
def sumUpTo (magnitude : Nat) (parts : List (Int × PointGroup)) : PointGroup :=
  (parts.map fun (v, g) ↦ if v.natAbs ≤ magnitude then v • g else 0).sum

/-- The parts with their elements written as points. -/
def points (parts : List (Int × PointGroup)) : List (Int × Affine) :=
  parts.map fun (v, g) ↦ (v, .ofGroup g)

/-- Collecting adds the shares of one magnitude. -/
theorem denotes_collect (magnitude : Nat) (parts : List (Int × PointGroup)) {collected : Jacobian}
    {c : PointGroup} (hc : collected.Denotes c) :
    (collect magnitude (points parts) collected).Denotes
      (c + (parts.map fun (v, g) ↦ share magnitude v g).sum) := by
  induction parts generalizing collected c with
  | nil => simpa [collect, points] using hc
  | cons part parts ih =>
    obtain ⟨v, g⟩ := part
    rw [List.map_cons, List.sum_cons, ← add_assoc]
    apply ih
    dsimp only
    unfold share
    split
    · exact hc.addAffine g
    · split
      · rw [Affine.neg_ofGroup]
        exact hc.addAffine (-g)
      · rw [add_zero]
        exact hc

/-- A value of the next magnitude contributes its share as often as the magnitude says. -/
theorem zsmul_eq_share (magnitude : Nat) (v : Int) (g : PointGroup) :
    (if v.natAbs ≤ magnitude + 1 then v • g else 0) =
      (magnitude + 1) • share (magnitude + 1) v g + if v.natAbs ≤ magnitude then v • g else 0 := by
  unfold share
  by_cases hpos : v = (magnitude + 1 : Nat)
  · rw [if_pos (by omega), if_pos hpos, if_neg (by omega), hpos, natCast_zsmul, add_zero]
  · by_cases hneg : v = -((magnitude + 1 : Nat) : Int)
    · rw [if_pos (by omega), if_neg hpos, if_pos hneg, if_neg (by omega), hneg, neg_zsmul,
        natCast_zsmul, neg_nsmul, add_zero]
    · rw [if_neg hpos, if_neg hneg, nsmul_zero, zero_add]
      by_cases hle : v.natAbs ≤ magnitude
      · rw [if_pos (by omega), if_pos hle]
      · rw [if_neg (by omega), if_neg hle]

/-- The values up to a magnitude contribute its shares, as often as it says, and what those below
it do. -/
theorem sumUpTo_succ (magnitude : Nat) (parts : List (Int × PointGroup)) :
    sumUpTo (magnitude + 1) parts =
      (magnitude + 1) • (parts.map fun (v, g) ↦ share (magnitude + 1) v g).sum +
        sumUpTo magnitude parts := by
  unfold sumUpTo
  induction parts with
  | nil => simp
  | cons part parts ih =>
    obtain ⟨v, g⟩ := part
    simp only [List.map_cons, List.sum_cons]
    rw [ih, zsmul_eq_share, nsmul_add]
    abel

/-- Going down from a magnitude adds what is collected so far as often as it says, and each value
up to it as often as that says. -/
theorem denotes_sumDown (parts : List (Int × PointGroup)) (magnitude : Nat)
    {result collected : Jacobian} {r c : PointGroup} (hr : result.Denotes r)
    (hc : collected.Denotes c) :
    (sumDown (points parts) magnitude result collected).Denotes
      (r + magnitude • c + sumUpTo magnitude parts) := by
  induction magnitude generalizing result collected r c with
  | zero =>
    have hzero : sumUpTo 0 parts = 0 := by
      apply List.sum_eq_zero
      intro g hg
      obtain ⟨⟨v, h⟩, -, rfl⟩ := List.mem_map.mp hg
      dsimp only
      split
      · next hv => rw [show v = 0 by omega, zero_zsmul]
      · rfl
    rw [hzero, zero_nsmul, add_zero, add_zero]
    exact hr
  | succ magnitude ih =>
    -- What is collected now is added once, and `magnitude` times by the steps that follow.
    have hc' := denotes_collect (magnitude + 1) parts hc
    have hgoal := ih (hr.add hc') hc'
    rw [sumUpTo_succ, ← add_assoc, add_assoc r, ← nsmul_add, succ_nsmul', ← add_assoc r]
    exact hgoal

/-- The entries of a table are an element doubled `step` times from one to the next. -/
def DoublesOf (step : Nat) : PointGroup → List Affine → Prop
  | _, [] => True
  | g, p :: doubles => p = .ofGroup g ∧ DoublesOf step (2 ^ step • g) doubles

/-- Values with the elements that they go with. -/
def withDoubles (step : Nat) : PointGroup → List Int → List (Int × PointGroup)
  | _, [] => []
  | g, v :: values => (v, g) :: withDoubles step (2 ^ step • g) values

/-- A table that is long enough pairs the values with their elements. -/
theorem zip_eq_points {step : Nat} {g : PointGroup} {doubles : List Affine}
    (hdoubles : DoublesOf step g doubles) {values : List Int}
    (hlen : values.length ≤ doubles.length) :
    values.zip doubles = points (withDoubles step g values) := by
  induction values generalizing g doubles with
  | nil => rfl
  | cons v values ih =>
    cases doubles with
    | nil => exact absurd hlen (by simp)
    | cons p doubles =>
      obtain ⟨rfl, hrest⟩ := hdoubles
      rw [List.zip_cons_cons, ih hrest (Nat.le_of_succ_le_succ hlen)]
      rfl

/-- Values up to a magnitude contribute the multiple by the number that they denote. -/
theorem sumUpTo_withDoubles {magnitude step : Nat} {values : List Int}
    (h : ∀ v ∈ values, v.natAbs ≤ magnitude) (g : PointGroup) :
    sumUpTo magnitude (withDoubles step g values) = weightedValue step values • g := by
  induction values generalizing g with
  | nil => exact (zero_zsmul g).symm
  | cons v values ih =>
    have hrest := ih (fun w hw ↦ h w (List.mem_cons_of_mem v hw)) (2 ^ step • g)
    unfold sumUpTo at hrest ⊢
    rw [withDoubles, List.map_cons, List.sum_cons, hrest]
    dsimp only
    rw [if_pos (h v List.mem_cons_self), ← natCast_zsmul g (2 ^ step), ← mul_zsmul', ← add_zsmul,
      weightedValue, weightedValue, List.foldr_cons]
    push_cast
    rfl

/-- With a table of an element that has an entry for every piece, the run gives the multiple by
the scalar. -/
theorem denotes_multiple {step : Nat} (hstep : step ≠ 0) {g : PointGroup} {doubles : List Affine}
    (hdoubles : DoublesOf step g doubles) {k : Nat}
    (hlen : (nonAdjacentForm 2 k).length ≤ step * doubles.length) :
    (multiple step doubles k).Denotes (k • g) := by
  have hvalues : (pieceValues step k).length ≤ doubles.length := by
    rw [pieceValues, List.length_map]
    exact length_pieces_le hlen
  have hrun := denotes_sumDown (withDoubles step g (pieceValues step k)) (maxMagnitude step)
    Jacobian.denotes_infinity Jacobian.denotes_infinity
  rw [← zip_eq_points hdoubles hvalues, sumUpTo_withDoubles natAbs_le_of_mem_pieceValues,
    pieceValues, weightedValue_pieces hstep, Number.pieceValue_nonAdjacentForm (by decide),
    nsmul_zero, add_zero, zero_add, natCast_zsmul] at hrun
  exact hrun

end Secp.Curve.FixedBase
