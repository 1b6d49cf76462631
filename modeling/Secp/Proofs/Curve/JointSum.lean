import Secp.Curve.JointSum
import Secp.Proofs.Curve.Coordinates
import Secp.Proofs.Number.NonAdjacent

/-!
# Joint sums add up the multiples

A table holds the odd multiples of an element when every entry that a digit can name denotes the
multiple it should. While the places are run through from the highest down, the sum denotes what
the digits passed so far add up to; at the end it denotes the sum of all multiples.
-/

namespace Secp.Curve

open FixedBase (pieceValue)

/-- The first entries of a table denote the odd multiples of an element, ascending. -/
def OddMultiples.Hold (count : Nat) (g : PointGroup) : OddMultiples → Prop
  | affine points => ∀ i < count, points[i]? = some (.ofGroup ((2 * i + 1) • g))
  | jacobian points => ∀ i < count, ∃ p, points[i]? = some p ∧ p.Denotes ((2 * i + 1) • g)

/-- A term with the element that it is a multiple of: the table holds the multiples that the digits
name. -/
structure Multiple extends Term where
  element : PointGroup
  count : Nat
  hold : table.Hold count element
  odd_and_lt : ∀ d ∈ digits, d ≠ 0 → d % 2 = 1 ∧ d.natAbs < 2 * count

/-- The digits of a scalar's term denote the scalar. -/
theorem Term.pieceValue_ofScalar {window : Nat} (hw : 2 ≤ window) (k : Int)
    (table : OddMultiples) : pieceValue (ofScalar window k table).digits = k := by
  have hvalue := Number.pieceValue_nonAdjacentForm hw k.natAbs
  unfold ofScalar
  dsimp only
  split
  · rw [FixedBase.pieceValue_map_neg, hvalue]
    omega
  · rw [hvalue]
    omega

/-- The digits of a scalar's term name odd multiples of its window. -/
theorem Term.odd_and_lt_of_mem_ofScalar {window : Nat} (hw : 2 ≤ window) (k : Int)
    (table : OddMultiples) :
    ∀ d ∈ (ofScalar window k table).digits, d ≠ 0 →
      d % 2 = 1 ∧ d.natAbs < 2 * 2 ^ (window - 2) := by
  have hdigits := Number.odd_and_lt_of_mem_nonAdjacentForm hw k.natAbs
  rw [show window - 1 = window - 2 + 1 by omega, Nat.pow_succ'] at hdigits
  unfold ofScalar
  dsimp only
  split
  · intro d hd hne
    obtain ⟨e, he, rfl⟩ := List.mem_map.mp hd
    have := hdigits e he (by omega)
    omega
  · exact hdigits

/-- The term of a scalar and the odd multiples of an element. -/
def Multiple.ofScalar {window : Nat} (hw : 2 ≤ window) (k : Int) {table : OddMultiples}
    {g : PointGroup} (hold : table.Hold (2 ^ (window - 2)) g) : Multiple where
  toTerm := .ofScalar window k table
  element := g
  count := 2 ^ (window - 2)
  hold := hold
  odd_and_lt := Term.odd_and_lt_of_mem_ofScalar hw k table

/-- The entry that an odd digit names adds the multiple by the digit. -/
theorem Jacobian.Denotes.addMultiple {sum : Jacobian} {g h : PointGroup} (hsum : sum.Denotes g)
    {table : OddMultiples} {count : Nat} (htable : table.Hold count h) {d : Int} (hodd : d % 2 = 1)
    (hlt : d.natAbs < 2 * count) : (table.addMultiple sum d).Denotes (g + d • h) := by
  have hindex : (d.natAbs - 1) / 2 < count := by omega
  have habs : 2 * ((d.natAbs - 1) / 2) + 1 = d.natAbs := by omega
  have hsign : d • h = if 0 < d then d.natAbs • h else -(d.natAbs • h) := by
    rw [← natCast_zsmul, ← neg_zsmul]
    split
    · next hd => rw [Int.natAbs_of_nonneg hd.le]
    · next hd => rw [Int.ofNat_natAbs_of_nonpos (not_lt.mp hd), neg_neg]
  rw [hsign]
  cases table with
  | affine points =>
    have hentry := htable _ hindex
    rw [habs] at hentry
    simp only [OddMultiples.addMultiple, List.getD_eq_getElem?_getD, hentry, Option.getD_some]
    split
    · exact hsum.addAffine _
    · rw [Affine.neg_ofGroup]
      exact hsum.addAffine _
  | jacobian points =>
    obtain ⟨p, hentry, hp⟩ := htable _ hindex
    rw [habs] at hp
    simp only [OddMultiples.addMultiple, List.getD_eq_getElem?_getD, hentry, Option.getD_some]
    split
    · exact hsum.add hp
    · exact hsum.add hp.neg

namespace Multiple

/-- What the digits from a place on contribute. -/
def above (place : Nat) (m : Multiple) : PointGroup :=
  pieceValue (m.digits.drop place) • m.element

/-- What the digits from a place on contribute to a joint sum. -/
def sumAbove (place : Nat) (ms : List Multiple) : PointGroup := (ms.map (above place)).sum

/-- The digits from a place on contribute twice what those after it do, and the digit there. -/
theorem above_eq (place : Nat) (m : Multiple) :
    m.above place =
      m.above (place + 1) + m.above (place + 1) + m.digits.getD place 0 • m.element := by
  rw [above, FixedBase.pieceValue_drop, add_zsmul, two_mul, add_zsmul]
  rfl

/-- The digit at a place is added once. -/
theorem denotes_addAt {sum : Jacobian} {g : PointGroup} (hsum : sum.Denotes g) (m : Multiple)
    (place : Nat) :
    (m.toTerm.addAt place sum).Denotes (g + m.digits.getD place 0 • m.element) := by
  by_cases hne : m.digits.getD place 0 = 0
  · have hadd : m.toTerm.addAt place sum = sum := if_pos hne
    rw [hadd, hne, zero_zsmul, add_zero]
    exact hsum
  · have hadd : m.toTerm.addAt place sum = m.table.addMultiple sum (m.digits.getD place 0) :=
      if_neg hne
    have hmem : m.digits.getD place 0 ∈ m.digits := by
      rw [List.getD_eq_getElem?_getD] at hne ⊢
      cases hentry : m.digits[place]? with
      | none => simp [hentry] at hne
      | some d => exact List.mem_of_getElem? hentry
    obtain ⟨hodd, hlt⟩ := m.odd_and_lt _ hmem hne
    rw [hadd]
    exact hsum.addMultiple m.hold hodd hlt

/-- The digits of all terms at a place are added, each once. -/
theorem denotes_foldl_addAt (ms : List Multiple) (place : Nat) {sum : Jacobian} {g : PointGroup}
    (hsum : sum.Denotes g) :
    ((ms.map toTerm).foldl (Term.addAt place) sum).Denotes
      (g + (ms.map fun m ↦ m.digits.getD place 0 • m.element).sum) := by
  induction ms generalizing sum g with
  | nil => simpa using hsum
  | cons m ms ih =>
    rw [List.map_cons, List.foldl_cons, List.map_cons, List.sum_cons, ← add_assoc]
    exact ih (denotes_addAt hsum m place)

/-- Doubling and adding the digits at a place goes one place down. -/
theorem sumAbove_eq (place : Nat) (ms : List Multiple) :
    sumAbove place ms = sumAbove (place + 1) ms + sumAbove (place + 1) ms +
      (ms.map fun m ↦ m.digits.getD place 0 • m.element).sum := by
  unfold sumAbove
  rw [← List.sum_map_add, ← List.sum_map_add]
  congr 2
  funext m
  exact m.above_eq place

/-- From the sum of what the digits above a place contribute, the run makes the whole sum. -/
theorem denotes_jointSumFrom (ms : List Multiple) (place : Nat) {sum : Jacobian}
    (hsum : sum.Denotes (sumAbove place ms)) :
    (jointSumFrom (ms.map toTerm) place sum).Denotes (sumAbove 0 ms) := by
  induction place generalizing sum with
  | zero => exact hsum
  | succ place ih =>
    apply ih
    rw [sumAbove_eq]
    exact denotes_foldl_addAt ms place hsum.dbl

private theorem le_foldl_max (ns : List Nat) (m : Nat) :
    m ≤ ns.foldl max m ∧ ∀ n ∈ ns, n ≤ ns.foldl max m := by
  induction ns generalizing m with
  | nil => simp
  | cons k ns ih =>
    obtain ⟨hm, hns⟩ := ih (max m k)
    refine ⟨(le_max_left m k).trans hm, ?_⟩
    intro n hn
    rcases List.mem_cons.mp hn with rfl | hn
    · exact (le_max_right m n).trans hm
    · exact hns n hn

/-- The joint sum denotes the sum of the multiples. -/
theorem denotes_jointSum (ms : List Multiple) :
    (jointSum (ms.map toTerm)).Denotes ((ms.map fun m ↦ pieceValue m.digits • m.element).sum) := by
  apply denotes_jointSumFrom
  generalize hplace : ((ms.map toTerm).map (·.digits.length)).foldl max 0 = place
  -- Above the longest row of digits nothing is contributed.
  have hzero : ∀ g ∈ ms.map (above place), g = 0 := by
    intro g hg
    obtain ⟨m, hm, rfl⟩ := List.mem_map.mp hg
    have hlen := (le_foldl_max ((ms.map toTerm).map (·.digits.length)) 0).2 m.digits.length
      (List.mem_map_of_mem (List.mem_map_of_mem hm))
    rw [hplace] at hlen
    rw [above, List.drop_eq_nil_of_le hlen, FixedBase.pieceValue_nil, zero_zsmul]
  rw [sumAbove, List.sum_eq_zero hzero]
  exact Jacobian.denotes_infinity

end Multiple

end Secp.Curve
