import Mathlib.Algebra.BigOperators.Group.Finset.Basic
import Mathlib.Algebra.BigOperators.Ring.Finset
import Mathlib.Data.List.GetD
import Mathlib.Tactic.Ring
import Secp.Curve.FixedBase
import Secp.Number.Bits

/-!
# Non-adjacent forms denote their numbers

Taking a digit off a number leaves twice the number that the further digits denote, so the digits
of `n` denote `n`. An odd number leaves a multiple of `2 ^ window` when its digit is taken off, and
zeros follow until that power of two is used up. The digits therefore stand apart, each is small,
and there is at most one more of them than the number has bits.
-/

namespace Secp.Curve.FixedBase

/-- No digits denote zero. -/
@[simp] theorem pieceValue_nil : pieceValue [] = 0 := rfl

/-- The first digit is the least significant one. -/
@[simp] theorem pieceValue_cons (d : Int) (digits : List Int) :
    pieceValue (d :: digits) = 2 * pieceValue digits + d := rfl

/-- The opposite digits denote the opposite. -/
theorem pieceValue_map_neg (digits : List Int) :
    pieceValue (digits.map (- ·)) = -pieceValue digits := by
  induction digits with
  | nil => rfl
  | cons d digits ih =>
    rw [List.map_cons, pieceValue_cons, pieceValue_cons, ih]
    omega

/-- The digits from a place on denote twice what those after it do, and the digit there. -/
theorem pieceValue_drop (digits : List Int) (place : Nat) :
    pieceValue (digits.drop place) =
      2 * pieceValue (digits.drop (place + 1)) + digits.getD place 0 := by
  induction digits generalizing place with
  | nil => simp
  | cons d digits ih =>
    cases place with
    | zero => rfl
    | succ place => exact ih place

/-- Digits denote their sum, each weighted by the power of two of its place. -/
theorem pieceValue_eq_sum (digits : List Int) :
    pieceValue digits = ∑ i ∈ Finset.range digits.length, digits.getD i 0 * 2 ^ i := by
  induction digits with
  | nil => rfl
  | cons d digits ih =>
    rw [pieceValue_cons, ih, List.length_cons, Finset.sum_range_succ', Finset.mul_sum]
    congr 1
    · refine Finset.sum_congr rfl fun i _ ↦ ?_
      rw [List.getD_cons_succ, pow_succ]
      ring
    · rw [List.getD_cons_zero, pow_zero, mul_one]

end Secp.Curve.FixedBase

namespace Secp.Number

open Curve.FixedBase (pieceValue)

variable {window n : Nat}

/-- What remains of a number when its digit is taken off. -/
def windowRest (window n : Nat) : Nat := ((n - windowDigit window n) / 2).toNat

/-- Among `window` digits in a row at most one is not zero. -/
def Sparse (window : Nat) (digits : List Int) : Prop :=
  ∀ i j, i < j → j < i + window → digits.getD i 0 = 0 ∨ digits.getD j 0 = 0

/-- An even number has the digit zero. -/
theorem windowDigit_of_even (h : n % 2 = 0) : windowDigit window n = 0 := if_pos h

/-- The digit of an odd number is its remainder of least magnitude, which is odd too. -/
theorem windowDigit_of_odd (hw : 2 ≤ window) (h : n % 2 = 1) :
    (∃ q : Int, n - windowDigit window n = 2 ^ window * q) ∧ windowDigit window n ≤ n ∧
      windowDigit window n % 2 = 1 ∧ (windowDigit window n).natAbs < 2 ^ (window - 1) := by
  obtain ⟨w, rfl⟩ : ∃ w, window = w + 2 := ⟨window - 2, by omega⟩
  have hhalf : 2 ^ (w + 2) = 2 * 2 ^ (w + 1) := by rw [Nat.pow_succ]; omega
  have heven : 2 ^ (w + 1) = 2 * 2 ^ w := by rw [Nat.pow_succ]; omega
  have hodd : n % 2 ^ (w + 2) % 2 = n % 2 := Nat.mod_mod_of_dvd n ⟨2 ^ (w + 1), hhalf⟩
  have hlt := Nat.mod_lt n (Nat.two_pow_pos (w + 2))
  have hle := Nat.mod_le n (2 ^ (w + 2))
  have hsplit : (2 ^ (w + 2) : Int) * (n / 2 ^ (w + 2) : Nat) + (n % 2 ^ (w + 2) : Nat) = n := by
    exact_mod_cast Nat.div_add_mod n (2 ^ (w + 2))
  have hcast : ((2 ^ (w + 2) : Nat) : Int) = 2 ^ (w + 2) := by push_cast; rfl
  simp only [windowDigit, h, Nat.one_ne_zero, if_false, show w + 2 - 1 = w + 1 by omega]
  split
  · refine ⟨⟨(n / 2 ^ (w + 2) : Nat) + 1, ?_⟩, ?_, ?_, ?_⟩
    · rw [mul_add, hcast]
      omega
    all_goals omega
  · refine ⟨⟨(n / 2 ^ (w + 2) : Nat), ?_⟩, ?_, ?_, ?_⟩
    all_goals omega

/-- A number is its digit and twice what remains. -/
theorem windowDigit_add_two_mul_rest (hw : 2 ≤ window) :
    windowDigit window n + 2 * (windowRest window n : Int) = n := by
  unfold windowRest
  rcases Nat.mod_two_eq_zero_or_one n with h | h
  · rw [windowDigit_of_even h]
    omega
  · obtain ⟨-, hle, hodd, -⟩ := windowDigit_of_odd hw h
    omega

/-- After the digit of an odd number, what remains is a multiple of `2 ^ (window - 1)`. -/
theorem dvd_windowRest (hw : 2 ≤ window) (h : n % 2 = 1) :
    2 ^ (window - 1) ∣ windowRest window n := by
  obtain ⟨⟨q, hq⟩, -⟩ := windowDigit_of_odd hw h
  have hrest := windowDigit_add_two_mul_rest (n := n) hw
  have hpow : (2 : Int) ^ window = 2 * 2 ^ (window - 1) := by
    rw [← pow_succ', Nat.sub_add_cancel (by omega)]
  rw [hpow, mul_assoc] at hq
  have hdvd : ((2 : Int) ^ (window - 1)) ∣ windowRest window n := ⟨q, by omega⟩
  exact_mod_cast hdvd

/-- Half of an even number remains. -/
theorem windowRest_of_even (h : n % 2 = 0) : windowRest window n = n / 2 := by
  rw [windowRest, windowDigit_of_even h]
  omega

/-- The digits of zero. -/
@[simp] theorem nonAdjacentForm_zero : nonAdjacentForm window 0 = [] := by
  rw [nonAdjacentForm, dif_pos (.inl rfl)]

/-- The digits of any other number. -/
theorem nonAdjacentForm_of_ne_zero (hw : 2 ≤ window) (hn : n ≠ 0) :
    nonAdjacentForm window n =
      windowDigit window n :: nonAdjacentForm window (windowRest window n) := by
  rw [nonAdjacentForm, dif_neg (by omega), windowRest]

/-- To prove something of all numbers, prove it of zero, and of a number from what remains of it
when its digit is taken off. -/
theorem windowRest_induction (hw : 2 ≤ window) {motive : Nat → Prop} (zero : motive 0)
    (step : ∀ n, n ≠ 0 → motive (windowRest window n) → motive n) (n : Nat) : motive n := by
  induction n using Nat.strongRecOn with
  | _ n ih =>
    by_cases hn : n = 0
    · rwa [hn]
    · exact step n hn (ih _ (windowDigit_rest_lt hw hn))

/-- The digits of a number denote it. -/
theorem pieceValue_nonAdjacentForm (hw : 2 ≤ window) (n : Nat) :
    pieceValue (nonAdjacentForm window n) = n := by
  induction n using windowRest_induction hw with
  | zero => rw [nonAdjacentForm_zero]; rfl
  | step n hn ih =>
    have hrest := windowDigit_add_two_mul_rest (n := n) hw
    rw [nonAdjacentForm_of_ne_zero hw hn, Curve.FixedBase.pieceValue_cons, ih]
    omega

example : nonAdjacentForm 2 15 = [-1, 0, 0, 0, 1] := by decide +kernel

/-- A digit other than zero is odd and smaller than half the window. -/
theorem odd_and_lt_of_mem_nonAdjacentForm (hw : 2 ≤ window) (n : Nat) :
    ∀ d ∈ nonAdjacentForm window n, d ≠ 0 → d % 2 = 1 ∧ d.natAbs < 2 ^ (window - 1) := by
  induction n using windowRest_induction hw with
  | zero => simp
  | step n hn ih =>
    intro d hd hne
    rw [nonAdjacentForm_of_ne_zero hw hn] at hd
    rcases List.mem_cons.mp hd with rfl | hd
    · rcases Nat.mod_two_eq_zero_or_one n with h | h
      · exact absurd (windowDigit_of_even h) hne
      · exact (windowDigit_of_odd hw h).2.2
    · exact ih d hd hne

/-- The digits of a multiple of `2 ^ k` begin with `k` zeros. -/
theorem getD_nonAdjacentForm_of_dvd (hw : 2 ≤ window) {k j : Nat} (hj : j < k)
    (h : 2 ^ k ∣ n) : (nonAdjacentForm window n).getD j 0 = 0 := by
  induction j generalizing k n with
  | zero =>
    have heven : n % 2 = 0 := Nat.mod_eq_zero_of_dvd ((dvd_pow_self 2 (by omega)).trans h)
    by_cases hn : n = 0
    · simp [hn]
    · rw [nonAdjacentForm_of_ne_zero hw hn, List.getD_cons_zero, windowDigit_of_even heven]
  | succ j ih =>
    obtain ⟨k, rfl⟩ : ∃ k', k = k' + 1 := ⟨k - 1, by omega⟩
    have heven : n % 2 = 0 := Nat.mod_eq_zero_of_dvd ((dvd_pow_self 2 (by omega)).trans h)
    by_cases hn : n = 0
    · simp [hn]
    · rw [nonAdjacentForm_of_ne_zero hw hn, List.getD_cons_succ, windowRest_of_even heven]
      apply ih (Nat.lt_of_succ_lt_succ hj)
      rw [Nat.pow_succ] at h
      exact (Nat.dvd_div_iff_mul_dvd (by omega)).mpr (by rwa [Nat.mul_comm])

/-- Digits other than zero stand a window apart. -/
theorem sparse_nonAdjacentForm (hw : 2 ≤ window) (n : Nat) :
    Sparse window (nonAdjacentForm window n) := by
  induction n using windowRest_induction hw with
  | zero =>
    intro i j hi hj
    simp
  | step n hn ih =>
    intro i j hi hj
    obtain ⟨j, rfl⟩ : ∃ j', j = j' + 1 := ⟨j - 1, by omega⟩
    rw [nonAdjacentForm_of_ne_zero hw hn, List.getD_cons_succ]
    cases i with
    | zero =>
      rcases Nat.mod_two_eq_zero_or_one n with h | h
      · exact .inl (windowDigit_of_even h)
      · exact .inr (getD_nonAdjacentForm_of_dvd hw (by omega) (dvd_windowRest hw h))
    | succ i => exact ih i j (by omega) (by omega)

/-- What remains does not round a number past a power of two. -/
theorem two_mul_windowRest_le (hw : 2 ≤ window) {k : Nat} (h : n ≤ 2 ^ k) :
    2 * windowRest window n ≤ 2 ^ k := by
  have hrest := windowDigit_add_two_mul_rest (n := n) hw
  rcases Nat.mod_two_eq_zero_or_one n with heven | hodd
  · rw [windowDigit_of_even heven] at hrest
    omega
  · have hlt := (windowDigit_of_odd hw hodd).2.2.2
    have hpow : 2 ^ window = 2 * 2 ^ (window - 1) := by
      rw [← Nat.pow_succ', Nat.succ_eq_add_one, Nat.sub_add_cancel (by omega)]
    have hdvd : 2 ^ window ∣ 2 * windowRest window n := by
      rw [hpow]
      exact Nat.mul_dvd_mul_left 2 (dvd_windowRest hw hodd)
    -- A multiple of the window is rounded to, which is no more than `2 ^ k` if that is one too.
    by_cases hk : window ≤ k
    · exact Nat.le_of_lt_add_of_dvd (by omega) hdvd (Nat.pow_dvd_pow 2 hk)
    · have hsmall : 2 ^ k ≤ 2 ^ (window - 1) := Nat.pow_le_pow_right (by decide) (by omega)
      have hzero := Nat.eq_zero_of_dvd_of_lt hdvd (by omega)
      omega

/-- A number up to `2 ^ k` has at most one digit more than `k`. -/
theorem length_nonAdjacentForm_le (hw : 2 ≤ window) {k : Nat} (h : n ≤ 2 ^ k) :
    (nonAdjacentForm window n).length ≤ k + 1 := by
  induction k generalizing n with
  | zero =>
    by_cases hn : n = 0
    · simp [hn]
    · have hrest := two_mul_windowRest_le hw h
      rw [nonAdjacentForm_of_ne_zero hw hn, show windowRest window n = 0 by omega]
      simp
  | succ k ih =>
    by_cases hn : n = 0
    · simp [hn]
    · have hrest := two_mul_windowRest_le hw h
      rw [nonAdjacentForm_of_ne_zero hw hn, List.length_cons]
      exact Nat.succ_le_succ (ih (by rw [Nat.pow_succ] at hrest; omega))

/-- There is at most one more digit than the number has bits. -/
theorem length_nonAdjacentForm_le_bitLength (hw : 2 ≤ window) (n : Nat) :
    (nonAdjacentForm window n).length ≤ bitLength n + 1 :=
  length_nonAdjacentForm_le hw (Nat.le_of_lt (lt_two_pow_bitLength n))

/-- Only zero has no digits. -/
theorem nonAdjacentForm_eq_nil_iff (hw : 2 ≤ window) : nonAdjacentForm window n = [] ↔ n = 0 := by
  constructor
  · intro hnil
    by_contra hn
    rw [nonAdjacentForm_of_ne_zero hw hn] at hnil
    exact absurd hnil (List.cons_ne_nil _ _)
  · rintro rfl
    exact nonAdjacentForm_zero

/-- The most significant digit is not zero. -/
theorem getLast?_nonAdjacentForm_ne_zero (hw : 2 ≤ window) (n : Nat) :
    (nonAdjacentForm window n).getLast? ≠ some 0 := by
  induction n using windowRest_induction hw with
  | zero => rw [nonAdjacentForm_zero]; exact nofun
  | step n hn ih =>
    rw [nonAdjacentForm_of_ne_zero hw hn]
    cases hrest : nonAdjacentForm window (windowRest window n) with
    | nil =>
      -- The last digit is the whole number that is left.
      have hvalue := windowDigit_add_two_mul_rest (n := n) hw
      rw [(nonAdjacentForm_eq_nil_iff hw).mp hrest] at hvalue
      rw [List.getLast?_singleton, ne_eq, Option.some.injEq]
      omega
    | cons d rest =>
      rw [List.getLast?_cons_cons, ← hrest]
      exact ih

end Secp.Number
