import Mathlib.Algebra.BigOperators.Intervals
import Mathlib.Algebra.BigOperators.Ring.Finset
import Mathlib.Data.List.Induction
import Mathlib.Data.Nat.Digits.Defs
import Secp.Limbs.Product
import Secp.Proofs.Limbs.Value

/-!
# Products by columns

A column is the sum of the products of limbs at positions that add up to its own, so that all
columns together, each at its weight, make up the product; up to 64 of them fit a wide word with
the carry. The columns of a square read the same from both ends, and one half of each is formed
and doubled.
-/

namespace Secp.Limbs

variable {a b xs ys ws : Limbs}

/-- The sum of the products of limbs whose positions add up to `k`. -/
def antidiagonal : Limbs → Limbs → Nat → Nat
  | [], _, _ => 0
  | x :: _, ys, 0 => x.toNat * (ys.getD 0 0).toNat
  | x :: xs, ys, k + 1 => x.toNat * (ys.getD (k + 1) 0).toNat + antidiagonal xs ys k

/-- A limb at any position, or zero beyond the last, is a limb. -/
theorem Bounded.getD_lt (h : Bounded ws) (k : Nat) : (ws.getD k 0).toNat < base := by
  rw [List.getD_eq_getElem?_getD]
  cases hk : ws[k]? with
  | none => decide
  | some w => exact h w (List.mem_of_getElem? hk)

/-- The sum over one antidiagonal is at most a product of limbs for each of them. -/
theorem antidiagonal_le (hxs : Bounded xs) (hys : Bounded ys) (k : Nat) :
    antidiagonal xs ys k ≤ xs.length * (base * base) := by
  fun_induction antidiagonal xs ys k with
  | case1 => exact Nat.zero_le _
  | case2 x xs ys =>
    obtain ⟨hx, hxs⟩ := bounded_cons.mp hxs
    have hle := Nat.mul_le_mul hx.le (hys.getD_lt 0).le
    rw [List.length_cons, Nat.succ_mul]
    exact hle.trans (Nat.le_add_left _ _)
  | case3 x xs ys k ih =>
    obtain ⟨hx, hxs⟩ := bounded_cons.mp hxs
    have hle := Nat.mul_le_mul hx.le (hys.getD_lt (k + 1)).le
    rw [List.length_cons, Nat.succ_mul, Nat.add_comm]
    exact Nat.add_le_add (ih hxs hys) hle

/-- Nothing meets an empty magnitude. -/
@[simp] theorem dot_nil_right (xs : Limbs) : dot xs [] = 0 := by cases xs <;> rfl

/-- The first limbs meet each other. -/
theorem dot_cons (x y : UInt32) (xs ys : Limbs) :
    dot (x :: xs) (y :: ys) = x.toUInt64 * y.toUInt64 + dot xs ys := rfl

/-- A column is the product of the first limb with the one at the column's position, and the column
below of the other limbs. -/
theorem column_cons (x : UInt32) (xs ys : Limbs) (k : Nat) :
    column (x :: xs) ys (k + 1) = x.toUInt64 * (ys.getD (k + 1) 0).toUInt64 + column xs ys k := by
  unfold column
  rcases Nat.lt_or_ge (k + 1) ys.length with hlt | hge
  · have hlast : ys.take (k + 2) = ys.take (k + 1) ++ [ys.getD (k + 1) 0] := by
      rw [List.take_add_one, List.getD_eq_getElem?_getD, List.getElem?_eq_getElem hlt]
      rfl
    rw [hlast, Nat.sub_eq_zero_of_le (Nat.succ_le_of_lt hlt), Nat.sub_eq_zero_of_le hlt.le,
      List.reverse_append]
    rfl
  · have hzero : ys.getD (k + 1) 0 = 0 := by simp [hge]
    rw [hzero, List.take_of_length_le hge, List.take_of_length_le (hge.trans (Nat.le_succ _)),
      Nat.succ_sub hge, List.drop_succ_cons]
    simp

/-- The lowest column is the product of the first limbs. -/
theorem column_zero (x : UInt32) (xs ys : Limbs) :
    column (x :: xs) ys 0 = x.toUInt64 * (ys.getD 0 0).toUInt64 := by
  cases ys with
  | nil => simp [column]
  | cons y ys => simp [column, dot]

/-- A column of few enough limbs does not overflow. -/
theorem toNat_column (hxs : Bounded xs) (hys : Bounded ys) (hlength : xs.length ≤ columnLimit)
    (k : Nat) : (column xs ys k).toNat = antidiagonal xs ys k := by
  unfold columnLimit at hlength
  fun_induction antidiagonal xs ys k with
  | case1 ys k => simp [column, dot]
  | case2 x xs ys =>
    obtain ⟨hx, hxs⟩ := bounded_cons.mp hxs
    have hle := Nat.mul_le_mul hx.le (hys.getD_lt 0).le
    rw [base_eq] at hle
    rw [column_zero]
    exact toNat_mul64 (by simp only [UInt32.toNat_toUInt64]; omega)
  | case3 x xs ys k ih =>
    obtain ⟨hx, hxs⟩ := bounded_cons.mp hxs
    rw [List.length_cons] at hlength
    have hle := Nat.mul_le_mul hx.le (hys.getD_lt (k + 1)).le
    have hrest := ih hxs hys (by omega)
    have hbound := antidiagonal_le hxs hys k
    have hlimbs := Nat.mul_le_mul_right (base * base) (show xs.length ≤ 63 by omega)
    rw [base_eq] at hle hbound hlimbs
    rw [← hrest] at hbound ⊢
    rw [column_cons]
    exact toNat_mul_add64 (by simp only [UInt32.toNat_toUInt64]; omega)

/-- The limbs of a number, each at its weight, make it up; there is nothing beyond the last. -/
theorem sum_getD (ys : Limbs) {count : Nat} (h : ys.length ≤ count) :
    ∑ k ∈ Finset.range count, (ys.getD k 0).toNat * base ^ k = toNat ys := by
  induction ys generalizing count with
  | nil => simp
  | cons y ys ih =>
    obtain ⟨count, rfl⟩ := Nat.exists_eq_succ_of_ne_zero (Nat.ne_of_gt (Nat.lt_of_lt_of_le
      (Nat.succ_pos ys.length) h))
    rw [Finset.sum_range_succ', toNat_cons, ← ih (Nat.le_of_succ_le_succ h), Finset.mul_sum,
      Nat.add_comm]
    congr 1
    · simp
    · refine Finset.sum_congr rfl fun k _ ↦ ?_
      rw [List.getD_cons_succ, Nat.pow_succ']
      ring

/-- The antidiagonals, each at its weight, make up the product. -/
theorem sum_antidiagonal (xs ys : Limbs) {count : Nat} (h : xs.length + ys.length ≤ count + 1) :
    ∑ k ∈ Finset.range count, antidiagonal xs ys k * base ^ k = toNat xs * toNat ys := by
  induction xs generalizing count with
  | nil => simp [antidiagonal]
  | cons x xs ih =>
    rw [List.length_cons] at h
    cases count with
    | zero =>
      have hnil : ys = [] := List.eq_nil_of_length_eq_zero (by omega)
      simp [hnil]
    | succ count =>
      have hrow := sum_getD ys (show ys.length ≤ count + 1 by omega)
      rw [Finset.sum_range_succ'] at hrow ⊢
      have hsplit : ∀ k, antidiagonal (x :: xs) ys (k + 1) * base ^ (k + 1) =
          x.toNat * ((ys.getD (k + 1) 0).toNat * base ^ (k + 1)) +
            base * (antidiagonal xs ys k * base ^ k) := by
        intro k
        rw [antidiagonal, Nat.pow_succ']
        ring
      simp only [hsplit, Finset.sum_add_distrib, ← Finset.mul_sum]
      rw [ih (by omega), antidiagonal, toNat_cons, Nat.add_mul, ← hrow]
      ring

/-- Carrying column sums up makes limbs of the number that the columns denote at their weights,
when that has at most one limb more than there are columns. -/
theorem carryColumns_spec {sums : List UInt64} {c : UInt64}
    (hsums : ∀ s ∈ sums, s.toNat < 2 ^ 63) (hc : c.toNat < 2 ^ 63)
    (hlt : Nat.ofDigits base (sums.map UInt64.toNat) + c.toNat < base ^ (sums.length + 1)) :
    toNat (carryColumns sums c) = Nat.ofDigits base (sums.map UInt64.toNat) + c.toNat ∧
      Bounded (carryColumns sums c) := by
  fun_induction carryColumns sums c with
  | case1 c =>
    rw [List.map_nil, Nat.ofDigits_nil, Nat.zero_add, List.length_nil, Nat.pow_one] at hlt
    rw [List.map_nil, Nat.ofDigits_nil, toNat_cons, toNat_nil, Nat.zero_add, Nat.mul_zero,
      Nat.add_zero, toNat_toUInt32 (hlt.trans (by decide))]
    refine ⟨rfl, bounded_cons.mpr ⟨?_, bounded_nil⟩⟩
    rwa [toNat_toUInt32 (hlt.trans (by decide))]
  | case2 s sums c t ih =>
    obtain ⟨hs, hsums⟩ := List.forall_mem_cons.mp hsums
    have ht : t.toNat = c.toNat + s.toNat := toNat_add64 (by omega)
    have hcarry : (high t).toNat < 2 ^ 63 := by
      have := t.toNat_lt
      rw [toNat_high, base_eq]
      omega
    rw [List.map_cons, Nat.ofDigits_cons] at hlt ⊢
    have hrest : Nat.ofDigits base (sums.map UInt64.toNat) + (high t).toNat <
        base ^ (sums.length + 1) := by
      rw [List.length_cons, Nat.pow_succ'] at hlt
      refine Nat.lt_of_mul_lt_mul_left (a := base) (Nat.lt_of_le_of_lt ?_ hlt)
      have := Nat.mod_add_div t.toNat base
      rw [toNat_high, Nat.mul_add]
      omega
    obtain ⟨hvalue, hbounded⟩ := ih hsums hcarry hrest
    refine ⟨?_, bounded_cons.mpr ⟨low_lt t, hbounded⟩⟩
    rw [toNat_cons, hvalue, toNat_low, toNat_high, mod_add_base_mul, ht]
    ring

/-- Digits given by position denote the sum of the digits at their weights. -/
theorem ofDigits_map_range (f : Nat → Nat) (count : Nat) :
    Nat.ofDigits base ((List.range count).map f) = ∑ k ∈ Finset.range count, f k * base ^ k := by
  induction count generalizing f with
  | zero => rfl
  | succ count ih =>
    rw [List.range_succ_eq_map, List.map_cons, List.map_map, Nat.ofDigits_cons, ih,
      Finset.sum_range_succ', Finset.mul_sum, Nat.add_comm]
    congr 1
    · refine Finset.sum_congr rfl fun k _ ↦ ?_
      rw [Function.comp_apply, Nat.pow_succ']
      ring
    · simp

/-- Columns below the last position, carried up, make the limbs of the product. -/
theorem carryColumns_column (ha : Bounded a) (hb : Bounded b) (hne : a ≠ [])
    (hlength : a.length ≤ columnLimit) :
    toNat (carryColumns ((List.range (a.length + b.length - 1)).map (column a b)) 0) =
        toNat a * toNat b ∧
      Bounded (carryColumns ((List.range (a.length + b.length - 1)).map (column a b)) 0) := by
  have hpos := List.length_pos_of_ne_nil hne
  have hcolumns : ((List.range (a.length + b.length - 1)).map (column a b)).map UInt64.toNat =
      (List.range (a.length + b.length - 1)).map (antidiagonal a b) := by
    rw [List.map_map]
    exact List.map_congr_left fun k _ ↦ toNat_column ha hb hlength k
  have hproduct : Nat.ofDigits base (((List.range (a.length + b.length - 1)).map
      (column a b)).map UInt64.toNat) = toNat a * toNat b := by
    rw [hcolumns, ofDigits_map_range, sum_antidiagonal a b (by omega)]
  have hsums : ∀ s ∈ (List.range (a.length + b.length - 1)).map (column a b), s.toNat < 2 ^ 63 := by
    intro s hs
    obtain ⟨k, -, rfl⟩ := List.mem_map.mp hs
    have hle := antidiagonal_le ha hb k
    have hlimbs := Nat.mul_le_mul_right (base * base) hlength
    rw [toNat_column ha hb hlength]
    rw [columnLimit, base_eq] at *
    omega
  have hspec := carryColumns_spec (c := 0) hsums (by decide) (by
    rw [hproduct, List.length_map, List.length_range, Nat.sub_add_cancel (by omega)]
    exact ha.toNat_mul_lt hb)
  rwa [hproduct] at hspec

/-- Limbs beyond the end of the other magnitude meet nothing. -/
theorem dot_append_right {ys zs : Limbs} (h : xs.length ≤ ys.length) :
    dot xs (ys ++ zs) = dot xs ys := by
  induction xs generalizing ys with
  | nil => rfl
  | cons x xs ih =>
    cases ys with
    | nil => exact absurd h (Nat.not_succ_le_zero _)
    | cons y ys => rw [List.cons_append, dot_cons, dot_cons, ih (Nat.le_of_succ_le_succ h)]

/-- Sums over equally many limbs add up. -/
theorem dot_append {zs vs : Limbs} (h : xs.length = ys.length) :
    dot (xs ++ zs) (ys ++ vs) = dot xs ys + dot zs vs := by
  induction xs generalizing ys with
  | nil =>
    rw [List.eq_nil_of_length_eq_zero h.symm]
    exact (UInt64.zero_add _).symm
  | cons x xs ih =>
    cases ys with
    | nil => exact absurd h.symm (Nat.zero_ne_add_one _)
    | cons y ys =>
      rw [List.cons_append, List.cons_append, dot_cons, dot_cons, ih (Nat.succ.inj h),
        UInt64.add_assoc]

/-- Products of limbs commute. -/
theorem dot_comm (xs ys : Limbs) : dot xs ys = dot ys xs := by
  fun_induction dot xs ys with
  | case1 x xs y ys ih => rw [dot_cons, ih, UInt64.mul_comm]
  | case2 xs ys h =>
    cases ys with
    | nil => rfl
    | cons y ys =>
      cases xs with
      | nil => rfl
      | cons x xs => exact absurd rfl (h x xs y ys rfl)

/-- The limb in the middle of an odd number of limbs, and zero for an even number. -/
def middleLimb (part : Limbs) : UInt64 :=
  if part.length % 2 = 1 then (part.getD (part.length / 2) 0).toUInt64 else 0

/-- A limb at either end leaves the middle as it is. -/
theorem middleLimb_cons_append (x y : UInt32) (part : Limbs) :
    middleLimb (x :: (part ++ [y])) = middleLimb part := by
  have hlength : (x :: (part ++ [y])).length = part.length + 2 := by simp
  have hhalf : (part.length + 2) / 2 = part.length / 2 + 1 := by omega
  unfold middleLimb
  rw [hlength, Nat.add_mod_right, hhalf, List.getD_cons_succ]
  split
  · next hodd =>
    rw [List.getD_eq_getElem?_getD, List.getElem?_append_left (by omega),
      ← List.getD_eq_getElem?_getD]
  · rfl

/-- The sum of the products of opposite limbs: each product of two different limbs arises twice,
and the limb in the middle, if there is one, gives its square. -/
theorem dot_reverse (part : Limbs) :
    dot part part.reverse =
      2 * dot (part.take (part.length / 2)) part.reverse + middleLimb part * middleLimb part := by
  induction part using List.bidirectionalRec with
  | nil => rfl
  | singleton x => simp [dot, middleLimb]
  | cons_append x part y ih =>
    have hlength : (x :: (part ++ [y])).length = part.length + 2 := by simp
    have hreverse : (x :: (part ++ [y])).reverse = y :: (part.reverse ++ [x]) := by simp
    have hhalf : (x :: (part ++ [y])).take ((part.length + 2) / 2) =
        x :: part.take (part.length / 2) := by
      rw [show (part.length + 2) / 2 = part.length / 2 + 1 by omega, List.take_succ_cons,
        List.take_append_of_le_length (Nat.div_le_self _ _)]
    have hcross : dot (part.take (part.length / 2)) (part.reverse ++ [x]) =
        dot (part.take (part.length / 2)) part.reverse :=
      dot_append_right (by simp)
    rw [middleLimb_cons_append, hreverse, hlength, hhalf, dot_cons, dot_cons, hcross,
      dot_append (List.length_reverse).symm, ih, dot_cons, dot_nil_right]
    generalize dot (part.take (part.length / 2)) part.reverse = cross
    generalize middleLimb part = middle
    grind

/-- A column of a square, formed from one half of its products, is the column of the product. -/
theorem squareColumn_eq_column (a : Limbs) (k : Nat) : squareColumn a k = column a a k := by
  have hcolumn : column a a k =
      dot ((a.take (k + 1)).drop (k + 1 - a.length))
        ((a.take (k + 1)).drop (k + 1 - a.length)).reverse := by
    unfold column
    rcases Nat.le_total (k + 1) a.length with hle | hge
    · rw [Nat.sub_eq_zero_of_le hle, List.drop_zero, List.drop_zero]
      conv_lhs => rw [dot_comm, ← List.take_append_drop (k + 1) a]
      rw [dot_append_right (by simp), dot_comm, List.take_append_drop]
    · rw [List.take_of_length_le hge]
      conv_lhs => rw [← List.take_append_drop (k + 1 - a.length) a]
      rw [List.reverse_append, dot_append_right (by simp), List.take_append_drop]
  rw [hcolumn, dot_reverse]
  rfl

/-- The product by columns denotes the product of the numbers. -/
theorem toNat_mulColumns (ha : Bounded a) (hb : Bounded b) (hne : a ≠ [])
    (hlength : a.length ≤ columnLimit) : toNat (mulColumns a b) = toNat a * toNat b := by
  rw [mulColumns, toNat_trim]
  exact (carryColumns_column ha hb hne hlength).1

/-- The product by columns is canonical. -/
theorem canonical_mulColumns (ha : Bounded a) (hb : Bounded b) (hne : a ≠ [])
    (hlength : a.length ≤ columnLimit) : Canonical (mulColumns a b) :=
  (carryColumns_column ha hb hne hlength).2.canonical_trim

end Secp.Limbs
