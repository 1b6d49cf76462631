/-!
# Bit and byte lengths of a number

The length of a number is the count of its significant bits; zero has none. Its byte length
rounds that up to whole bytes.
-/

namespace Secp.Number

-- Powers of numbers are core's, whichever others are in scope.
attribute [local instance(2000)] instPowNat

/-- Significant bits: the least `k` with `n < 2 ^ k`. -/
def bitLength (n : Nat) : Nat := if n = 0 then 0 else n.log2 + 1

/-- Whole bytes that hold the significant bits. -/
def byteLength (n : Nat) : Nat := (bitLength n + 7) / 8

/-- The exponent of two in `n`, and zero for zero. -/
def trailingZeros (n : Nat) : Nat :=
  if h : n ≠ 0 ∧ n % 2 = 0 then trailingZeros (n / 2) + 1 else 0
termination_by n
decreasing_by exact Nat.div_lt_self (Nat.pos_of_ne_zero h.1) (by decide)

/-- A number is below the power of two that its bit length names. -/
theorem lt_two_pow_bitLength (n : Nat) : n < 2 ^ bitLength n := by
  unfold bitLength
  split
  · next h => simp [h]
  · exact Nat.lt_log2_self

/-- A number of more than `k` significant bits is at least `2 ^ k`, and conversely. -/
theorem lt_bitLength_iff (n k : Nat) : k < bitLength n ↔ 2 ^ k ≤ n := by
  unfold bitLength
  split
  · next h =>
    subst h
    simp only [Nat.not_lt_zero, false_iff, Nat.not_le]
    exact Nat.two_pow_pos k
  · next h =>
    rw [Nat.lt_succ_iff]
    exact Nat.le_log2 h

/-- The power of two that the trailing zeros name divides a number. -/
theorem two_pow_trailingZeros_mul (n : Nat) :
    2 ^ trailingZeros n * (n / 2 ^ trailingZeros n) = n := by
  fun_induction trailingZeros n with
  | case1 n h ih =>
    rw [Nat.pow_succ', ← Nat.div_div_eq_div_mul, Nat.mul_assoc, ih]
    omega
  | case2 n h => rw [Nat.pow_zero, Nat.div_one, Nat.one_mul]

/-- What remains of a number above its trailing zeros is odd. -/
theorem div_two_pow_trailingZeros_odd {n : Nat} (hn : n ≠ 0) :
    n / 2 ^ trailingZeros n % 2 = 1 := by
  fun_induction trailingZeros n with
  | case1 n h ih =>
    rw [Nat.pow_succ', ← Nat.div_div_eq_div_mul]
    exact ih (by omega)
  | case2 n h =>
    rw [Nat.pow_zero, Nat.div_one]
    omega

end Secp.Number
