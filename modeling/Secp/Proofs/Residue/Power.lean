import Mathlib.Tactic.Ring
import Secp.Proofs.Residue.Ring
import Secp.Residue.Power

/-!
# Powers by a sliding window are powers

A window ends in a one bit, so what it denotes is odd and stands in the table. Passing `k` bits
raises the result to the power `2 ^ k` and multiplies it by the power that the bits denote, whether
they are passed one by one or in a window. Over all bits of an exponent this gives the power.
-/

namespace Secp.Residue

variable {m : Modulus}

/-- Squaring again and again raises to a power of two. -/
@[simp] theorem toZMod_sqrTimes (count : Nat) (a : Residue m) :
    (sqrTimes count a).toZMod = a.toZMod ^ 2 ^ count := by
  induction count generalizing a with
  | zero => rw [sqrTimes, Nat.pow_zero, pow_one]
  | succ count ih => rw [sqrTimes, ih, toZMod_sqr, ← pow_mul, Nat.pow_succ']

/-- The entries of the table are the odd powers. -/
theorem getElem?_oddPowersFrom {square a : Residue m} {count i : Nat} (hi : i < count) :
    ∃ b, (oddPowersFrom square count a)[i]? = some b ∧
      b.toZMod = a.toZMod * square.toZMod ^ i := by
  induction i generalizing a count with
  | zero =>
    obtain ⟨count, rfl⟩ : ∃ c, count = c + 1 := ⟨count - 1, by omega⟩
    exact ⟨a, rfl, by rw [pow_zero, mul_one]⟩
  | succ i ih =>
    obtain ⟨count, rfl⟩ : ∃ c, count = c + 1 := ⟨count - 1, by omega⟩
    obtain ⟨b, hb, hvalue⟩ := ih (a := a * square) (Nat.lt_of_succ_lt_succ hi)
    refine ⟨b, hb, ?_⟩
    rw [hvalue, toZMod_mul, pow_succ', mul_assoc]

/-- Bits after others double the number for each of them. -/
theorem bitsValue_append (xs ys : List Bool) :
    bitsValue (xs ++ ys) = bitsValue xs * 2 ^ ys.length + bitsValue ys := by
  induction ys using List.reverseRecOn with
  | nil => simp [bitsValue]
  | append_singleton ys b ih =>
    rw [← List.append_assoc]
    simp only [bitsValue, List.foldl_append, List.foldl_cons, List.foldl_nil] at ih ⊢
    rw [ih, List.length_append, List.length_singleton, Nat.pow_succ]
    ring

/-- Bits denote a number below the power of two of their count. -/
theorem bitsValue_lt (bits : List Bool) : bitsValue bits < 2 ^ bits.length := by
  induction bits using List.reverseRecOn with
  | nil => decide
  | append_singleton bits b ih =>
    rw [bitsValue_append, List.length_append, List.length_singleton, Nat.pow_succ]
    have hb : bitsValue [b] ≤ 1 := by cases b <;> decide
    omega

/-- The lowest bits of a number denote its remainder by a power of two. -/
theorem bitsValue_lowBits (n count : Nat) :
    bitsValue (((List.range count).map n.testBit).reverse) = n % 2 ^ count := by
  induction count with
  | zero => simp [bitsValue, Nat.mod_one]
  | succ count ih =>
    have hbit : bitsValue [n.testBit count] = (n.testBit count).toNat := by
      cases n.testBit count <;> rfl
    rw [List.range_succ, List.map_append, List.reverse_append, List.map_singleton,
      List.reverse_singleton, bitsValue_append, ih, hbit, List.length_reverse, List.length_map,
      List.length_range, Nat.toNat_testBit, Nat.mod_pow_succ, Nat.mul_comm, Nat.add_comm]

/-- The bits of a number denote it. -/
theorem bitsValue_bitsOf (n : Nat) : bitsValue (bitsOf n) = n := by
  rw [bitsOf, bitsValue_lowBits, Nat.mod_eq_of_lt (Number.lt_two_pow_bitLength n)]

/-- The bits up to the last one bit stand at the front of the list. -/
theorem isPrefix_upToLastOne (bits : List Bool) : upToLastOne bits <+: bits := by
  rw [← List.reverse_suffix, upToLastOne, List.reverse_reverse]
  exact List.dropWhile_suffix _

/-- With a one bit before them, the bits up to the last one bit denote an odd number. -/
theorem bitsValue_upToLastOne_odd (bits : List Bool) :
    bitsValue (true :: upToLastOne bits) % 2 = 1 := by
  unfold upToLastOne
  cases hdrop : bits.reverse.dropWhile (· = false) with
  | nil => rfl
  | cons b rest =>
    have hb : b = true := by
      have hhead := List.head?_dropWhile_not (· = false) bits.reverse
      rw [hdrop] at hhead
      simpa using hhead
    rw [List.reverse_cons, ← List.cons_append, bitsValue_append, hb, List.length_singleton,
      Nat.pow_one]
    change (_ * 2 + 1) % 2 = 1
    omega

/-- The table holds the odd powers that a window can name. -/
def HoldsOddPowers (a : ZMod m.value) (width : Nat) (table : List (Residue m)) : Prop :=
  ∀ i < 2 ^ (width - 1), ∃ b, table[i]? = some b ∧ b.toZMod = a ^ (2 * i + 1)

/-- The table made for a window holds its powers. -/
theorem holdsOddPowers_oddPowers (a : Residue m) (width : Nat) :
    HoldsOddPowers a.toZMod width (oddPowers a (2 ^ (width - 1))) := by
  intro i hi
  obtain ⟨b, hb, hvalue⟩ := (getElem?_oddPowersFrom hi : ∃ b, (oddPowers a _)[i]? = some b ∧ _)
  refine ⟨b, hb, ?_⟩
  rw [hvalue, toZMod_sqr, ← pow_mul, ← pow_succ']

/-- Passing bits raises the result to a power of two and multiplies it by the power that the bits
denote. -/
theorem toZMod_powBits {a : ZMod m.value} {width : Nat} {table : List (Residue m)}
    (htable : HoldsOddPowers a width table) (acc : Residue m) (bits : List Bool) :
    (powBits table width acc bits).toZMod =
      acc.toZMod ^ 2 ^ bits.length * a ^ bitsValue bits := by
  fun_induction powBits table width acc bits with
  | case1 acc => simp [bitsValue]
  | case2 acc rest ih =>
    rw [ih, toZMod_sqr, ← pow_mul, ← Nat.pow_succ', List.length_cons]
    rfl
  | case3 acc rest more squared ih =>
    have hprefix : more <+: rest := (isPrefix_upToLastOne _).trans <| List.take_prefix _ _
    have hmore : more.length ≤ width - 1 :=
      (length_upToLastOne_le _).trans (List.length_take_le _ _)
    generalize hdrop : rest.drop more.length = tail at ih
    have hrest : rest = more ++ tail := by
      rw [← hdrop]
      exact (List.prefix_iff_eq_append.mp hprefix).symm
    have hodd : bitsValue (true :: more) % 2 = 1 := bitsValue_upToLastOne_odd _
    -- The window has at most `width` bits, so the table has an entry for what it denotes.
    have hindex : bitsValue (true :: more) / 2 < 2 ^ (width - 1) := by
      have hlt := bitsValue_lt (true :: more)
      have hpow : 2 ^ (more.length + 1) ≤ 2 ^ (width - 1 + 1) :=
        Nat.pow_le_pow_right (by decide) (by omega)
      rw [List.length_cons] at hlt
      rw [Nat.pow_succ (m := width - 1)] at hpow
      omega
    obtain ⟨b, hentry, hb⟩ := htable _ hindex
    rw [show 2 * (bitsValue (true :: more) / 2) + 1 = bitsValue (true :: more) by omega] at hb
    have hvalue : bitsValue (true :: rest) =
        bitsValue (true :: more) * 2 ^ tail.length + bitsValue tail := by
      rw [hrest, ← List.cons_append, bitsValue_append]
    have hlength : 2 ^ (true :: rest).length = 2 ^ (1 + more.length) * 2 ^ tail.length := by
      rw [← pow_add, hrest, List.length_cons, List.length_append]
      congr 1
      omega
    rw [ih, List.getD_eq_getElem?_getD, hentry, Option.getD_some, toZMod_mul, toZMod_sqrTimes, hb,
      hvalue, hlength, mul_pow, ← pow_mul, ← pow_mul, pow_add a, mul_assoc]

/-- A power is the power in the ring. -/
@[simp] theorem toZMod_pow (a : Residue m) (exponent : Nat) :
    (a.pow exponent).toZMod = a.toZMod ^ exponent := by
  have hvalue := bitsValue_bitsOf exponent
  by_cases hbits : Number.bitLength exponent = 0
  · have hpow : a.pow exponent = one := if_pos hbits
    have hzero : exponent = 0 := by
      rw [← hvalue, bitsOf, hbits]
      rfl
    rw [hpow, hzero, toZMod_one, pow_zero]
  · have hpow : a.pow exponent = powBits _ _ one (bitsOf exponent) := if_neg hbits
    rw [hpow, toZMod_powBits (holdsOddPowers_oddPowers a _), toZMod_one, one_pow, one_mul, hvalue]

end Secp.Residue
