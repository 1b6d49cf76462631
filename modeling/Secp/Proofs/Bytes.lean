import Mathlib.Data.List.Induction
import Mathlib.Tactic.Ring
import Secp.Bytes

/-!
# Numbers in a fixed width of bytes

A byte weighs the power of 256 that the bytes behind it count. Written in a fixed width, a number
keeps its remainder modulo the power of that width, so numbers below it have different bytes, and
the number that bytes denote is written by those bytes in their own width.
-/

namespace Secp.Bytes

/-- Bytes behind others multiply the number before them by 256 for each of them. -/
theorem toNat_append (a b : Bytes) : toNat (a ++ b) = toNat a * 256 ^ b.length + toNat b := by
  induction b using List.reverseRecOn with
  | nil => simp [toNat]
  | append_singleton b byte ih =>
    rw [← List.append_assoc]
    simp only [toNat, List.foldl_append, List.foldl_cons, List.foldl_nil] at ih ⊢
    rw [ih, List.length_append, List.length_singleton, Nat.pow_succ]
    ring

/-- One byte denotes its own number. -/
@[simp] theorem toNat_singleton (byte : UInt8) : toNat [byte] = byte.toNat := by
  simp [toNat]

/-- A fixed width of bytes denotes the remainder modulo the power of the width. -/
theorem toNat_bigEndian (width n : Nat) : toNat (bigEndian width n) = n % 256 ^ width := by
  induction width generalizing n with
  | zero => simp [bigEndian, littleEndian, toNat, Nat.mod_one]
  | succ width ih =>
    have hsplit : bigEndian (width + 1) n = bigEndian width (n / 256) ++ [UInt8.ofNat n] := by
      simp [bigEndian, littleEndian]
    rw [hsplit, toNat_append, ih, toNat_singleton, List.length_singleton, UInt8.toNat_ofNat',
      Nat.pow_one, Nat.pow_succ', Nat.mod_mul, Nat.add_comm, Nat.mul_comm]

/-- A number below the power of a width is denoted by its bytes in that width. -/
theorem toNat_bigEndian_of_lt {width n : Nat} (h : n < 256 ^ width) :
    toNat (bigEndian width n) = n := by
  rw [toNat_bigEndian, Nat.mod_eq_of_lt h]

/-- Numbers below the power of a width are told apart by their bytes in that width. -/
theorem bigEndian_inj {width m n : Nat} (hm : m < 256 ^ width) (hn : n < 256 ^ width) :
    bigEndian width m = bigEndian width n ↔ m = n := by
  refine ⟨fun h ↦ ?_, fun h ↦ h ▸ rfl⟩
  have hvalue := congrArg toNat h
  rwa [toNat_bigEndian_of_lt hm, toNat_bigEndian_of_lt hn] at hvalue

/-- The first byte weighs the power of 256 that the other bytes count. -/
theorem toNat_cons (byte : UInt8) (b : Bytes) :
    toNat (byte :: b) = byte.toNat * 256 ^ b.length + toNat b := by
  rw [← List.singleton_append, toNat_append, toNat_singleton]

/-- Bytes denote a number below the power of 256 that they count. -/
theorem toNat_lt (b : Bytes) : toNat b < 256 ^ b.length := by
  induction b with
  | nil => simp [toNat]
  | cons byte b ih =>
    rw [toNat_cons, List.length_cons, Nat.pow_succ']
    calc byte.toNat * 256 ^ b.length + toNat b
        < byte.toNat * 256 ^ b.length + 256 ^ b.length := Nat.add_lt_add_left ih _
      _ = (byte.toNat + 1) * 256 ^ b.length := (Nat.succ_mul _ _).symm
      _ ≤ 256 * 256 ^ b.length := Nat.mul_le_mul_right _ byte.toNat_lt

/-- The first byte says how many times the power of 256 that the other bytes count is reached. -/
theorem mul_pow_le_toNat_cons {byte : UInt8} {b : Bytes} {k : Nat} :
    k * 256 ^ b.length ≤ toNat (byte :: b) ↔ k ≤ byte.toNat := by
  have hpos : 0 < 256 ^ b.length := Nat.pow_pos (by decide)
  rw [← Nat.le_div_iff_mul_le hpos, toNat_cons, Nat.add_comm, Nat.add_mul_div_right _ _ hpos,
    Nat.div_eq_of_lt (toNat_lt b), Nat.zero_add]

/-- Bytes are what their number is written as in their own width. -/
theorem bigEndian_toNat (b : Bytes) : bigEndian b.length (toNat b) = b := by
  induction b using List.reverseRecOn with
  | nil => rfl
  | append_singleton b byte ih =>
    have hbyte : byte.toNat < 256 := byte.toNat_lt
    have hvalue : toNat (b ++ [byte]) = toNat b * 256 + byte.toNat := by
      rw [toNat_append, toNat_singleton, List.length_singleton, Nat.pow_one]
    have hlow : UInt8.ofNat (toNat b * 256 + byte.toNat) = byte := by
      rw [← UInt8.toNat_inj, UInt8.toNat_ofNat']
      omega
    have hhigh : (toNat b * 256 + byte.toNat) / 256 = toNat b := by omega
    rw [hvalue, List.length_append, List.length_singleton, bigEndian, littleEndian, hlow, hhigh,
      List.reverse_cons, ← bigEndian, ih]

/-- Bytes of one length are told apart by their numbers. -/
theorem toNat_inj {a b : Bytes} (hlength : a.length = b.length) : toNat a = toNat b ↔ a = b := by
  refine ⟨fun h ↦ ?_, fun h ↦ h ▸ rfl⟩
  rw [← bigEndian_toNat a, ← bigEndian_toNat b, h, hlength]

/-- The bytes of a number below the power of a width are the bytes of that width that denote it. -/
theorem eq_bigEndian_iff {b : Bytes} {width n : Nat} (hlength : b.length = width)
    (hlt : n < 256 ^ width) : b = bigEndian width n ↔ toNat b = n := by
  rw [← toNat_inj (by rw [hlength, length_bigEndian]), toNat_bigEndian_of_lt hlt]

end Secp.Bytes
