import Mathlib.Data.List.Forall2
import Mathlib.Data.Nat.Digits.Lemmas
import Mathlib.Data.String.Basic
import Secp.Text.Digits

/-!
# Texts of digits

A digit is a figure, or an ASCII letter of either case, so a text of digits takes one byte for each
of them and none of them is a sign. The digit for a value is read as that value.
-/

namespace Secp.Text

/-- Characters are in order as their numbers are. -/
theorem char_le_iff {c c' : Char} : c ≤ c' ↔ c.toNat ≤ c'.toNat := UInt32.le_iff_toNat_le

/-- A digit below ten is a figure, and any other is a letter of either case. -/
theorem digitValue_eq_some_iff {base : Nat} {c : Char} {d : Nat} :
    digitValue base c = some d ↔
      d < base ∧ (d < 10 ∧ c.toNat = 48 + d ∨
        10 ≤ d ∧ d < 36 ∧ (c.toNat = 87 + d ∨ c.toNat = 55 + d)) := by
  have hbounds : '0'.toNat = 48 ∧ '9'.toNat = 57 ∧ 'a'.toNat = 97 ∧ 'z'.toNat = 122 ∧
      'A'.toNat = 65 ∧ 'Z'.toNat = 90 := by decide
  unfold digitValue
  dsimp only
  simp only [char_le_iff, hbounds]
  rw [Option.filter_eq_some_iff, decide_eq_true_iff, and_comm]
  refine and_congr_right fun _ ↦ ?_
  split
  · rw [Option.some.injEq]
    omega
  · split
    · rw [Option.some.injEq]
      omega
    · split
      · rw [Option.some.injEq]
        omega
      · refine ⟨nofun, ?_⟩
        omega

/-- Digits are below the base. -/
theorem lt_of_digitValue {base : Nat} {c : Char} {d : Nat} (h : digitValue base c = some d) :
    d < base := (digitValue_eq_some_iff.mp h).1

/-- A digit takes one byte. -/
theorem utf8Size_of_digitValue {base : Nat} {c : Char} {d : Nat}
    (h : digitValue base c = some d) : c.utf8Size = 1 := by
  have hascii : c.toNat ≤ 127 := by
    obtain ⟨-, hd⟩ := digitValue_eq_some_iff.mp h
    omega
  exact Char.utf8Size_eq_one_iff.mpr (UInt32.le_iff_toNat_le.mpr hascii)

/-- A minus sign is no digit. -/
theorem digitValue_minus (base : Nat) : digitValue base '-' = none := rfl

/-- The only digit for zero is the figure. -/
theorem eq_zero_of_digitValue {base : Nat} {c : Char} (h : digitValue base c = some 0) :
    c = '0' := by
  obtain ⟨-, hd⟩ := digitValue_eq_some_iff.mp h
  apply Char.toNat_inj.mp
  change c.toNat = 48
  omega

/-- The digit for a value is read as that value. -/
theorem digitValue_digitChar {base d : Nat} (hbase : base ≤ 36) (hd : d < base) :
    digitValue base (digitChar d) = some d := by
  have hchar : ∀ d < 36, d < 10 ∧ (digitChar d).toNat = 48 + d ∨
      10 ≤ d ∧ d < 36 ∧ ((digitChar d).toNat = 87 + d ∨ (digitChar d).toNat = 55 + d) := by decide
  exact digitValue_eq_some_iff.mpr ⟨hd, hchar d (hd.trans_le hbase)⟩

/-- A number is written with its digits. -/
theorem digits_eq {base : Nat} (hbase : 1 < base) (n : Nat) :
    digits base n = (base.digits n).reverse.map digitChar := by
  fun_induction digits base n with
  | case1 n h =>
    obtain rfl : n = 0 := h.resolve_right (Nat.not_lt.mpr hbase)
    rw [Nat.digits_zero]
    rfl
  | case2 n h ih =>
    have hpos : 0 < n := Nat.pos_of_ne_zero fun hzero ↦ h (.inl hzero)
    rw [ih, Nat.digits_def' hbase hpos, List.reverse_cons, List.map_append, List.map_singleton]

/-- The digits that are written are no capitals. -/
theorem isUpper_digitChar {d : Nat} (hd : d < 36) : (digitChar d).isUpper = false := by
  have hall : ∀ d < 36, (digitChar d).isUpper = false := by decide
  exact hall d hd

/-- In a fixed width only the remainder by the power of that width is written. -/
theorem fixedDigits_mod (base width n : Nat) :
    fixedDigits base width (n % base ^ width) = fixedDigits base width n := by
  induction width generalizing n with
  | zero => rfl
  | succ width ih =>
    rw [fixedDigits, fixedDigits, Nat.pow_succ', Nat.mod_mul_right_div_self, ih,
      Nat.mod_mul_right_mod]

/-- The low digits of a number are those of a fixed width, and the digits above them are those of
the quotient. -/
theorem digits_eq_append {base width n : Nat} (hbase : 1 < base) (h : n / base ^ width ≠ 0) :
    digits base n = digits base (n / base ^ width) ++ fixedDigits base width n := by
  induction width generalizing n with
  | zero => rw [Nat.pow_zero, Nat.div_one, fixedDigits, List.append_nil]
  | succ width ih =>
    rw [Nat.pow_succ', ← Nat.div_div_eq_div_mul] at h ⊢
    have hn : ¬(n = 0 ∨ base < 2) := by
      rintro (rfl | hless)
      · simp at h
      · omega
    rw [digits, dif_neg hn, ih h, fixedDigits, List.append_assoc]

/-- The digits of a number are written chunk by chunk, as the digits of a power of the base: the
top chunk without leading zeros, and all others in full width. -/
theorem exists_chunks_of_digits {base size n : Nat} (hbase : 1 < base) (hsize : 1 ≤ size)
    (hn : n ≠ 0) :
    ∃ top rest, ((base ^ size).digits n).reverse = top :: rest ∧
      digits base top ++ rest.flatMap (fixedDigits base size) = digits base n := by
  have hpower : 1 < base ^ size := Nat.one_lt_pow (Nat.ne_of_gt hsize) hbase
  induction n using Nat.strongRecOn with
  | ind n ih =>
    rw [Nat.digits_def' hpower (Nat.pos_of_ne_zero hn), List.reverse_cons]
    by_cases hlast : n / base ^ size = 0
    · have hlt : n < base ^ size := (Nat.div_eq_zero_iff.mp hlast).resolve_left (by omega)
      rw [hlast, Nat.mod_eq_of_lt hlt, Nat.digits_zero]
      exact ⟨n, [], rfl, List.append_nil _⟩
    · obtain ⟨top, rest, hdigits, hjoined⟩ :=
        ih _ (Nat.div_lt_self (Nat.pos_of_ne_zero hn) hpower) hlast
      refine ⟨top, rest ++ [n % base ^ size], ?_, ?_⟩
      · rw [hdigits, List.cons_append]
      · rw [List.flatMap_append, ← List.append_assoc, hjoined, List.flatMap_singleton,
          fixedDigits_mod, ← digits_eq_append hbase hlast]

/-- The characters are digits of the base and have the values. -/
def Spells (base : Nat) (cs : List Char) (ds : List Nat) : Prop :=
  List.Forall₂ (fun c d ↦ digitValue base c = some d) cs ds

namespace Spells

variable {base : Nat} {cs : List Char} {ds : List Nat}

/-- There are as many characters as values. -/
theorem length_eq (h : Spells base cs ds) : cs.length = ds.length := List.Forall₂.length_eq h

/-- The values are below the base. -/
theorem lt (h : Spells base cs ds) : ∀ d ∈ ds, d < base := by
  induction h with
  | nil => exact nofun
  | cons hd hrest ih => exact List.forall_mem_cons.mpr ⟨lt_of_digitValue hd, ih⟩

/-- All characters are digits. -/
theorem isSome (h : Spells base cs ds) : ∀ c ∈ cs, (digitValue base c).isSome = true := by
  induction h with
  | nil => exact nofun
  | cons hd hrest ih => exact List.forall_mem_cons.mpr ⟨Option.isSome_of_eq_some hd, ih⟩

/-- The values are known from the characters. -/
theorem unique {es : List Nat} (h : Spells base cs ds) (h' : Spells base cs es) : ds = es := by
  induction h generalizing es with
  | nil => exact (List.forall₂_nil_left_iff.mp h').symm
  | cons hd hrest ih =>
    cases h' with
    | cons he hrest' => rw [Option.some.inj (hd.symm.trans he), ih hrest']

/-- The characters take a byte each. -/
theorem utf8Len_eq (h : Spells base cs ds) : String.utf8Len cs = cs.length := by
  induction h with
  | nil => rfl
  | cons hd hrest ih =>
    rw [String.utf8Len_cons, ih, utf8Size_of_digitValue hd, List.length_cons]

/-- No text of digits starts with a minus sign. -/
theorem not_minus_cons (h : Spells base ('-' :: cs) ds) : False := by
  cases h with
  | cons hd hrest =>
    rw [digitValue_minus] at hd
    cases hd

/-- The digits for values spell them. -/
theorem map_digitChar (hbase : base ≤ 36) (hds : ∀ d ∈ ds, d < base) :
    Spells base (ds.map digitChar) ds := by
  rw [Spells, List.forall₂_map_left_iff, List.forall₂_same]
  exact fun d hd ↦ digitValue_digitChar hbase (hds d hd)

end Spells

end Secp.Text
