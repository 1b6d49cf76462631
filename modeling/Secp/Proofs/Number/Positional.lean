import Mathlib.Data.List.TakeWhile
import Mathlib.Data.Nat.Digits.Lemmas
import Mathlib.Tactic.Ring

/-!
# Digits in one base for digits in another

Digits are written most significant first. Without its leading zeros a row of digits is the row of
the digits of its number. So a row that keeps its leading zeros, and gives the digits of its number
in another base behind them, can be turned back.
-/

namespace Secp.Positional

/-- The number that digits denote, most significant first. -/
def value (base : Nat) (ds : List Nat) : Nat := Nat.ofDigits base ds.reverse

@[simp] theorem value_nil (base : Nat) : value base [] = 0 := rfl

/-- The first digit weighs the power of the base that the other digits count. -/
theorem value_cons (base d : Nat) (ds : List Nat) :
    value base (d :: ds) = d * base ^ ds.length + value base ds := by
  rw [value, Nat.ofDigits_reverse_cons, value]
  ring

/-- A digit behind others multiplies what they denote by the base. -/
theorem value_concat (base : Nat) (ds : List Nat) (d : Nat) :
    value base (ds ++ [d]) = value base ds * base + d := by
  rw [value, List.reverse_append, List.reverse_singleton, List.singleton_append,
    Nat.ofDigits_cons, value]
  ring

/-- Leading zeros do not count. -/
theorem value_replicate_zero_append (base count : Nat) (ds : List Nat) :
    value base (List.replicate count 0 ++ ds) = value base ds := by
  rw [value, List.reverse_append, List.reverse_replicate, Nat.ofDigits_append_replicate_zero, value]

/-- Digits denote a number below the power of the base that they count. -/
theorem value_lt {base : Nat} (hbase : 1 < base) {ds : List Nat} (h : ∀ d ∈ ds, d < base) :
    value base ds < base ^ ds.length := by
  rw [value, ← List.length_reverse]
  exact Nat.ofDigits_lt_base_pow_length hbase fun d hd ↦ h d (List.mem_reverse.mp hd)

/-- Digits of one length are told apart by their number. -/
theorem value_inj {base : Nat} (hbase : 1 < base) {ds es : List Nat}
    (hlength : ds.length = es.length) (hds : ∀ d ∈ ds, d < base) (hes : ∀ d ∈ es, d < base) :
    value base ds = value base es ↔ ds = es := by
  refine ⟨fun h ↦ List.reverse_injective ?_, fun h ↦ h ▸ rfl⟩
  refine Nat.ofDigits_inj_of_len_eq hbase ?_ ?_ ?_ h
  · rw [List.length_reverse, List.length_reverse, hlength]
  · exact fun d hd ↦ hds d (List.mem_reverse.mp hd)
  · exact fun d hd ↦ hes d (List.mem_reverse.mp hd)

/-- The zeros in front of digits. -/
theorem takeWhile_zero_eq (ds : List Nat) :
    ds.takeWhile (· = 0) = List.replicate (ds.takeWhile (· = 0)).length 0 := by
  apply List.eq_replicate_of_mem
  intro d hd
  simpa using List.mem_takeWhile_imp hd

/-- Without leading zeros the digits are those of their number. -/
theorem dropWhile_zero_eq {base : Nat} (hbase : 1 < base) {ds : List Nat}
    (h : ∀ d ∈ ds, d < base) : ds.dropWhile (· = 0) = (base.digits (value base ds)).reverse := by
  have hvalue : value base ds = value base (ds.dropWhile (· = 0)) := by
    conv_lhs => rw [← List.takeWhile_append_dropWhile (p := (· = 0)) (l := ds), takeWhile_zero_eq]
    exact value_replicate_zero_append _ _ _
  rw [hvalue, value, Nat.digits_ofDigits base hbase, List.reverse_reverse]
  · intro d hd
    exact h d (List.dropWhile_subset _ (List.mem_reverse.mp hd))
  · intro hne
    rw [List.getLast_reverse]
    simpa using List.head_dropWhile_not (· = 0) (l := ds) (by simpa using hne)

/-- The digits of a number without those in front do not begin with a zero. -/
theorem takeWhile_zero_digits (base n : Nat) :
    (base.digits n).reverse.takeWhile (· = 0) = [] := by
  rw [List.takeWhile_eq_nil_iff]
  intro hpos
  have hne : base.digits n ≠ [] := by simpa [List.length_pos_iff] using hpos
  have hn : n ≠ 0 := Nat.digits_ne_nil_iff_ne_zero.mp hne
  have hlast := Nat.getLast_digit_ne_zero base hn
  simpa [List.getElem_zero, List.head_reverse] using hlast

/-- The digits of a number without leading zeros, most significant first; zero has one. -/
def numeral (base n : Nat) : List Nat := if n = 0 then [0] else (base.digits n).reverse

/-- There is a first digit, and it is zero for zero alone. -/
theorem exists_numeral_eq_cons (base n : Nat) :
    ∃ d ds, numeral base n = d :: ds ∧ (d = 0 → n = 0 ∧ ds = []) := by
  unfold numeral
  split
  · next hzero => exact ⟨0, [], rfl, fun _ ↦ ⟨hzero, rfl⟩⟩
  · next hn =>
    have hne : (base.digits n).reverse ≠ [] :=
      List.reverse_ne_nil_iff.mpr (Nat.digits_ne_nil_iff_ne_zero.mpr hn)
    obtain ⟨d, ds, hds⟩ := List.exists_cons_of_ne_nil hne
    refine ⟨d, ds, hds, fun hd ↦ absurd (takeWhile_zero_digits base n) ?_⟩
    rw [hds, hd]
    exact List.cons_ne_nil _ _

/-- The digits of a number are digits of the base. -/
theorem lt_of_mem_numeral {base n d : Nat} (hbase : 1 < base) (h : d ∈ numeral base n) :
    d < base := by
  unfold numeral at h
  split at h
  · rw [List.mem_singleton.mp h]
    exact Nat.zero_lt_of_lt hbase
  · exact Nat.digits_lt_base hbase (List.mem_reverse.mp h)

/-- The digits of a number denote it. -/
theorem value_numeral (base n : Nat) : value base (numeral base n) = n := by
  unfold numeral
  split
  · next hzero =>
    rw [hzero, value_cons]
    simp
  · rw [value, List.reverse_reverse, Nat.ofDigits_digits]

/-- Digits in another base, behind the zeros that are in front. -/
def transcode (source target : Nat) (ds : List Nat) : List Nat :=
  ds.takeWhile (· = 0) ++ (target.digits (value source ds)).reverse

/-- The digits in another base are digits of it. -/
theorem lt_of_mem_transcode {source target d : Nat} {ds : List Nat} (htarget : 1 < target)
    (h : d ∈ transcode source target ds) : d < target := by
  rcases List.mem_append.mp h with hzero | hdigit
  · have hd : d = 0 := by simpa using List.mem_takeWhile_imp hzero
    omega
  · exact Nat.digits_lt_base htarget (List.mem_reverse.mp hdigit)

/-- The digits in another base denote the same number. -/
theorem value_transcode (source target : Nat) (ds : List Nat) :
    value target (transcode source target ds) = value source ds := by
  rw [transcode, takeWhile_zero_eq, value_replicate_zero_append, value, List.reverse_reverse,
    Nat.ofDigits_digits]

/-- The digits in another base are behind the same zeros. -/
theorem takeWhile_zero_transcode (source target : Nat) (ds : List Nat) :
    (transcode source target ds).takeWhile (· = 0) = ds.takeWhile (· = 0) := by
  have hzeros : ∀ d ∈ ds.takeWhile (· = 0), decide (d = 0) = true := by
    intro d hd
    simpa using List.mem_takeWhile_imp hd
  rw [transcode, List.takeWhile_append_of_pos hzeros, takeWhile_zero_digits, List.append_nil]

/-- Digits are given back by the digits in another base. -/
theorem transcode_transcode {source target : Nat} (hsource : 1 < source) {ds : List Nat}
    (h : ∀ d ∈ ds, d < source) : transcode target source (transcode source target ds) = ds := by
  conv_lhs => rw [transcode, takeWhile_zero_transcode, value_transcode,
    ← dropWhile_zero_eq hsource h]
  exact List.takeWhile_append_dropWhile

/-- A row of digits is long enough in another base if its length is scaled by a ratio that is not
less than that of the logarithms. -/
theorem pow_le_pow_scaled {source target p q : Nat} (hq : 0 < q)
    (hratio : source ^ q ≤ target ^ p) (htarget : 0 < target) (m : Nat) :
    source ^ m ≤ target ^ (m * p / q + 1) := by
  have hlength : p * m ≤ (m * p / q + 1) * q := by
    have := Nat.lt_div_mul_add (a := m * p) hq
    rw [Nat.mul_comm p m, Nat.succ_mul]
    omega
  apply (Nat.pow_le_pow_iff_left (Nat.ne_of_gt hq)).mp
  calc (source ^ m) ^ q = (source ^ q) ^ m := by rw [← pow_mul, ← pow_mul, Nat.mul_comm]
    _ ≤ (target ^ p) ^ m := Nat.pow_le_pow_left hratio m
    _ = target ^ (p * m) := (pow_mul _ _ _).symm
    _ ≤ target ^ ((m * p / q + 1) * q) := Nat.pow_le_pow_right htarget hlength
    _ = (target ^ (m * p / q + 1)) ^ q := pow_mul _ _ _

end Secp.Positional
