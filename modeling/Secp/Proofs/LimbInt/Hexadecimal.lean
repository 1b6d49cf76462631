import Secp.Proofs.LimbInt.Octets
import Secp.Proofs.LimbInt.Radix

/-!
# Bytes read as hexadecimal integers

Bytes are read from a text by way of an integer: the text is read as a hexadecimal integer, and its
magnitude is written in half as many bytes as the text takes. The digits of bytes are read back as
them, but the sign of the integer is dropped, and of an odd number of characters one does not count.
So bytes are read too from their digits with a zero or a minus sign in front, and with a minus sign
in place of a zero that comes first.
-/

namespace Secp

namespace Bytes

/-- The hexadecimal digits of bytes, two for each. -/
def hexDigits (b : Bytes) : List Nat := b.flatMap fun byte ↦ [byte.toNat / 16, byte.toNat % 16]

/-- Hexadecimal digits are below sixteen. -/
theorem lt_of_mem_hexDigits {b : Bytes} {d : Nat} (h : d ∈ hexDigits b) : d < 16 := by
  obtain ⟨byte, -, hd⟩ := List.mem_flatMap.mp h
  have hbyte := byte.toNat_lt
  simp only [List.mem_cons, List.not_mem_nil, or_false] at hd
  omega

/-- Bytes in hexadecimal are written with their digits. -/
theorem hex_eq (b : Bytes) : hex b = String.ofList (b.hexDigits.map Text.digitChar) := by
  have hbyte (byte : UInt8) : (Text.hexByte byte).toList =
      [byte.toNat / 16, byte.toNat % 16].map Text.digitChar := by
    have hhigh : byte.toNat / 16 % 16 = byte.toNat / 16 := by
      have := byte.toNat_lt
      omega
    rw [Text.hexByte, String.toList_ofList]
    simp only [Text.fixedDigits, hhigh, List.nil_append]
    rfl
  rw [← String.toList_inj, hex, String.toList_join, String.toList_ofList, hexDigits,
    List.map_flatMap, List.flatMap_map]
  simp only [hbyte]

/-- The hexadecimal digits of bytes denote their number. -/
theorem chunkValue_hexDigits (b : Bytes) : LimbInt.chunkValue 16 b.hexDigits = toNat b := by
  induction b using List.reverseRecOn with
  | nil => rfl
  | append_singleton b byte ih =>
    have hdigits : hexDigits (b ++ [byte]) = hexDigits b ++ [byte.toNat / 16, byte.toNat % 16] := by
      simp only [hexDigits, List.flatMap_append, List.flatMap_cons, List.flatMap_nil,
        List.append_nil]
    have hbyte : LimbInt.chunkValue 16 [byte.toNat / 16, byte.toNat % 16] = byte.toNat := by
      simp only [LimbInt.chunkValue, List.foldl_cons, List.foldl_nil]
      omega
    rw [hdigits, LimbInt.chunkValue_append, ih, hbyte, toNat_append, toNat_singleton]
    rfl

/-- Bytes have two hexadecimal digits each. -/
theorem length_hexDigits (b : Bytes) : b.hexDigits.length = 2 * b.length := by
  induction b with
  | nil => rfl
  | cons byte b ih =>
    have hcons : hexDigits (byte :: b) = byte.toNat / 16 :: byte.toNat % 16 :: hexDigits b := rfl
    rw [hcons, List.length_cons, List.length_cons, ih, List.length_cons]
    omega

/-- The characters are the hexadecimal digits of the bytes, two for each byte, of either case. -/
def SpelledBy (b : Bytes) (cs : List Char) : Prop := Text.Spells 16 cs b.hexDigits

/-- A text of bytes has two characters for each byte. -/
theorem SpelledBy.length_eq {b : Bytes} {cs : List Char} (h : b.SpelledBy cs) :
    cs.length = 2 * b.length := (Text.Spells.length_eq h).trans b.length_hexDigits

/-- A text of bytes has an even number of characters. -/
theorem SpelledBy.even {b : Bytes} {cs : List Char} (h : b.SpelledBy cs) : cs.length % 2 = 0 := by
  rw [h.length_eq, Nat.mul_mod_right]

/-- What is spelled is known from the characters. -/
theorem SpelledBy.unique {b b' : Bytes} {cs : List Char} (h : b.SpelledBy cs)
    (h' : b'.SpelledBy cs) : b = b' := by
  have hdigits : b.hexDigits = b'.hexDigits := Text.Spells.unique h h'
  have hlength : b.length = b'.length := by
    have := h.length_eq.symm.trans h'.length_eq
    omega
  rw [← toNat_inj hlength, ← chunkValue_hexDigits, hdigits, chunkValue_hexDigits]

/-- Two digits in front of a text spell a byte in front. -/
theorem SpelledBy.cons_cons {b : Bytes} {cs : List Char} (h : b.SpelledBy cs) {c c' : Char}
    {d d' : Nat} (hc : Text.digitValue 16 c = some d) (hc' : Text.digitValue 16 c' = some d') :
    SpelledBy (UInt8.ofNat (16 * d + d') :: b) (c :: c' :: cs) := by
  have hd := Text.lt_of_digitValue hc
  have hd' := Text.lt_of_digitValue hc'
  have hbyte : (UInt8.ofNat (16 * d + d')).toNat = 16 * d + d' :=
    UInt8.toNat_ofNat_of_lt' (by change _ < 256; omega)
  have hdigits : hexDigits (UInt8.ofNat (16 * d + d') :: b) = d :: d' :: b.hexDigits := by
    rw [hexDigits, List.flatMap_cons, hbyte, Nat.mul_add_div (by decide), Nat.div_eq_of_lt hd',
      Nat.mul_add_mod, Nat.mod_eq_of_lt hd']
    rfl
  rw [SpelledBy, hdigits]
  exact .cons hc (.cons hc' h)

/-- A text of digits spells bytes when there is an even number of them. -/
theorem exists_spelledBy (cs : List Char) (heven : cs.length % 2 = 0)
    (hdigits : ∀ c ∈ cs, (Text.digitValue 16 c).isSome = true) : ∃ b : Bytes, b.SpelledBy cs := by
  match cs with
  | [] => exact ⟨[], .nil⟩
  | [_] => cases heven
  | c :: c' :: rest =>
    obtain ⟨hc, htail⟩ := List.forall_mem_cons.mp hdigits
    obtain ⟨hc', hrest⟩ := List.forall_mem_cons.mp htail
    obtain ⟨d, hd⟩ := Option.isSome_iff_exists.mp hc
    obtain ⟨d', hd'⟩ := Option.isSome_iff_exists.mp hc'
    rw [List.length_cons, List.length_cons, Nat.add_assoc, Nat.add_mod_right] at heven
    obtain ⟨b, hb⟩ := exists_spelledBy rest heven hrest
    exact ⟨_, hb.cons_cons hd hd'⟩

/-- The texts that spell bytes are those of an even number of digits, and each spells one row of
bytes. -/
theorem existsUnique_spelledBy_iff {cs : List Char} :
    (∃! b : Bytes, b.SpelledBy cs) ↔
      cs.length % 2 = 0 ∧ ∀ c ∈ cs, (Text.digitValue 16 c).isSome = true := by
  constructor
  · rintro ⟨b, h, -⟩
    exact ⟨h.even, Text.Spells.isSome h⟩
  · rintro ⟨heven, hdigits⟩
    obtain ⟨b, h⟩ := exists_spelledBy cs heven hdigits
    exact ⟨b, h, fun b' h' ↦ h'.unique h⟩

/-- Bytes are spelled by their form in hexadecimal. -/
theorem spelledBy_hex (b : Bytes) : b.SpelledBy (hex b).toList := by
  rw [hex_eq, String.toList_ofList]
  exact .map_digitChar (by decide) fun _ ↦ lt_of_mem_hexDigits

/-- The characters are the hexadecimal digits of the bytes with a zero or a minus sign in front, or
with a minus sign in place of a zero that comes first. -/
inductive MisspelledBy (b : Bytes) : List Char → Prop where
  | zero {cs : List Char} (h : b.SpelledBy cs) : MisspelledBy b ('0' :: cs)
  | minus {cs : List Char} (h : b.SpelledBy cs) : MisspelledBy b ('-' :: cs)
  | minusForZero {cs : List Char} (h : b.SpelledBy ('0' :: cs)) : MisspelledBy b ('-' :: cs)

/-- What is misspelled has an odd number of characters or starts with a minus sign. -/
theorem MisspelledBy.odd_or_minus {b : Bytes} {cs : List Char} (h : b.MisspelledBy cs) :
    cs.length % 2 = 1 ∨ cs.head? = some '-' := by
  cases h with
  | zero h =>
    left
    rw [List.length_cons, h.length_eq]
    omega
  | minus h => exact .inr rfl
  | minusForZero h => exact .inr rfl

/-- What is spelled does not start with a minus sign. -/
theorem SpelledBy.head?_ne_minus {b : Bytes} {cs : List Char} (h : b.SpelledBy cs) :
    cs.head? ≠ some '-' := by
  intro hminus
  obtain ⟨rest, rfl⟩ := List.head?_eq_some_iff.mp hminus
  exact Text.Spells.not_minus_cons h

/-- What is misspelled for some bytes is spelled for none. -/
theorem MisspelledBy.not_spelledBy {b b' : Bytes} {cs : List Char} (h : b.MisspelledBy cs) :
    ¬ b'.SpelledBy cs := by
  intro hspelled
  rcases h.odd_or_minus with hodd | hhead
  · have heven := hspelled.even
    omega
  · exact hspelled.head?_ne_minus hhead

/-- The characters are a hexadecimal integer, whose magnitude the bytes denote, and there are half
as many bytes as characters. -/
def ReadFrom (b : Bytes) (chars : List Char) : Prop :=
  ∃ (negative : Bool) (cs : List Char) (ds : List Nat),
    chars = (if negative then ['-'] else []) ++ cs ∧ ds ≠ [] ∧ Text.Spells 16 cs ds ∧
      b.length = chars.length / 2 ∧ LimbInt.chunkValue 16 ds = toNat b

/-- Digits that denote the number of bytes are theirs, once as many zeros are in front that there
are as many of both. -/
theorem padded_eq_hexDigits {b : Bytes} {ds : List Nat} (m n : Nat)
    (hlength : m + ds.length = n + b.hexDigits.length) (hds : ∀ d ∈ ds, d < 16)
    (hvalue : LimbInt.chunkValue 16 ds = toNat b) :
    List.replicate m 0 ++ ds = List.replicate n 0 ++ b.hexDigits := by
  have hpadded {count : Nat} {es : List Nat} (hes : ∀ d ∈ es, d < 16) :
      ∀ d ∈ List.replicate count 0 ++ es, d < 16 := by
    intro d hd
    rcases List.mem_append.mp hd with hzero | hdigit
    · rw [List.eq_of_mem_replicate hzero]
      decide
    · exact hes d hdigit
  refine (Positional.value_inj (by decide) ?_ (hpadded hds)
    (hpadded fun _ ↦ lt_of_mem_hexDigits)).mp ?_
  · rwa [List.length_append, List.length_append, List.length_replicate, List.length_replicate]
  · rw [Positional.value_replicate_zero_append, Positional.value_replicate_zero_append,
      ← LimbInt.chunkValue_eq_value, ← LimbInt.chunkValue_eq_value, hvalue, chunkValue_hexDigits]

/-- A sign and digits take a byte of text each. -/
private theorem utf8ByteSize_of_signed {s : String} {negative : Bool} {cs : List Char}
    {ds : List Nat} (hs : s.toList = (if negative then ['-'] else []) ++ cs)
    (h : Text.Spells 16 cs ds) : s.utf8ByteSize = s.toList.length := by
  have hsize := String.utf8ByteSize_ofList s.toList
  rw [String.ofList_toList] at hsize
  rw [hsize, hs]
  cases negative with
  | false => exact h.utf8Len_eq
  | true =>
    change String.utf8Len ('-' :: cs) = _
    rw [String.utf8Len_cons, h.utf8Len_eq]
    rfl

/-- The magnitude of a hexadecimal integer is written in half as many bytes as its text takes. -/
theorem exists_padded_ofHex_iff {b : Bytes} {s : String} :
    (∃ n, LimbInt.ofHex s = .ok n ∧ n.toBytesPadded (s.utf8ByteSize / 2) = .ok b) ↔
      b.ReadFrom s.toList := by
  have hradix : LimbInt.validRadix 16 = true := by decide
  have hlimbs (negative : Bool) {cs : List Char} {ds : List Nat} (h : Text.Spells 16 cs ds) :
      (LimbInt.ofParts negative (LimbInt.ofDigits 16 ds)).limbs.toNat =
        LimbInt.chunkValue 16 ds :=
    (Limbs.toNat_trim _).trans (LimbInt.toNat_ofDigits hradix h.lt)
  constructor
  · rintro ⟨n, hread, hpadded⟩
    rw [LimbInt.toBytesPadded_eq_ok_iff (LimbInt.canonical_of_ofText hread).1] at hpadded
    obtain ⟨negative, cs, ds, hs, hne, hspells, rfl⟩ :=
      (LimbInt.ofText_eq_ok_iff hradix).mp hread
    rw [hlimbs negative hspells, utf8ByteSize_of_signed hs hspells] at hpadded
    exact ⟨negative, cs, ds, hs, hne, hspells, hpadded.1, hpadded.2.symm⟩
  · rintro ⟨negative, cs, ds, hs, hne, hspells, hlength, hvalue⟩
    have hread : LimbInt.ofHex s = .ok (.ofParts negative (LimbInt.ofDigits 16 ds)) :=
      (LimbInt.ofText_eq_ok_iff hradix).mpr ⟨negative, cs, ds, hs, hne, hspells, rfl⟩
    refine ⟨_, hread, ?_⟩
    rw [LimbInt.toBytesPadded_eq_ok_iff (LimbInt.canonical_of_ofText hread).1,
      hlimbs negative hspells, utf8ByteSize_of_signed hs hspells]
    exact ⟨hlength, hvalue.symm⟩

/-- Bytes are read from the texts that spell or misspell them. -/
theorem readFrom_iff {b : Bytes} (hne : b ≠ []) {chars : List Char} :
    b.ReadFrom chars ↔ b.SpelledBy chars ∨ b.MisspelledBy chars := by
  have hpos : 0 < b.length := List.length_pos_iff.mpr hne
  have hdigits := b.length_hexDigits
  have hfirst : Text.digitValue 16 '0' = some 0 := rfl
  constructor
  · rintro ⟨negative, cs, ds, rfl, -, hspells, hlength, hvalue⟩
    have hcount := hspells.length_eq
    -- The sign and the parity of the number of digits tell the four texts apart.
    cases negative with
    | false =>
      change b.length = cs.length / 2 at hlength
      rcases Nat.mod_two_eq_zero_or_one cs.length with heven | hodd
      · obtain rfl : ds = b.hexDigits := padded_eq_hexDigits 0 0 (by omega) hspells.lt hvalue
        exact .inl hspells
      · obtain rfl : ds = 0 :: b.hexDigits :=
          padded_eq_hexDigits 0 1 (by omega) hspells.lt hvalue
        obtain ⟨c, rest, hzero, hrest, hcs⟩ := List.forall₂_cons_right_iff.mp hspells
        obtain rfl := Text.eq_zero_of_digitValue hzero
        exact .inr (hcs ▸ .zero hrest)
    | true =>
      change b.length = (cs.length + 1) / 2 at hlength
      rcases Nat.mod_two_eq_zero_or_one cs.length with heven | hodd
      · obtain rfl : ds = b.hexDigits := padded_eq_hexDigits 0 0 (by omega) hspells.lt hvalue
        exact .inr (.minus hspells)
      · have hds : 0 :: ds = b.hexDigits := padded_eq_hexDigits 1 0 (by omega) hspells.lt hvalue
        refine .inr (.minusForZero ?_)
        rw [SpelledBy, ← hds]
        exact .cons hfirst hspells
  · have hnonempty : b.hexDigits ≠ [] := List.ne_nil_of_length_pos (by omega)
    have hvalue := b.chunkValue_hexDigits
    rintro (h | ⟨h⟩ | ⟨h⟩ | ⟨h⟩)
    · refine ⟨false, chars, _, rfl, hnonempty, h, ?_, hvalue⟩
      rw [h.length_eq, Nat.mul_div_cancel_left _ (by decide)]
    · refine ⟨false, _, 0 :: b.hexDigits, rfl, List.cons_ne_nil _ _, .cons hfirst h, ?_, ?_⟩
      · rw [List.length_cons, h.length_eq]
        omega
      · rw [LimbInt.chunkValue_zero_cons, hvalue]
    · refine ⟨true, _, _, rfl, hnonempty, h, ?_, hvalue⟩
      rw [List.length_cons, h.length_eq]
      omega
    · obtain ⟨d, ds, hzero, hrest, hds⟩ := List.forall₂_cons_left_iff.mp h
      obtain rfl : 0 = d := Option.some.inj (hfirst.symm.trans hzero)
      have hcount := h.length_eq
      rw [List.length_cons] at hcount
      have hlength := Text.Spells.length_eq hrest
      refine ⟨true, _, ds, rfl, List.ne_nil_of_length_pos (by omega), hrest, ?_, ?_⟩
      · rw [List.length_cons]
        omega
      · rw [← hvalue, hds, LimbInt.chunkValue_zero_cons]

end Bytes

end Secp
