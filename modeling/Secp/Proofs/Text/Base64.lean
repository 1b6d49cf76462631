import Mathlib.Data.List.DropRight
import Secp.Proofs.Outcome
import Secp.Proofs.Text.Digits
import Secp.Text.Base64

/-!
# Which texts are read as base 64

A text that is read is a run of digits, not one more than makes whole groups, with at most two `=`
behind it. Nothing asks how many of them complete the last group. So beside the texts without
filling and those that are filled up, texts that are filled wrongly are read as their digits, and
one or two `=` alone as no bytes.
-/

namespace Secp.Base64

/-- The value of a digit, which is its place in the alphabet. -/
def value (c : Char) : UInt32 := UInt32.ofNat (alphabet.idxOf c)

/-- Whether a text is a run of digits and `fill` characters `=` behind it. -/
def SpelledBy (s : String) (digits : List Char) (fill : Nat) : Prop :=
  (∀ c ∈ digits, c ∈ alphabet) ∧ s.toList = digits ++ List.replicate fill '='

/-- Whether a text is base 64 without filling or with the filling that completes the last group. -/
def WellFilled (s : String) : Prop :=
  ∃ digits fill, SpelledBy s digits fill ∧ digits.length % 4 ≠ 1 ∧
    (fill = 0 ∨ fill = (4 - digits.length % 4) % 4)

/-- Whether a text is base 64 with one or two `=` that do not complete the last group. -/
def Misfilled (s : String) : Prop :=
  ∃ digits fill, SpelledBy s digits fill ∧ digits.length % 4 ≠ 1 ∧
    (fill = 1 ∨ fill = 2) ∧ fill ≠ (4 - digits.length % 4) % 4

/-- Every byte is that of the character of its number. -/
theorem toUInt8_ofNat (b : UInt8) : (Char.ofNat b.toNat).toUInt8 = b := by
  have hlt : b.toNat < 256 := b.toNat_lt
  have hvalid : b.toNat.isValidChar := .inl (by omega)
  rw [Char.toUInt8, Char.ofNat, dif_pos hvalid, ← UInt8.toNat_inj]
  exact Nat.mod_eq_of_lt hlt

/-- Digits are ASCII, none is the filling, and each is read as its value. -/
theorem digit_of_mem {c : Char} (hc : c ∈ alphabet) :
    c.toNat < 128 ∧ c.toUInt8 ≠ '='.toUInt8 ∧ sextet c.toUInt8 = .ok (value c) := by
  -- over the list of digits, since the quantifier over characters is decided over all of them
  have hall : alphabet.all (fun c ↦ c.toNat < 128 ∧ c.toUInt8 ≠ '='.toUInt8 ∧
      sextet c.toUInt8 = .ok (value c)) = true := by decide +kernel
  exact of_decide_eq_true (List.all_eq_true.mp hall c hc)

/-- A text of ASCII characters takes a byte for each of them. -/
theorem utf8_ofList {cs : List Char} (h : ∀ c ∈ cs, c.toNat < 128) :
    (String.ofList cs).toUTF8.data.toList = cs.map Char.toUInt8 := by
  rw [String.toUTF8_eq_toByteArray, String.toByteArray_ofList]
  induction cs with
  | nil => rfl
  | cons c cs ih =>
    obtain ⟨hc, hcs⟩ := List.forall_mem_cons.mp h
    have hsize : c.utf8Size = 1 :=
      Char.utf8Size_eq_one_iff.mpr (UInt32.le_iff_toNat_le.mpr (Nat.le_of_lt_succ hc))
    rw [List.utf8Encode_cons, List.utf8Encode_singleton, String.utf8EncodeChar_eq_singleton hsize,
      ByteArray.data_append, Array.toList_append, ih hcs, List.map_cons,
      List.toList_data_toByteArray]
    rfl

/-- A text has the bytes of ASCII characters exactly when it has these characters. -/
theorem utf8_eq_map_toUInt8_iff {s : String} {cs : List Char} (h : ∀ c ∈ cs, c.toNat < 128) :
    s.toUTF8.data.toList = cs.map Char.toUInt8 ↔ s.toList = cs := by
  rw [← utf8_ofList h]
  constructor
  · intro hbytes
    have hutf8 : s.toUTF8 = (String.ofList cs).toUTF8 := ByteArray.ext (Array.toList_inj.mp hbytes)
    rw [String.toByteArray_inj.mp hutf8, String.toList_ofList]
  · rintro rfl
    rw [String.ofList_toList]

/-- A byte is read as a value exactly when it is that of the digit with this value. -/
theorem sextet_eq_ok_iff {b : UInt8} {v : UInt32} :
    sextet b = .ok v ↔ ∃ c ∈ alphabet, c.toUInt8 = b ∧ value c = v := by
  constructor
  · intro h
    have hmem : Char.ofNat b.toNat ∈ alphabet := by
      by_contra hc
      rw [sextet, List.idxOf?_eq_none_iff.mpr hc] at h
      cases h
    rw [← toUInt8_ofNat b, (digit_of_mem hmem).2.2] at h
    exact ⟨_, hmem, toUInt8_ofNat b, Except.ok.inj h⟩
  · rintro ⟨c, hc, rfl, rfl⟩
    exact (digit_of_mem hc).2.2

/-- Bytes are read as values exactly when they are those of the digits with these values. -/
theorem mapM_sextet_eq_ok_iff {bytes : Bytes} {values : List UInt32} :
    bytes.mapM sextet = .ok values ↔
      ∃ digits : List Char, (∀ c ∈ digits, c ∈ alphabet) ∧ digits.map Char.toUInt8 = bytes ∧
        digits.map value = values := by
  induction bytes generalizing values with
  | nil =>
    rw [List.mapM_nil]
    constructor
    · rintro ⟨⟩
      exact ⟨[], nofun, rfl, rfl⟩
    · rintro ⟨digits, -, hbytes, rfl⟩
      rw [List.map_eq_nil_iff.mp hbytes]
      rfl
  | cons b bytes ih =>
    rw [List.mapM_cons, bind_eq_ok_iff]
    constructor
    · rintro ⟨v, hv, h⟩
      obtain ⟨vs, hvs, h⟩ := bind_eq_ok_iff.mp h
      cases h
      obtain ⟨c, hc, rfl, rfl⟩ := sextet_eq_ok_iff.mp hv
      obtain ⟨digits, hdigits, rfl, rfl⟩ := ih.mp hvs
      exact ⟨c :: digits, List.forall_mem_cons.mpr ⟨hc, hdigits⟩, rfl, rfl⟩
    · rintro ⟨digits, hdigits, hbytes, rfl⟩
      obtain ⟨c, cs, rfl, rfl, rfl⟩ := List.map_eq_cons_iff.mp hbytes
      obtain ⟨hc, hcs⟩ := List.forall_mem_cons.mp hdigits
      exact ⟨value c, sextet_eq_ok_iff.mpr ⟨c, hc, rfl, rfl⟩,
        bind_eq_ok_iff.mpr ⟨cs.map value, ih.mpr ⟨cs, hcs, rfl, rfl⟩, rfl⟩⟩

/-- Behind a list without it, dropping an element at the end drops as much as there is. -/
theorem rdropWhile_append_replicate {α : Type} [DecidableEq α] {a : α} {xs : List α} (h : a ∉ xs)
    (n : Nat) : (xs ++ List.replicate n a).rdropWhile (· = a) = xs := by
  induction n with
  | zero =>
    rw [List.replicate_zero, List.append_nil, List.rdropWhile_eq_self_iff]
    intro hne hlast
    exact h (of_decide_eq_true hlast ▸ List.getLast_mem hne)
  | succ n ih =>
    rw [List.replicate_succ', ← List.append_assoc, List.rdropWhile_concat_pos _ _ _ (by simp), ih]

/-- What is dropped at the end is so many times the element. -/
theorem eq_rdropWhile_append_replicate {α : Type} [DecidableEq α] (xs : List α) (a : α) :
    xs = xs.rdropWhile (· = a) ++
      List.replicate (xs.length - (xs.rdropWhile (· = a)).length) a := by
  have hsplit := List.rdropWhile_append_rtakeWhile (p := (· = a)) (l := xs)
  have hlength := congrArg List.length hsplit
  rw [List.length_append] at hlength
  conv_lhs => rw [← hsplit]
  rw [List.append_cancel_left_eq]
  refine List.eq_replicate_iff.mpr ⟨by omega, fun x hx ↦ ?_⟩
  exact of_decide_eq_true (List.mem_rtakeWhile_imp (p := (· = a)) hx)

/-- A text is a run of digits and filling exactly when its bytes are. -/
theorem spelledBy_iff {s : String} {digits : List Char} {fill : Nat}
    (hdigits : ∀ c ∈ digits, c ∈ alphabet) :
    SpelledBy s digits fill ↔ s.toUTF8.data.toList =
      digits.map Char.toUInt8 ++ List.replicate fill '='.toUInt8 := by
  have hascii : ∀ c ∈ digits ++ List.replicate fill '=', c.toNat < 128 := by
    intro c hc
    rcases List.mem_append.mp hc with hdigit | hfill
    · exact (digit_of_mem (hdigits c hdigit)).1
    · rw [List.eq_of_mem_replicate hfill]
      decide
  rw [SpelledBy, and_iff_right hdigits, ← utf8_eq_map_toUInt8_iff hascii, List.map_append,
    List.map_replicate]

/-- The filling is no digit. -/
theorem toUInt8_fill_notMem {digits : List Char} (h : ∀ c ∈ digits, c ∈ alphabet) :
    '='.toUInt8 ∉ digits.map Char.toUInt8 := by
  intro hmem
  obtain ⟨c, hc, hbyte⟩ := List.mem_map.mp hmem
  exact (digit_of_mem (h c hc)).2.1 hbyte

/-- A text is read exactly when it is a run of digits with at most two `=` behind it, none of them
alone in its group; what is read are the bytes of the digits. -/
theorem decode_eq_ok_iff {s : String} {data : Bytes} :
    decode s = .ok data ↔ ∃ digits fill, SpelledBy s digits fill ∧ digits.length % 4 ≠ 1 ∧
      fill ≤ 2 ∧ decodeValues (digits.map value) = data := by
  have hsplit := eq_rdropWhile_append_replicate s.toUTF8.data.toList '='.toUInt8
  unfold decode
  dsimp only
  rw [← List.rdropWhile]
  constructor
  · intro h
    split at h
    · cases h
    · next hlength =>
      obtain ⟨values, hvalues, hdata⟩ := map_eq_ok_iff.mp h
      obtain ⟨digits, hdigits, hbody, rfl⟩ := mapM_sextet_eq_ok_iff.mp hvalues
      rw [← hbody] at hsplit hlength
      rw [List.length_map] at hlength hsplit
      exact ⟨digits, _, (spelledBy_iff hdigits).mpr hsplit, by omega, by omega, hdata⟩
  · rintro ⟨digits, fill, hspelled, hlength, hfill, rfl⟩
    have hvalues := mapM_sextet_eq_ok_iff.mpr ⟨digits, hspelled.1, rfl, rfl⟩
    rw [(spelledBy_iff hspelled.1).mp hspelled,
      rdropWhile_append_replicate (toUInt8_fill_notMem hspelled.1), hvalues, List.length_append,
      List.length_map, List.length_replicate, if_neg (by omega)]
    rfl

/-- How a text is made of digits and filling is known from the text. -/
theorem SpelledBy.unique {s : String} {digits digits' : List Char} {fill fill' : Nat}
    (h : SpelledBy s digits fill) (h' : SpelledBy s digits' fill') :
    digits = digits' ∧ fill = fill' := by
  have hfill : '=' ∉ alphabet := by decide +kernel
  have hdigits := rdropWhile_append_replicate (fun hmem ↦ hfill (h.1 _ hmem)) fill
  have hdigits' := rdropWhile_append_replicate (fun hmem ↦ hfill (h'.1 _ hmem)) fill'
  rw [← h.2] at hdigits
  rw [← h'.2] at hdigits'
  obtain rfl := hdigits.symm.trans hdigits'
  have hlength := congrArg List.length (h.2.symm.trans h'.2)
  rw [List.length_append, List.length_append, List.length_replicate, List.length_replicate]
    at hlength
  exact ⟨rfl, by omega⟩

/-- Filling that does not complete the last group makes a text other than base 64. -/
theorem Misfilled.not_wellFilled {s : String} (h : Misfilled s) : ¬ WellFilled s := by
  obtain ⟨digits, fill, hspelled, -, hfill, hopen⟩ := h
  rintro ⟨digits', fill', hspelled', -, hfill'⟩
  obtain ⟨rfl, rfl⟩ := hspelled.unique hspelled'
  omega

/-- A text is read exactly when it is filled well or wrongly. -/
theorem exists_decode_iff {s : String} :
    (∃ data, decode s = .ok data) ↔ WellFilled s ∨ Misfilled s := by
  simp only [decode_eq_ok_iff]
  constructor
  · rintro ⟨-, digits, fill, hspelled, hlength, hfill, -⟩
    by_cases hwell : fill = 0 ∨ fill = (4 - digits.length % 4) % 4
    · exact .inl ⟨digits, fill, hspelled, hlength, hwell⟩
    · exact .inr ⟨digits, fill, hspelled, hlength, by omega, by omega⟩
  · rintro (⟨digits, fill, hspelled, hlength, hfill⟩ | ⟨digits, fill, hspelled, hlength, hfill, -⟩)
    · exact ⟨_, digits, fill, hspelled, hlength, by omega, rfl⟩
    · exact ⟨_, digits, fill, hspelled, hlength, by omega, rfl⟩

/-- The texts that are read are those of base 64, without filling or with what completes the last
group, and beside them exactly those with one or two `=` that do not complete it. All texts but
these are read as they should be, exactly if they are base 64. -/
theorem filled_texts_read (s : String) :
    ((∃ data, decode s = .ok data) ↔ WellFilled s ∨ Misfilled s) ∧
    (((∃ data, decode s = .ok data) ↔ WellFilled s) ↔ ¬ Misfilled s) := by
  refine ⟨exists_decode_iff, ?_⟩
  rw [exists_decode_iff]
  constructor
  · intro hiff hmisfilled
    exact hmisfilled.not_wellFilled (hiff.mp (.inr hmisfilled))
  · intro hmisfilled
    exact or_iff_left hmisfilled

/-- Two digits with one `=` behind them are read, although it takes two to complete the group. -/
theorem misfilled_text_read : decode "AA=" = .ok [0] ∧ ¬ WellFilled "AA=" := by
  have hspelled : SpelledBy "AA=" ['A', 'A'] 1 := by
    refine ⟨?_, rfl⟩
    rw [List.forall_mem_cons, List.forall_mem_singleton, and_self_iff]
    decide
  exact ⟨by decide +kernel, Misfilled.not_wellFilled ⟨_, _, hspelled, by decide, by decide⟩⟩

end Secp.Base64
