import Mathlib.Data.String.Basic
import Secp.Proofs.Bytes
import Secp.Proofs.Number.Positional
import Secp.Proofs.Outcome
import Secp.Text.Base58Check

/-!
# Base 58 is exact

Pushing a digit into a buffer multiplies its number and adds the digit, modulo what the buffer
holds, and the buffers are large enough for every length. So what is left in them without leading
zeros are the digits of the number. A text is read exactly if it is the text of some bytes, and it
is read as these. Another text is refused for the first of its characters outside the alphabet.
-/

namespace Secp.Base58

open Positional

/-- A buffer keeps its length. -/
theorem length_pushDigit (scale base carry : Nat) (ds : List Nat) :
    (pushDigit scale base carry ds).1.length = ds.length := by
  induction ds with
  | nil => rfl
  | cons d ds ih => exact congrArg Nat.succ ih

/-- Pushing a digit multiplies the number of the buffer and adds the digit; what does not fit stands
in front. -/
theorem value_pushDigit (scale base carry : Nat) (ds : List Nat) :
    (pushDigit scale base carry ds).2 * base ^ ds.length +
      value base (pushDigit scale base carry ds).1 = value base ds * scale + carry := by
  induction ds with
  | nil => simp [pushDigit]
  | cons d ds ih =>
    simp only [pushDigit]
    rw [value_cons, value_cons, length_pushDigit, List.length_cons, pow_succ]
    have hsplit := Nat.div_add_mod' (d * scale + (pushDigit scale base carry ds).2) base
    calc _ = ((d * scale + (pushDigit scale base carry ds).2) / base * base +
            (d * scale + (pushDigit scale base carry ds).2) % base) * base ^ ds.length +
          value base (pushDigit scale base carry ds).1 := by ring
      _ = d * scale * base ^ ds.length + ((pushDigit scale base carry ds).2 * base ^ ds.length +
          value base (pushDigit scale base carry ds).1) := by rw [hsplit]; ring
      _ = (d * base ^ ds.length + value base ds) * scale + carry := by rw [ih]; ring

/-- The digits of a buffer are digits of its base. -/
theorem lt_of_mem_pushDigit {scale base carry d : Nat} (hbase : 0 < base) {ds : List Nat}
    (h : d ∈ (pushDigit scale base carry ds).1) : d < base := by
  induction ds with
  | nil => cases h
  | cons e ds ih =>
    rcases List.mem_cons.mp h with rfl | hrest
    · exact Nat.mod_lt _ hbase
    · exact ih hrest

/-- A buffer while digits are pushed into it: it keeps its length and its base, and denotes what it
can of their number. -/
structure Holds (base size n : Nat) (buffer : List Nat) : Prop where
  length_eq : buffer.length = size
  lt_base : ∀ d ∈ buffer, d < base
  value_eq : value base buffer = n % base ^ size

/-- Pushing a digit into a buffer multiplies its number and adds the digit. -/
theorem Holds.push {base size n : Nat} {buffer : List Nat} (h : Holds base size n buffer)
    (hbase : 1 < base) (scale d : Nat) :
    Holds base size (n * scale + d) (pushDigit scale base d buffer).1 := by
  have hlength := (length_pushDigit scale base d buffer).trans h.length_eq
  have hlt : ∀ e ∈ (pushDigit scale base d buffer).1, e < base := fun e he ↦
    lt_of_mem_pushDigit (by omega) he
  refine ⟨hlength, hlt, ?_⟩
  have hvalue := value_pushDigit scale base d buffer
  have hbound := value_lt hbase hlt
  rw [hlength] at hbound
  rw [h.length_eq, h.value_eq] at hvalue
  calc value base (pushDigit scale base d buffer).1
      = ((pushDigit scale base d buffer).2 * base ^ size +
          value base (pushDigit scale base d buffer).1) % base ^ size := by
        rw [Nat.mul_add_mod_self_right, Nat.mod_eq_of_lt hbound]
    _ = (n % base ^ size * scale + d) % base ^ size := by rw [hvalue]
    _ = (n * scale + d) % base ^ size := by simp [Nat.add_mod, Nat.mul_mod]

/-- Converted digits denote what the buffer can hold of their number. -/
theorem holds_convert {base : Nat} (hbase : 1 < base) (scale size : Nat) (ds : List Nat) :
    Holds base size (value scale ds) (convert scale base size ds) := by
  induction ds using List.reverseRecOn with
  | nil =>
    refine ⟨List.length_replicate, fun d hd ↦ ?_, ?_⟩
    · rw [List.eq_of_mem_replicate hd]
      omega
    · have hzero := value_replicate_zero_append base size []
      rw [List.append_nil] at hzero
      rw [value_nil, Nat.zero_mod]
      exact hzero
  | append_singleton ds d ih =>
    rw [value_concat, convert, List.foldl_append, List.foldl_cons, List.foldl_nil, ← convert]
    exact ih.push hbase scale d

/-- In a buffer that is large enough the digits in the other base are left behind the leading
zeros. -/
theorem dropWhile_convert {source target size : Nat} (hsource : 1 < source) (htarget : 1 < target)
    {ds : List Nat} (h : ∀ d ∈ ds, d < source) (hsize : source ^ ds.length ≤ target ^ size) :
    ds.takeWhile (· = 0) ++ (convert source target size ds).dropWhile (· = 0) =
      transcode source target ds := by
  obtain ⟨-, hlt, hvalue⟩ := holds_convert htarget source size ds
  have hfits : value source ds < target ^ size := (value_lt hsource h).trans_le hsize
  rw [transcode, dropWhile_zero_eq htarget hlt, hvalue, Nat.mod_eq_of_lt hfits]

/-- Bytes are digits in base 256. -/
theorem lt_of_mem_map_toNat {b : Bytes} : ∀ d ∈ b.map UInt8.toNat, d < 256 := by
  intro d hd
  obtain ⟨byte, -, rfl⟩ := List.mem_map.mp hd
  exact byte.toNat_lt

/-- The base-58 digits of bytes: a zero for each leading zero byte, and the digits of the number. -/
def digits (b : Bytes) : List Nat := transcode 256 58 (b.map UInt8.toNat)

/-- A byte is zero exactly if its number is. -/
theorem zero_comp_toNat :
    (fun d : Nat ↦ decide (d = 0)) ∘ UInt8.toNat = fun byte ↦ decide (byte = 0) := by
  funext byte
  simp [← UInt8.toNat_inj]

/-- The leading zero bytes as digits. -/
theorem takeWhile_map_toNat (b : Bytes) :
    (b.map UInt8.toNat).takeWhile (· = 0) = (b.takeWhile (· = 0)).map UInt8.toNat := by
  rw [List.takeWhile_map, zero_comp_toNat]

/-- The bytes behind the leading zeros as digits. -/
theorem dropWhile_map_toNat (b : Bytes) :
    (b.map UInt8.toNat).dropWhile (· = 0) = (b.dropWhile (· = 0)).map UInt8.toNat := by
  rw [List.dropWhile_map, zero_comp_toNat]

/-- The leading zero bytes are written as the digit `1` each. -/
theorem map_digit_takeWhile (b : Bytes) : ((b.map UInt8.toNat).takeWhile (· = 0)).map digit =
    (b.takeWhile (· = 0)).map fun _ ↦ '1' := by
  rw [takeWhile_map_toNat, List.map_map]
  apply List.map_congr_left
  intro byte hbyte
  have hzero : byte = 0 := by simpa using List.mem_takeWhile_imp hbyte
  rw [hzero]
  rfl

/-- The text of bytes is written with their base-58 digits. -/
theorem encode_eq (b : Bytes) : encode b = String.ofList ((digits b).map digit) := by
  unfold encode
  split
  · next h =>
    subst h
    rfl
  · have hsize : 256 ^ (b.map UInt8.toNat).length ≤ 58 ^ (b.length * 138 / 100 + 1) := by
      rw [List.length_map]
      exact pow_le_pow_scaled (by decide) (by decide +kernel) (by decide) b.length
    dsimp only
    rw [digits, ← dropWhile_convert (by decide) (by decide) lt_of_mem_map_toNat hsize,
      List.map_append, map_digit_takeWhile]

/-- A character is read as the value of which it is the digit. -/
theorem valueOf_eq_ok_iff {c : Char} {value : Nat} :
    valueOf c = .ok value ↔ value < 58 ∧ digit value = c := by
  have hread : ∀ value < 58, alphabet.idxOf? (digit value) = some value := by decide +kernel
  unfold valueOf
  constructor
  · intro h
    split at h
    · next found hfound =>
      cases h
      obtain ⟨hlt, hchar, -⟩ := List.idxOf?_eq_some_iff.mp hfound
      refine ⟨hlt, ?_⟩
      rw [digit, List.getD_eq_getElem?_getD, List.getElem?_eq_getElem hlt, Option.getD_some, hchar]
    · cases h
  · rintro ⟨hlt, rfl⟩
    rw [hread value hlt]

/-- A character outside the alphabet is refused by its name. -/
theorem valueOf_eq_error_iff {c : Char} {reason : Error} :
    valueOf c = .error reason ↔ c ∉ alphabet ∧ reason = .invalidCharacter c 58 := by
  unfold valueOf
  cases hfound : alphabet.idxOf? c with
  | some value =>
    obtain ⟨hlt, hchar, -⟩ := List.idxOf?_eq_some_iff.mp hfound
    exact ⟨nofun, fun ⟨hc, _⟩ ↦ absurd (hchar ▸ List.getElem_mem hlt) hc⟩
  | none =>
    have hc : c ∉ alphabet := List.idxOf?_eq_none_iff.mp hfound
    exact ⟨fun h ↦ ⟨hc, (Except.error.inj h).symm⟩, fun ⟨_, h⟩ ↦ congrArg Except.error h.symm⟩

/-- The characters of the alphabet have values. -/
theorem exists_valueOf_iff {c : Char} : (∃ value, valueOf c = .ok value) ↔ c ∈ alphabet := by
  constructor
  · rintro ⟨value, hvalue⟩
    by_contra hc
    rw [valueOf_eq_error_iff.mpr ⟨hc, rfl⟩] at hvalue
    cases hvalue
  · intro hc
    cases hvalue : valueOf c with
    | error reason => exact absurd hc (valueOf_eq_error_iff.mp hvalue).1
    | ok value => exact ⟨value, rfl⟩

/-- A text of digits is read as their values. -/
theorem mapM_valueOf_eq_ok_iff {cs : List Char} {values : List Nat} :
    cs.mapM valueOf = .ok values ↔ (∀ d ∈ values, d < 58) ∧ values.map digit = cs := by
  induction cs generalizing values with
  | nil =>
    rw [List.mapM_nil]
    constructor
    · rintro ⟨⟩
      exact ⟨nofun, rfl⟩
    · rintro ⟨-, h⟩
      rw [List.map_eq_nil_iff.mp h]
      rfl
  | cons c cs ih =>
    rw [List.mapM_cons, bind_eq_ok_iff]
    constructor
    · rintro ⟨d, hd, h⟩
      obtain ⟨ds, hds, h⟩ := bind_eq_ok_iff.mp h
      cases h
      obtain ⟨hlt, rfl⟩ := valueOf_eq_ok_iff.mp hd
      obtain ⟨hrest, rfl⟩ := ih.mp hds
      exact ⟨List.forall_mem_cons.mpr ⟨hlt, hrest⟩, rfl⟩
    · rintro ⟨hlt, h⟩
      obtain ⟨d, ds, rfl, hd, hds⟩ := List.map_eq_cons_iff.mp h
      obtain ⟨hd', hds'⟩ := List.forall_mem_cons.mp hlt
      refine ⟨d, valueOf_eq_ok_iff.mpr ⟨hd', hd⟩, bind_eq_ok_iff.mpr ⟨ds, ih.mpr ⟨hds', hds⟩, rfl⟩⟩

/-- The digit `1` is that of zero only. -/
theorem takeWhile_map_digit {values : List Nat} (h : ∀ d ∈ values, d < 58) :
    (values.map digit).takeWhile (· = '1') = (values.takeWhile (· = 0)).map digit := by
  have hone : ∀ d < 58, digit d = '1' ↔ d = 0 := by decide +kernel
  induction values with
  | nil => rfl
  | cons d ds ih =>
    obtain ⟨hd, hds⟩ := List.forall_mem_cons.mp h
    rw [List.map_cons, List.takeWhile_cons, List.takeWhile_cons, ih hds]
    simp only [hone d hd]
    split
    · rfl
    · rfl

/-- A text takes a byte at least for each of its characters. -/
theorem length_le_utf8ByteSize (s : String) : s.toList.length ≤ s.utf8ByteSize := by
  have hlength (cs : List Char) : cs.length ≤ String.utf8Len cs := by
    induction cs with
    | nil => exact Nat.le_refl 0
    | cons c cs ih =>
      rw [String.utf8Len_cons, List.length_cons]
      exact Nat.add_le_add ih c.utf8Size_pos
  have hsize := String.utf8ByteSize_ofList s.toList
  rw [String.ofList_toList] at hsize
  rw [hsize]
  exact hlength _

/-- A text of digits is read as the bytes that they denote, behind a zero byte for each `1` in
front. -/
theorem decode_eq {s : String} {values : List Nat} (hlt : ∀ d ∈ values, d < 58)
    (hs : s.toList = values.map digit) :
    decode s = .ok ((transcode 58 256 values).map UInt8.ofNat) := by
  have hread := mapM_valueOf_eq_ok_iff.mpr ⟨hlt, hs.symm⟩
  have hsize : 58 ^ values.length ≤ 256 ^ (s.utf8ByteSize * 733 / 1000 + 1) := by
    have hlength : values.length ≤ s.utf8ByteSize := by
      rw [← List.length_map digit, ← hs]
      exact length_le_utf8ByteSize s
    exact (Nat.pow_le_pow_right (by decide) hlength).trans
      (pow_le_pow_scaled (by decide) (by decide +kernel) (by decide) _)
  have hzeros : (s.toList.takeWhile (· = '1')).map (fun _ ↦ (0 : UInt8)) =
      (values.takeWhile (· = 0)).map UInt8.ofNat := by
    rw [hs, takeWhile_map_digit hlt, List.map_map]
    apply List.map_congr_left
    intro d hd
    have hzero : d = 0 := by simpa using List.mem_takeWhile_imp hd
    rw [hzero]
    rfl
  rw [decode, hread, Except.map, ← dropWhile_convert (by decide) (by decide) hlt hsize,
    List.map_append, ← hzeros]

/-- Digits in base 256 are bytes. -/
theorem map_toNat_map_ofNat {ds : List Nat} (h : ∀ d ∈ ds, d < 256) :
    (ds.map UInt8.ofNat).map UInt8.toNat = ds := by
  rw [List.map_map]
  conv_rhs => rw [← List.map_id ds]
  apply List.map_congr_left
  intro d hd
  exact UInt8.toNat_ofNat_of_lt' (h d hd)

/-- Bytes are given back by their digits. -/
theorem map_ofNat_map_toNat (b : Bytes) : (b.map UInt8.toNat).map UInt8.ofNat = b := by
  rw [List.map_map]
  conv_rhs => rw [← List.map_id b]
  apply List.map_congr_left
  intro byte _
  exact UInt8.ofNat_toNat

/-- A text is read as some bytes exactly if it is their text. -/
theorem decode_eq_ok_iff {s : String} {b : Bytes} : decode s = .ok b ↔ s = encode b := by
  constructor
  · intro h
    obtain ⟨values, hread, -⟩ := map_eq_ok_iff.mp h
    obtain ⟨hlt, hs⟩ := mapM_valueOf_eq_ok_iff.mp hread
    have hdigits : ∀ d ∈ transcode 58 256 values, d < 256 := fun d hd ↦
      lt_of_mem_transcode (by decide) hd
    obtain rfl := Except.ok.inj ((decode_eq hlt hs.symm).symm.trans h)
    rw [encode_eq, digits, map_toNat_map_ofNat hdigits, transcode_transcode (by decide) hlt, hs,
      String.ofList_toList]
  · rintro rfl
    have hlt : ∀ d ∈ digits b, d < 58 := fun d hd ↦ lt_of_mem_transcode (by decide) hd
    have hs : (encode b).toList = (digits b).map digit := by
      rw [encode_eq, String.toList_ofList]
    rw [decode_eq hlt hs, digits, transcode_transcode (by decide) lt_of_mem_map_toNat,
      map_ofNat_map_toNat]

/-- A text is refused for the first of its characters that is outside the alphabet. -/
theorem decode_eq_error_iff {s : String} {reason : Error} :
    decode s = .error reason ↔ ∃ front c back, s.toList = front ++ c :: back ∧
      (∀ x ∈ front, x ∈ alphabet) ∧ c ∉ alphabet ∧ reason = .invalidCharacter c 58 := by
  have hread : decode s = .error reason ↔ s.toList.mapM valueOf = .error reason := by
    unfold decode
    cases s.toList.mapM valueOf with
    | error first => rw [Except.map, Except.error.injEq, Except.error.injEq]
    | ok values => exact ⟨nofun, nofun⟩
  rw [hread, mapM_eq_error_iff]
  simp only [exists_valueOf_iff, valueOf_eq_error_iff]

/-- A text is read exactly if all its characters are in the alphabet. -/
theorem exists_decode_iff {s : String} :
    (∃ b, decode s = .ok b) ↔ ∀ c ∈ s.toList, c ∈ alphabet := by
  constructor
  · rintro ⟨b, hb⟩
    obtain ⟨values, hread, -⟩ := map_eq_ok_iff.mp hb
    obtain ⟨hlt, hs⟩ := mapM_valueOf_eq_ok_iff.mp hread
    intro c hc
    obtain ⟨d, hd, rfl⟩ := List.mem_map.mp (hs ▸ hc)
    exact exists_valueOf_iff.mp ⟨d, valueOf_eq_ok_iff.mpr ⟨hlt d hd, rfl⟩⟩
  · intro h
    cases hs : decode s with
    | error reason =>
      obtain ⟨front, c, back, hcut, -, hc, -⟩ := decode_eq_error_iff.mp hs
      exact absurd (h c (by rw [hcut]; exact List.mem_append_right _ List.mem_cons_self)) hc
    | ok b => exact ⟨b, rfl⟩

/-- The text of bytes, without a buffer: a `1` for each leading zero byte, and the base-58 digits of
the number. -/
def text (b : Bytes) : String :=
  String.ofList ((b.takeWhile (· = 0)).map (fun _ ↦ '1') ++
    (Nat.digits 58 (Bytes.toNat b)).reverse.map digit)

end Secp.Base58

namespace Secp.Base58Check

/-- The text of a payload and its checksum. -/
def text (payload : Bytes) : String := Base58.text (payload ++ checksum payload)

/-- A checksum has four bytes. -/
theorem length_checksum (payload : Bytes) : (checksum payload).length = checksumLength := rfl

/-- A text is read as a payload exactly if it is the text of the payload. -/
theorem decode_eq_ok_iff {s : String} {payload : Bytes} :
    decode s = .ok payload ↔ s = encode payload := by
  unfold encode
  rw [← Base58.decode_eq_ok_iff, decode]
  cases Base58.decode s with
  | error fault => exact ⟨nofun, nofun⟩
  | ok data =>
    dsimp only
    rw [Except.ok.injEq]
    split
    · next hshort =>
      refine ⟨nofun, ?_⟩
      rintro rfl
      rw [List.length_append, length_checksum] at hshort
      omega
    · next hlong =>
      split
      · next hchecksum =>
        constructor
        · rintro ⟨⟩
          rw [hchecksum, List.take_append_drop]
        · rintro rfl
          rw [List.length_append, length_checksum, Nat.add_sub_cancel, List.take_left' rfl]
      · next hchecksum =>
        refine ⟨nofun, ?_⟩
        rintro rfl
        apply absurd _ hchecksum
        rw [List.length_append, length_checksum, Nat.add_sub_cancel, List.take_left' rfl,
          List.drop_left' rfl]

end Secp.Base58Check
