import Secp.Proofs.Limbs.Checked
import Secp.Proofs.Text.Base58

/-!
# Base 58 in a buffer of bytes

Here the digits are kept the way a machine keeps them, a byte for each place of a buffer of fixed
size. A digit is pushed in by one loop over the places from the right, which multiplies what stands
there, takes in what is carried, and carries on what a place cannot hold. A text is read character
by character, and the first one outside the alphabet ends the reading.

Every step is checked: that its place is inside the buffer, that its sum fits a word and what it
leaves a byte, and that nothing is carried out of the buffer at its end. Places and sizes are
numbers. No step ever stops on a fault, so nothing is lost at any length, and reading and writing
are those on lists, which are exact.
-/

namespace Secp.Base58

open Limbs (Fault)
open Limbs.Checked (guarded guarded_of foldrM_range)

namespace Checked

/-- A number that fits a word. -/
def word (n : Nat) : Except Fault Nat := guarded (n < 2 ^ 32) .overflow n

/-- A number that fits a byte. -/
def byte (n : Nat) : Except Fault UInt8 := guarded (n < 256) .overflow (UInt8.ofNat n)

/-- The byte at a place. -/
def read (buffer : Bytes) (place : Nat) : Except Fault UInt8 :=
  match buffer[place]? with
  | some b => .ok b
  | none => .error .outOfBounds

/-- Multiply the digit at a place and take in what is carried: the buffer with what stays there, and
what is carried on. -/
def pushAt (scale base place : Nat) (s : Bytes × Nat) : Except Fault (Bytes × Nat) := do
  let digit ← read s.1 place
  let total ← word (digit.toNat * scale + s.2)
  let digit ← byte (total % base)
  .ok (s.1.set place digit, total / base)

/-- Multiply a buffer of digits and add a digit; nothing may be carried out of it. -/
def push (scale base : Nat) (buffer : Bytes) (digit : Nat) : Except Fault Bytes := do
  let (buffer, carry) ← (List.range buffer.length).foldrM (pushAt scale base) (buffer, digit)
  guarded (carry = 0) .overflow buffer

/-- The letter of a digit. -/
def letter (d : UInt8) : Except Fault Char :=
  match alphabet[d.toNat]? with
  | some c => .ok c
  | none => .error .outOfBounds

/-- Write a byte string. -/
def encode (data : Bytes) : Except Fault String :=
  if data = [] then .ok ""
  else do
    let zeros := (data.takeWhile (· = 0)).length
    let buffer := List.replicate (data.length * 138 / 100 + 1) 0
    let buffer ← (data.map UInt8.toNat).foldlM (push 256 58) buffer
    let letters ← (buffer.dropWhile (· = 0)).mapM letter
    .ok (String.ofList (List.replicate zeros '1' ++ letters))

/-- Push the digit that a character stands for. -/
def take (buffer : Bytes) (c : Char) : ExceptT Error (Except Fault) Bytes := do
  let value ← ExceptT.mk (.ok (valueOf c))
  ExceptT.lift (push 58 256 buffer value)

/-- Read a text; the first character outside the alphabet is refused. -/
def decode (s : String) : ExceptT Error (Except Fault) Bytes := do
  let ones := (s.toList.takeWhile (· = '1')).length
  let buffer ← s.toList.foldlM take (List.replicate (s.utf8ByteSize * 733 / 1000 + 1) 0)
  pure (List.replicate ones 0 ++ buffer.dropWhile (· = 0))

variable {scale base size carry : Nat} {ds : List Nat}

/-- Two bases whose digits are bytes. -/
structure Bytewise (scale base : Nat) : Prop where
  one_lt_scale : 1 < scale
  scale_le : scale ≤ 256
  one_lt_base : 1 < base
  base_le : base ≤ 256

/-- What is carried on fits two bytes. -/
theorem Bytewise.carry_lt (h : Bytewise scale base) (hds : ∀ d ∈ ds, d < 256)
    (hcarry : carry < 2 ^ 16) : (pushDigit scale base carry ds).2 < 2 ^ 16 := by
  induction ds with
  | nil => exact hcarry
  | cons d ds ih =>
    obtain ⟨hd, hds⟩ := List.forall_mem_cons.mp hds
    have hproduct : d * scale ≤ 255 * 256 := Nat.mul_le_mul (by omega) h.scale_le
    have hrest := ih hds
    have hhalf : (d * scale + (pushDigit scale base carry ds).2) / base ≤
        (d * scale + (pushDigit scale base carry ds).2) / 2 :=
      Nat.div_le_div_left h.one_lt_base (by decide)
    simp only [pushDigit]
    omega

/-- The loop that pushes a digit into a buffer has come down to a place: the digits from there on
are pushed, and those before it are as they were. -/
structure At (scale base carry : Nat) (ds : List Nat) (place : Nat) (s : Bytes × Nat) : Prop where
  buffer_eq : s.1.map UInt8.toNat = ds.take place ++ (pushDigit scale base carry (ds.drop place)).1
  carry_eq : s.2 = (pushDigit scale base carry (ds.drop place)).2

/-- The loop goes on to the next place, with no fault. -/
theorem At.exists_pushAt (h : Bytewise scale base) (hds : ∀ d ∈ ds, d < 256)
    (hcarry : carry < 2 ^ 16) {place : Nat} (hplace : place < ds.length) {s : Bytes × Nat}
    (hs : At scale base carry ds (place + 1) s) :
    ∃ t, pushAt scale base place s = .ok t ∧ At scale base carry ds place t := by
  have hdrop : ds.drop place = ds[place] :: ds.drop (place + 1) := List.drop_eq_getElem_cons hplace
  have htake : ds.take (place + 1) = ds.take place ++ [ds[place]] :=
    List.take_succ_eq_append_getElem hplace
  have hlength : (ds.take place).length = place := List.length_take_of_le hplace.le
  have hbuffer := hs.buffer_eq
  rw [htake, List.append_assoc, List.singleton_append] at hbuffer
  -- the digit at the place has not been pushed yet
  obtain ⟨b, hb, hdigit⟩ : ∃ b, s.1[place]? = some b ∧ b.toNat = ds[place] := by
    rw [← Option.map_eq_some_iff, ← List.getElem?_map, hbuffer,
      List.getElem?_append_right hlength.le, hlength, Nat.sub_self]
    rfl
  have hlt : ds[place] < 256 := hds _ (List.getElem_mem hplace)
  have hproduct : ds[place] * scale ≤ 255 * 256 := Nat.mul_le_mul (by omega) h.scale_le
  have hrest : s.2 < 2 ^ 16 := by
    rw [hs.carry_eq]
    exact h.carry_lt (fun d hd ↦ hds d (List.mem_of_mem_drop hd)) hcarry
  have hword : ds[place] * scale + s.2 < 2 ^ 32 := by omega
  have hbyte : (ds[place] * scale + s.2) % base < 256 :=
    (Nat.mod_lt _ (Nat.zero_lt_of_lt h.one_lt_base)).trans_le h.base_le
  rw [pushAt, read, hb, ok_bind, hdigit, word, guarded_of hword, ok_bind, byte, guarded_of hbyte,
    ok_bind]
  refine ⟨_, rfl, ?_, ?_⟩
  · rw [List.map_set, hbuffer, hdrop, List.set_append_right _ _ hlength.le, hlength, Nat.sub_self,
      UInt8.toNat_ofNat_of_lt' hbyte, hs.carry_eq]
    rfl
  · rw [hdrop, hs.carry_eq]
    rfl

/-- Nothing is carried out of a buffer that can hold the number with the digit. -/
theorem Bytewise.carry_convert (h : Bytewise scale base) {d : Nat}
    (hfits : Positional.value scale (ds ++ [d]) < base ^ size) :
    (pushDigit scale base d (convert scale base size ds)).2 = 0 := by
  obtain ⟨hlength, -, hvalue⟩ := holds_convert h.one_lt_base scale size ds
  rw [Positional.value_concat] at hfits
  have hheld : Positional.value scale ds < base ^ size :=
    (Nat.le_mul_of_pos_right _ (Nat.zero_lt_of_lt h.one_lt_scale)).trans_lt
      (Nat.lt_of_add_right_lt hfits)
  have hpush := value_pushDigit scale base d (convert scale base size ds)
  rw [hlength, hvalue, Nat.mod_eq_of_lt hheld] at hpush
  have hlt : (pushDigit scale base d (convert scale base size ds)).2 * base ^ size <
      1 * base ^ size := by omega
  exact Nat.lt_one_iff.mp (Nat.lt_of_mul_lt_mul_right hlt)

/-- The buffer of bytes in which digits are converted. -/
def held (scale base size : Nat) (ds : List Nat) : Bytes :=
  (convert scale base size ds).map UInt8.ofNat

/-- A buffer begins with zeros. -/
theorem held_nil (scale base size : Nat) : held scale base size [] = List.replicate size 0 :=
  List.map_replicate

/-- The bytes of a buffer are the converted digits. -/
theorem Bytewise.map_toNat_held (h : Bytewise scale base) (size : Nat) (ds : List Nat) :
    (held scale base size ds).map UInt8.toNat = convert scale base size ds :=
  map_toNat_map_ofNat fun d hd ↦
    ((holds_convert h.one_lt_base scale size ds).lt_base d hd).trans_le h.base_le

/-- What is left of a buffer without leading zeros. -/
theorem Bytewise.dropWhile_held (h : Bytewise scale base) (size : Nat) (ds : List Nat) :
    (held scale base size ds).dropWhile (· = 0) =
      ((convert scale base size ds).dropWhile (· = 0)).map UInt8.ofNat := by
  rw [← h.map_toNat_held, dropWhile_map_toNat, map_ofNat_map_toNat]

/-- A digit is pushed into a buffer that is large enough, with nothing carried out of it. -/
theorem Bytewise.push_held (h : Bytewise scale base) {d : Nat} (hds : ∀ e ∈ ds ++ [d], e < scale)
    (hsize : scale ^ (ds.length + 1) ≤ base ^ size) :
    push scale base (held scale base size ds) d = .ok (held scale base size (ds ++ [d])) := by
  have hfits : Positional.value scale (ds ++ [d]) < base ^ size := by
    have hvalue := Positional.value_lt h.one_lt_scale hds
    rw [List.length_append, List.length_singleton] at hvalue
    exact hvalue.trans_le hsize
  have hd : d < 2 ^ 16 := by
    have := hds d (List.mem_append_right _ (List.mem_singleton_self d))
    have := h.scale_le
    omega
  have hbuffer := h.map_toNat_held size ds
  have hbytes : ∀ e ∈ convert scale base size ds, e < 256 := by
    rw [← hbuffer]
    exact lt_of_mem_map_toNat
  have hlength : (convert scale base size ds).length = (held scale base size ds).length := by
    rw [held, List.length_map]
  -- behind the last place nothing is pushed yet, and the digit itself is carried in
  have hfirst : At scale base d (convert scale base size ds) (held scale base size ds).length
      (held scale base size ds, d) := by
    constructor
    · rw [← hlength, List.take_length, List.drop_length, hbuffer]
      exact (List.append_nil _).symm
    · rw [← hlength, List.drop_length]
      rfl
  obtain ⟨⟨buffer, carry⟩, hrun, hlast, hcarry⟩ := foldrM_range
    (At scale base d (convert scale base size ds)) hfirst fun place hplace s hs ↦
      hs.exists_pushAt h hbytes hd (hlength ▸ hplace)
  have hnext : buffer = held scale base size (ds ++ [d]) := by
    rw [held, convert, List.foldl_append, List.foldl_cons, List.foldl_nil, ← convert,
      ← map_ofNat_map_toNat buffer]
    exact congrArg (List.map UInt8.ofNat) hlast
  rw [push, hrun, ok_bind, hnext]
  exact guarded_of (hcarry.trans (h.carry_convert hfits)) _ _

/-- Digits are pushed into a buffer that is large enough, with no fault. -/
theorem Bytewise.foldlM_push (h : Bytewise scale base) (hds : ∀ d ∈ ds, d < scale)
    (hsize : scale ^ ds.length ≤ base ^ size) :
    ds.foldlM (push scale base) (List.replicate size 0) = .ok (held scale base size ds) := by
  induction ds using List.reverseRecOn with
  | nil => rw [held_nil, List.foldlM_nil]; rfl
  | append_singleton ds d ih =>
    rw [List.length_append, List.length_singleton] at hsize
    have hfront := Nat.pow_le_pow_right (Nat.zero_lt_of_lt h.one_lt_scale) (Nat.le_succ ds.length)
    have hrun := ih (fun e he ↦ hds e (List.mem_append_left _ he)) (hfront.trans hsize)
    rw [List.foldlM_append, hrun, ok_bind, List.foldlM_cons, h.push_held hds hsize]
    rfl

/-- Bytes are written in digits below 58. -/
theorem bytewise_encode : Bytewise 256 58 := ⟨by decide, by decide, by decide, by decide⟩

/-- Digits below 58 are read as bytes. -/
theorem bytewise_decode : Bytewise 58 256 := ⟨by decide, by decide, by decide, by decide⟩

/-- A digit has a letter. -/
theorem letter_eq {d : UInt8} (hd : d.toNat < 58) : letter d = .ok (digit d.toNat) := by
  have hfound : alphabet[d.toNat]? = some alphabet[d.toNat] := List.getElem?_eq_getElem hd
  rw [letter, digit, List.getD_eq_getElem?_getD, hfound, Option.getD_some]

/-- Bytes are written as on lists, with no fault. -/
theorem encode_eq (data : Bytes) : encode data = .ok (Base58.encode data) := by
  unfold encode Base58.encode
  split
  · rfl
  · have hsize : 256 ^ (data.map UInt8.toNat).length ≤ 58 ^ (data.length * 138 / 100 + 1) := by
      rw [List.length_map]
      exact Positional.pow_le_pow_scaled (by decide) (by decide +kernel) (by decide) data.length
    dsimp only
    rw [bytewise_encode.foldlM_push lt_of_mem_map_toNat hsize, ok_bind]
    generalize data.length * 138 / 100 + 1 = size
    have hbuffer := bytewise_encode.map_toNat_held size (data.map UInt8.toNat)
    have hdigits : ∀ d ∈ (held 256 58 size (data.map UInt8.toNat)).dropWhile (· = 0),
        d.toNat < 58 := by
      intro d hd
      apply (holds_convert bytewise_encode.one_lt_base 256 size (data.map UInt8.toNat)).lt_base
      rw [← hbuffer]
      exact List.mem_map_of_mem (List.dropWhile_subset _ hd)
    rw [mapM_eq_ok_of_forall fun d hd ↦ letter_eq (hdigits d hd), ok_bind, ← hbuffer,
      dropWhile_map_toNat, List.map_map, List.map_const']
    rfl

/-- A character is refused, or its digit is pushed as on lists. -/
theorem take_held (hds : ∀ d ∈ ds, d < 58) (hsize : 58 ^ (ds.length + 1) ≤ 256 ^ size) (c : Char) :
    (take (held 58 256 size ds) c).run =
      .ok ((valueOf c).map fun d ↦ held 58 256 size (ds ++ [d])) := by
  unfold take
  cases hc : valueOf c with
  | error reason => rfl
  | ok d =>
    have hd := (valueOf_eq_ok_iff.mp hc).1
    have hpush := bytewise_decode.push_held
      (List.forall_mem_append.mpr ⟨hds, List.forall_mem_singleton.mpr hd⟩) hsize
    change (ExceptT.lift (push 58 256 (held 58 256 size ds) d)).run = _
    rw [hpush]
    rfl

/-- The characters of a text are read and pushed as on lists, with no fault. -/
theorem foldlM_take {cs : List Char} (hsize : 58 ^ cs.length ≤ 256 ^ size) :
    (cs.foldlM take (List.replicate size 0)).run =
      .ok ((cs.mapM valueOf).map (held 58 256 size)) := by
  induction cs using List.reverseRecOn with
  | nil => exact congrArg (Except.ok ∘ Except.ok) (held_nil 58 256 size).symm
  | append_singleton cs c ih =>
    rw [List.length_append, List.length_singleton] at hsize
    have hrun := ih ((Nat.pow_le_pow_right (by decide) (Nat.le_succ _)).trans hsize)
    rw [List.foldlM_append, ExceptT.run_bind, hrun, ok_bind, List.mapM_append]
    cases hcs : cs.mapM valueOf with
    | error reason => rfl
    | ok values =>
      obtain ⟨hvalues, rfl⟩ := mapM_valueOf_eq_ok_iff.mp hcs
      rw [List.length_map] at hsize
      have hlast : [c].foldlM take (held 58 256 size values) = take (held 58 256 size values) c :=
        bind_pure _
      change ([c].foldlM take (held 58 256 size values)).run = _
      rw [hlast, take_held hvalues hsize, List.mapM_cons, List.mapM_nil]
      cases valueOf c <;> rfl

/-- A text is read or refused as on lists, with no fault. -/
theorem decode_eq (s : String) : (decode s).run = .ok (Base58.decode s) := by
  have hsize : 58 ^ s.toList.length ≤ 256 ^ (s.utf8ByteSize * 733 / 1000 + 1) :=
    (Nat.pow_le_pow_right (by decide) (length_le_utf8ByteSize s)).trans
      (Positional.pow_le_pow_scaled (by decide) (by decide +kernel) (by decide) _)
  unfold decode Base58.decode
  dsimp only
  rw [ExceptT.run_bind, foldlM_take hsize, ok_bind]
  cases s.toList.mapM valueOf with
  | error reason => rfl
  | ok values =>
    simp only [Except.map]
    rw [← bytewise_decode.dropWhile_held, List.map_const']
    rfl

end Checked

/-- Writing and reading never stop on a fault, so nothing is carried out of a buffer at any length.
Bytes are read back from their text, and a text is the one of the bytes that it is read as. A text
is read exactly if all its characters are in the alphabet; another one is refused for the first of
its characters that is not. With a checksum, a payload is read back from its text as well, and a
text is read as a payload only if it is the payload's. -/
theorem texts_exact (data : Bytes) (s : String) :
    Checked.encode data = .ok (encode data) ∧
      (Checked.decode s).run = .ok (decode s) ∧
      decode (encode data) = .ok data ∧
      (decode s = .ok data ↔ encode data = s) ∧
      ((∃ b, decode s = .ok b) ↔ ∀ c ∈ s.toList, c ∈ alphabet) ∧
      (∀ reason, decode s = .error reason ↔ ∃ front c back, s.toList = front ++ c :: back ∧
        (∀ x ∈ front, x ∈ alphabet) ∧ c ∉ alphabet ∧ reason = .invalidCharacter c 58) ∧
      Base58Check.decode (Base58Check.encode data) = .ok data ∧
      (Base58Check.decode s = .ok data ↔ Base58Check.encode data = s) := by
  refine ⟨Checked.encode_eq data, Checked.decode_eq s, decode_eq_ok_iff.mpr rfl, ?_,
    exists_decode_iff, fun reason ↦ decode_eq_error_iff, Base58Check.decode_eq_ok_iff.mpr rfl, ?_⟩
  · rw [decode_eq_ok_iff, eq_comm]
  · rw [Base58Check.decode_eq_ok_iff, eq_comm]

/-- Bytes with leading zeros, and a text whose first character is outside the alphabet. -/
theorem texts_exact_leading_zeros :
    Checked.encode [0, 0, 0, 1, 2, 3] = .ok "111Ldp" ∧
      decode "111Ldp" = .ok [0, 0, 0, 1, 2, 3] ∧
      decode "0abc" = .error (.invalidCharacter '0' 58) := by
  have hencode : encode [0, 0, 0, 1, 2, 3] = "111Ldp" := by decide +kernel
  have ⟨hchecked, _, _, hdecode, _⟩ := texts_exact [0, 0, 0, 1, 2, 3] "111Ldp"
  have ⟨_, _, _, _, _, herror, _⟩ := texts_exact [] "0abc"
  refine ⟨hencode ▸ hchecked, hdecode.mpr hencode, (herror _).mpr ?_⟩
  exact ⟨[], '0', ['a', 'b', 'c'], by decide +kernel, nofun, by decide +kernel, rfl⟩

end Secp.Base58
