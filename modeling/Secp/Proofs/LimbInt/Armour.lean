import Secp.LimbInt.Armour
import Secp.Proofs.LimbInt.Packing
import Secp.Proofs.Text.Base58
import Secp.Proofs.Text.Base64Groups

/-!
# Integers in base 58 and base 64 are read back

The minimal bytes of an integer are read as its magnitude, and both codes give bytes back. So an
integer that is written in one of them is read without its sign. Zero is no exception, since its
minimal form is one zero byte and not none.
-/

namespace Secp.LimbInt

variable {a : LimbInt} {x : Int}

/-- The minimal form of an integer is read as its magnitude. -/
theorem Denotes.ofBytesBE_toBytesBE (ha : Denotes a x) : ofBytesBE a.toBytesBE = ofInt |x| := by
  have hread := denotes_ofBytesBE a.toBytesBE
  rw [toNat_toBytesBE ha.canonical.1, ha.toNat_limbs, ← Int.abs_eq_natAbs] at hread
  exact hread.eq_ofInt

/-- The base-58 text of an integer is read as its magnitude. -/
theorem Denotes.ofBase58_toBase58 (ha : Denotes a x) : ofBase58 a.toBase58 = .ok (ofInt |x|) := by
  have hdecode : Base58.decode a.toBase58 = .ok a.toBytesBE := Base58.decode_eq_ok_iff.mpr rfl
  rw [ofBase58, hdecode, ← ha.ofBytesBE_toBytesBE]
  rfl

/-- The base-64 text of an integer is read as its magnitude. -/
theorem Denotes.ofBase64_toBase64 (ha : Denotes a x) : ofBase64 a.toBase64 = .ok (ofInt |x|) := by
  have hdecode : Base64.decode a.toBase64 = .ok a.toBytesBE := Base64.decode_encode a.toBytesBE
  rw [ofBase64, hdecode, ← ha.ofBytesBE_toBytesBE]
  rfl

end Secp.LimbInt

namespace Secp.Base64

open LimbInt (ofInt ofBase64)

/-- What is written in base 64 is read back. Bytes are written with digits of the alphabet and the
`=` that complete the last group, and their text is read as these bytes, also when every `=` is
taken out of it. An integer is read back as its absolute value. -/
theorem texts_read_back :
    (∀ data : Bytes,
      (∃ digits, SpelledBy (encode data) digits ((4 - digits.length % 4) % 4)) ∧
      decode (encode data) = .ok data ∧
      decode (String.ofList ((encode data).toList.filter (· ≠ '='))) = .ok data) ∧
    ∀ x : Int, ofBase64 (ofInt x).toBase64 = .ok (ofInt |x|) := by
  constructor
  · intro data
    obtain ⟨digits, hdigits, htext⟩ := exists_writes_encode data
    exact ⟨⟨digits, hdigits.mem_alphabet, htext⟩, decode_encode data, decode_filter_encode data⟩
  · intro x
    exact (LimbInt.denotes_ofInt x).ofBase64_toBase64

end Secp.Base64
