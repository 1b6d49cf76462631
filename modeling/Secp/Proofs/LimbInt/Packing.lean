import Mathlib.Algebra.BigOperators.Ring.Finset
import Mathlib.Algebra.Order.BigOperators.Group.Finset
import Secp.Proofs.LimbInt.Octets

/-!
# Bytes read into limbs

Packing keeps the number: the bits that wait are the low ones of what is still to be delivered. So
bytes are read as the number that they denote, in either order, and from words of 64 bits as from
their bytes. The minimal form of what is read is the bytes without the zeros in front.
-/

namespace Secp

namespace Bytes

/-- No bytes denote zero. -/
@[simp] theorem toNat_nil : toNat [] = 0 := rfl

/-- The fewest bytes of a number, at least one, denote it. -/
theorem toNat_fewest (n : Nat) : toNat (bigEndian (max 1 (Number.byteLength n)) n) = n :=
  toNat_bigEndian_of_lt (Number.byteLength_le_iff.mp (Nat.le_max_right _ _))

/-- The fewest bytes of a number begin with a zero only where they are that byte alone. -/
theorem eq_nil_of_fewest {n : Nat} {rest : Bytes}
    (h : bigEndian (max 1 (Number.byteLength n)) n = 0 :: rest) : rest = [] := by
  have hlength := length_bigEndian (max 1 (Number.byteLength n)) n
  have hvalue := toNat_fewest n
  rw [h, toNat_cons, UInt8.toNat_zero, Nat.zero_mul, Nat.zero_add] at hvalue
  have hfewer : Number.byteLength n ≤ rest.length := by
    rw [Number.byteLength_le_iff, ← hvalue]
    exact toNat_lt rest
  rw [h, List.length_cons] at hlength
  exact List.length_eq_zero_iff.mp (by omega)

/-- Without the zeros in front bytes are the fewest that denote their number. -/
theorem bigEndian_byteLength (b : Bytes) :
    bigEndian (Number.byteLength (toNat b)) (toNat b) = b.dropWhile (· = 0) := by
  induction b with
  | nil => rfl
  | cons top rest ih =>
    by_cases htop : top = 0
    · rw [htop, List.dropWhile_cons_of_pos (by rfl), ← ih, toNat_cons, UInt8.toNat_zero,
        Nat.zero_mul, Nat.zero_add]
    · have hone : 1 ≤ top.toNat := Nat.pos_of_ne_zero fun h ↦ htop (UInt8.toNat_inj.mp h)
      have hleast := (mul_pow_le_toNat_cons (b := rest)).mpr hone
      have hlength : Number.byteLength (toNat (top :: rest)) = (top :: rest).length := by
        have hmost := Number.byteLength_le_iff.mpr (toNat_lt (top :: rest))
        have hless := mt Number.byteLength_le_iff.mp (Nat.not_lt.mpr (Nat.one_mul _ ▸ hleast))
        rw [List.length_cons] at hmost ⊢
        omega
      rw [hlength, bigEndian_toNat, List.dropWhile_cons_of_neg (by simpa using htop)]

end Bytes

namespace LimbInt

/-- Packing bytes behind waiting bits keeps the number that both make up. -/
theorem toNat_pack (bytes : Bytes) {held : UInt64} {bits : Nat} (hbits : bits < Limbs.width)
    (hheld : held.toNat < 2 ^ bits) :
    Limbs.toNat (pack bytes held bits) = held.toNat + 2 ^ bits * Bytes.toNat bytes.reverse := by
  induction bytes generalizing held bits with
  | nil =>
    rw [List.reverse_nil, Bytes.toNat_nil, Nat.mul_zero, Nat.add_zero, pack]
    split
    · have hword : held.toNat < 2 ^ 32 :=
        hheld.trans (Nat.pow_lt_pow_right (by decide) (hbits.trans (by decide)))
      rw [Limbs.toNat_cons, Limbs.toNat_nil, Nat.mul_zero, Nat.add_zero, Limbs.toNat_toUInt32 hword]
    · next hnone =>
      rw [Nat.eq_zero_of_not_pos hnone, Nat.pow_zero, Nat.lt_one_iff] at hheld
      rw [hheld, Limbs.toNat_nil]
  | cons b bytes ih =>
    have hvalue := toNat_held (b := b) hbits hheld
    have hnext := held_lt (b := b) hbits hheld
    rw [pack, List.reverse_cons, Bytes.toNat_append, Bytes.toNat_singleton, List.length_singleton,
      Nat.pow_one]
    generalize held ||| (b.toUInt64 <<< UInt64.ofNat bits) = word at hvalue hnext ⊢
    have htotal : held.toNat + 2 ^ bits * (Bytes.toNat bytes.reverse * 256 + b.toNat) =
        word.toNat + 2 ^ (bits + 8) * Bytes.toNat bytes.reverse := by
      rw [hvalue, Nat.pow_add]
      ring
    split
    · next hfull =>
      -- a limb is delivered, and what is above it waits
      have hsplit : 2 ^ (bits + 8) = Limbs.base * 2 ^ (bits + 8 - Limbs.width) := by
        rw [Limbs.base, ← Nat.pow_add]
        exact congrArg (2 ^ ·) (Nat.add_sub_cancel' hfull).symm
      have hwait : bits + 8 - Limbs.width < Limbs.width := by
        unfold Limbs.width at hbits ⊢
        omega
      have hhigh : (Limbs.high word).toNat < 2 ^ (bits + 8 - Limbs.width) := by
        rw [Limbs.toNat_high]
        exact Nat.div_lt_of_lt_mul (hsplit ▸ hnext)
      rw [Limbs.toNat_cons, ih hwait hhigh, Limbs.toNat_low, Limbs.toNat_high, Nat.add_comm (_ / _),
        Limbs.mod_add_base_mul, htotal, hsplit, Nat.add_comm, Nat.mul_assoc]
    · next hroom => rw [ih (Nat.lt_of_not_le hroom) hnext, htotal]

/-- Bytes, least significant first, are read as the number that they denote in reverse. -/
theorem denotes_ofBytesLE (b : Bytes) : Denotes (ofBytesLE b) (Bytes.toNat b.reverse) := by
  refine ⟨canonical_ofBytesLE b, ?_⟩
  rw [ofBytesLE, toInt_ofParts, toNat_pack b (by decide) (by decide)]
  simp

/-- Bytes, most significant first, are read as the number that they denote. -/
theorem denotes_ofBytesBE (b : Bytes) : Denotes (ofBytesBE b) (Bytes.toNat b) := by
  have hreversed := denotes_ofBytesLE b.reverse
  rwa [List.reverse_reverse] at hreversed

/-- Words, least significant first, are read as the sum of them at their weights. -/
theorem toNat_flatMap_littleEndian (ts : List UInt64) :
    Bytes.toNat (ts.flatMap fun t ↦ Bytes.littleEndian 8 t.toNat).reverse =
      ∑ i ∈ Finset.range ts.length, (ts.getD i 0).toNat * 2 ^ (64 * i) := by
  induction ts with
  | nil => rfl
  | cons t ts ih =>
    have hword : Bytes.toNat (Bytes.littleEndian 8 t.toNat).reverse = t.toNat :=
      Bytes.toNat_bigEndian_of_lt t.toNat_lt
    have hrest (i : Nat) : ((t :: ts).getD (i + 1) 0).toNat * 2 ^ (64 * (i + 1)) =
        (ts.getD i 0).toNat * 2 ^ (64 * i) * 256 ^ 8 := by
      rw [List.getD_cons_succ, Nat.mul_succ, Nat.pow_add, Nat.mul_assoc]
      rfl
    rw [List.flatMap_cons, List.reverse_append, Bytes.toNat_append, ih, hword, List.length_reverse,
      Bytes.length_littleEndian, List.length_cons, Finset.sum_range_succ', Finset.sum_mul]
    simp only [hrest]
    exact congrArg (_ + ·) (Nat.mul_one t.toNat).symm

/-- The minimal form, most significant byte first, is the number in its length in bytes, which is
one for zero. -/
theorem toBytesBE_eq {a : LimbInt} (h : a.limbs.Canonical) :
    a.toBytesBE = Bytes.bigEndian (max 1 (Number.byteLength a.limbs.toNat)) a.limbs.toNat := by
  rw [toBytesBE, toBytesLE_eq h, Nat.max_comm, Bytes.bigEndian]

/-- The minimal form has the length in bytes, which is one for zero. -/
theorem length_toBytesBE {a : LimbInt} (h : a.limbs.Canonical) :
    a.toBytesBE.length = max 1 a.byteLength := by
  rw [toBytesBE_eq h, Bytes.length_bigEndian, byteLength, h.byteLength_eq]

/-- The minimal form denotes the magnitude. -/
theorem toNat_toBytesBE {a : LimbInt} (h : a.limbs.Canonical) :
    Bytes.toNat a.toBytesBE = a.limbs.toNat := by
  rw [toBytesBE_eq h, Bytes.toNat_fewest]

/-- The minimal form of what bytes are read as is the bytes without the zeros in front, and one of
them for zero. -/
theorem toBytesBE_ofBytesBE (b : Bytes) :
    (ofBytesBE b).toBytesBE = if Bytes.toNat b = 0 then [0] else b.dropWhile (· = 0) := by
  have hread := denotes_ofBytesBE b
  rw [toBytesBE_eq hread.canonical.1, hread.toNat_limbs, Int.natAbs_natCast]
  split
  · next hzero =>
    rw [hzero]
    rfl
  · next hne =>
    have hpos : 1 ≤ Number.byteLength (Bytes.toNat b) := by
      rw [Nat.one_le_iff_ne_zero]
      intro hnone
      have hlt := Number.lt_pow_byteLength (Bytes.toNat b)
      rw [hnone] at hlt
      omega
    rw [Nat.max_eq_right hpos, Bytes.bigEndian_byteLength]

/-- A magnitude has a form in an exact width when the width is no less than its length in bytes. -/
theorem exists_toBytesPadded_iff {a : LimbInt} (h : a.limbs.Canonical) {length : Nat} :
    (∃ b, a.toBytesPadded length = .ok b) ↔ a.byteLength ≤ length := by
  rw [byteLength, h.byteLength_eq, Number.byteLength_le_iff]
  constructor
  · rintro ⟨b, hb⟩
    obtain ⟨rfl, hvalue⟩ := (toBytesPadded_eq_ok_iff h).mp hb
    rw [← hvalue]
    exact Bytes.toNat_lt b
  · intro hlt
    exact ⟨_, toBytesPadded_eq h hlt⟩

/-- Byte forms are exact. Bytes are read as the number that they denote, in either order, and the
minimal form of what is read is the bytes without the zeros in front, or one zero for zero. The
minimal form of an integer is read as its magnitude, and has the length in bytes, or one byte for
zero. There is a form in a width exactly if the width is no less than the length in bytes, which is
so if the power of 256 that the width names is above the magnitude, and it is the bytes of that
width that denote the magnitude. Words of 64 bits are read as the sum of them at their weights. -/
theorem byte_forms_exact :
    (∀ b : Bytes, ofBytesBE b = ofInt (Bytes.toNat b) ∧
      ofBytesLE b.reverse = ofInt (Bytes.toNat b) ∧
      (ofBytesBE b).toBytesBE = if Bytes.toNat b = 0 then [0] else b.dropWhile (· = 0)) ∧
    (∀ x : Int, ofBytesBE (ofInt x).toBytesBE = ofInt |x| ∧
      (ofInt x).toBytesBE.length = max 1 (ofInt x).byteLength ∧
      ∀ length : Nat,
        ((ofInt x).byteLength ≤ length ↔ x.natAbs < 256 ^ length) ∧
        ((∃ b, (ofInt x).toBytesPadded length = .ok b) ↔ (ofInt x).byteLength ≤ length) ∧
        ∀ b, (ofInt x).toBytesPadded length = .ok b ↔
          b.length = length ∧ Bytes.toNat b = x.natAbs) ∧
    ∀ ts : List UInt64, ofWords ts = ofInt
      (∑ i ∈ Finset.range ts.length, (ts.getD i 0).toNat * 2 ^ (64 * i) : Nat) := by
  refine ⟨fun b ↦ ?_, fun x ↦ ?_, fun ts ↦ ?_⟩
  · have hread := (denotes_ofBytesBE b).eq_ofInt
    exact ⟨hread, hread, toBytesBE_ofBytesBE b⟩
  · have hx := denotes_ofInt x
    have hlimbs := hx.canonical.1
    have hread := denotes_ofBytesBE (ofInt x).toBytesBE
    rw [toNat_toBytesBE hlimbs, hx.toNat_limbs, ← Int.abs_eq_natAbs] at hread
    refine ⟨hread.eq_ofInt, length_toBytesBE hlimbs,
      fun length ↦ ⟨?_, exists_toBytesPadded_iff hlimbs, fun b ↦ ?_⟩⟩
    · rw [byteLength, hlimbs.byteLength_eq, hx.toNat_limbs, Number.byteLength_le_iff]
    · rw [toBytesPadded_eq_ok_iff hlimbs, hx.toNat_limbs]
  · have hwords := denotes_ofBytesLE (ts.flatMap fun t ↦ Bytes.littleEndian 8 t.toNat)
    rw [toNat_flatMap_littleEndian] at hwords
    exact hwords.eq_ofInt

end LimbInt

end Secp
