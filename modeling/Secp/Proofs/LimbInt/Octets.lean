import Secp.LimbInt.Octets
import Secp.Proofs.Bytes
import Secp.Proofs.LimbInt.Canonical

/-!
# Bytes written from limbs

The limbs of a magnitude, shifted out eight bits at a time, give the bytes of the number that they
denote, least significant first. The lengths in bits and bytes are those of the number, so the
minimal form has no leading zero byte, and the form in an exact width is the number in that width.
-/

namespace Secp

namespace Bytes

/-- The bytes of a number above its low ones are those of the quotient. -/
theorem littleEndian_add (width more n : Nat) :
    littleEndian (width + more) n =
      littleEndian width n ++ littleEndian more (n / 256 ^ width) := by
  induction width generalizing n with
  | zero => rw [Nat.zero_add, Nat.pow_zero, Nat.div_one, littleEndian, List.nil_append]
  | succ width ih =>
    rw [Nat.succ_add, littleEndian, ih, littleEndian, Nat.div_div_eq_div_mul, ← Nat.pow_succ',
      List.cons_append]

/-- Zero is written by zero bytes. -/
theorem littleEndian_zero (width : Nat) : littleEndian width 0 = List.replicate width 0 := by
  induction width with
  | zero => rfl
  | succ width ih => rw [littleEndian, Nat.zero_div, ih, List.replicate_succ]; rfl

/-- Only the remainder by the power of a width is written in that width. -/
theorem littleEndian_congr {width m n : Nat} (h : m % 256 ^ width = n % 256 ^ width) :
    littleEndian width m = littleEndian width n := by
  have hmod (k : Nat) : bigEndian width k = bigEndian width (k % 256 ^ width) := by
    rw [← toNat_inj (by rw [length_bigEndian, length_bigEndian]), toNat_bigEndian, toNat_bigEndian,
      Nat.mod_mod]
  have hreverse : bigEndian width m = bigEndian width n := by rw [hmod m, h, ← hmod n]
  exact List.reverse_injective hreverse

/-- The low bytes of a number in some width are its bytes in a narrower one. -/
theorem take_littleEndian {width less : Nat} (h : less ≤ width) (n : Nat) :
    (littleEndian width n).take less = littleEndian less n := by
  obtain ⟨more, rfl⟩ := Nat.exists_eq_add_of_le h
  rw [littleEndian_add]
  exact List.take_left' (length_littleEndian less n)

/-- A number that a width holds has zero bytes above. -/
theorem littleEndian_add_of_lt {width n : Nat} (h : n < 256 ^ width) (more : Nat) :
    littleEndian (width + more) n = littleEndian width n ++ List.replicate more 0 := by
  rw [littleEndian_add, Nat.div_eq_of_lt h, littleEndian_zero]

end Bytes

namespace Number

/-- A number with low bits below another has as many bits more as there are low bits. -/
theorem bitLength_add_two_pow_mul {low width n : Nat} (hlow : low < 2 ^ width) (hn : n ≠ 0) :
    bitLength (low + 2 ^ width * n) = width + bitLength n := by
  have hpos : 0 < 2 ^ width := Nat.two_pow_pos width
  have hne : low + 2 ^ width * n ≠ 0 := by
    have := Nat.mul_pos hpos (Nat.pos_of_ne_zero hn)
    omega
  have hlog : (low + 2 ^ width * n).log2 = width + n.log2 := by
    rw [Nat.log2_eq_iff hne]
    constructor
    · calc 2 ^ (width + n.log2) = 2 ^ width * 2 ^ n.log2 := Nat.pow_add 2 width n.log2
        _ ≤ 2 ^ width * n := Nat.mul_le_mul_left _ (Nat.log2_self_le hn)
        _ ≤ low + 2 ^ width * n := Nat.le_add_left _ _
    · calc low + 2 ^ width * n < 2 ^ width * (n + 1) := by rw [Nat.mul_succ]; omega
        _ ≤ 2 ^ width * 2 ^ (n.log2 + 1) := Nat.mul_le_mul_left _ Nat.lt_log2_self
        _ = 2 ^ (width + n.log2 + 1) := by rw [← Nat.pow_add, Nat.add_assoc]
  rw [bitLength, bitLength, if_neg hne, if_neg hn, hlog, Nat.add_assoc]

/-- A number is below the power of 256 that its length in bytes names. -/
theorem lt_pow_byteLength (n : Nat) : n < 256 ^ byteLength n := by
  calc n < 2 ^ bitLength n := lt_two_pow_bitLength n
    _ ≤ 2 ^ (8 * byteLength n) :=
      Nat.pow_le_pow_right (by decide) (by unfold byteLength; omega)
    _ = 256 ^ byteLength n := Nat.pow_mul 2 8 (byteLength n)

/-- The length in bytes is the least width that holds a number. -/
theorem byteLength_le_iff {n width : Nat} : byteLength n ≤ width ↔ n < 256 ^ width := by
  constructor
  · intro h
    exact (lt_pow_byteLength n).trans_le (Nat.pow_le_pow_right (by decide) h)
  · intro h
    have hbits : ¬ 8 * width < bitLength n := by
      rw [lt_bitLength_iff, Nat.not_le, Nat.pow_mul]
      exact h
    unfold byteLength
    omega

end Number

namespace Limbs

/-- The length in bits of a canonical magnitude is that of the number. -/
theorem Canonical.bitLength_eq {ws : Limbs} (h : Canonical ws) :
    bitLength ws = Number.bitLength (toNat ws) := by
  induction ws using bitLength.induct with
  | case1 => rfl
  | case2 w => rw [bitLength, toNat_cons, toNat_nil, Nat.mul_zero, Nat.add_zero]
  | case3 v w ws ih =>
    have hrest := h.of_cons
    have hne : toNat (w :: ws) ≠ 0 := hrest.2.toNat_ne_zero (List.cons_ne_nil w ws)
    have hv : v.toNat < 2 ^ width := (bounded_cons.mp h.1).1
    rw [bitLength, ih hrest, toNat_cons v]
    exact (Number.bitLength_add_two_pow_mul hv hne).symm

/-- The length in bytes of a canonical magnitude is that of the number. -/
theorem Canonical.byteLength_eq {ws : Limbs} (h : Canonical ws) :
    byteLength ws = Number.byteLength (toNat ws) := by
  rw [byteLength, h.bitLength_eq, Number.byteLength]

end Limbs

namespace LimbInt

/-- The low bytes of a word are those of its number. -/
theorem lowBytes_eq (count : Nat) (t : UInt64) :
    lowBytes count t = Bytes.littleEndian count t.toNat := by
  induction count generalizing t with
  | zero => rfl
  | succ count ih =>
    have hrest : (t >>> 8).toNat = t.toNat / 256 := by
      rw [UInt64.toNat_shiftRight]
      exact Nat.shiftRight_eq_div_pow t.toNat 8
    rw [lowBytes, ih, hrest, Bytes.littleEndian, UInt8.ofNat_uInt64ToNat]

/-- A limb above fewer than eight waiting bits. -/
theorem toNat_held_limb {w : UInt32} {held : UInt64} {bits : Nat} (hw : w.toNat < Limbs.base)
    (hbits : bits < 8) (hheld : held.toNat < 2 ^ bits) :
    (held ||| (w.toUInt64 <<< UInt64.ofNat bits)).toNat = held.toNat + 2 ^ bits * w.toNat := by
  have hscaled : w.toNat * 2 ^ bits < 2 ^ 64 := by
    calc w.toNat * 2 ^ bits ≤ 2 ^ 26 * 2 ^ 8 :=
          Nat.mul_le_mul hw.le (Nat.pow_le_pow_right (by decide) hbits.le)
      _ < 2 ^ 64 := by decide
  rw [Limbs.toNat_or_shiftLeft (by omega) hheld (by rwa [UInt32.toNat_toUInt64]),
    UInt32.toNat_toUInt64, Nat.add_comm, Nat.mul_comm]

/-- Limbs behind waiting bits give the bytes of the number that both make up. -/
theorem unpack_eq {ws : Limbs} (hws : ws.Bounded) {held : UInt64} {bits : Nat} (hbits : bits < 8)
    (hheld : held.toNat < 2 ^ bits) :
    unpack ws held bits =
      Bytes.littleEndian ((bits + Limbs.width * ws.length + 7) / 8)
        (held.toNat + 2 ^ bits * Limbs.toNat ws) := by
  induction ws generalizing held bits with
  | nil =>
    rw [unpack, List.length_nil, Nat.mul_zero, Nat.add_zero, Limbs.toNat_nil, Nat.mul_zero,
      Nat.add_zero]
    split
    · next hwaiting =>
      rw [show (bits + 7) / 8 = 1 by omega, ← UInt8.ofNat_uInt64ToNat]
      rfl
    · next hempty =>
      rw [show (bits + 7) / 8 = 0 by omega]
      rfl
  | cons w ws ih =>
    obtain ⟨hw, hws⟩ := Limbs.bounded_cons.mp hws
    have hvalue := toNat_held_limb hw hbits hheld
    rw [unpack]
    generalize held ||| (w.toUInt64 <<< UInt64.ofNat bits) = word at hvalue ⊢
    -- Of the waiting bits and the limb, whole bytes are delivered, and the others wait.
    have hsplit : bits + Limbs.width = 8 * ((bits + Limbs.width) / 8) + (bits + Limbs.width) % 8 :=
      (Nat.div_add_mod _ _).symm
    have hless : (bits + Limbs.width) % 8 < 8 := Nat.mod_lt _ (by decide)
    generalize (bits + Limbs.width) / 8 = whole at hsplit ⊢
    generalize (bits + Limbs.width) % 8 = waiting at hsplit hless ⊢
    have hpow : 2 ^ bits * Limbs.base = 256 ^ whole * 2 ^ waiting := by
      have hbase : Limbs.base = 2 ^ Limbs.width := rfl
      rw [hbase, ← Nat.pow_add, hsplit, Nat.pow_add, Nat.pow_mul]
    have hword : word.toNat < 256 ^ whole * 2 ^ waiting := by
      calc word.toNat < 2 ^ bits * (w.toNat + 1) := by rw [hvalue, Nat.mul_succ]; omega
        _ ≤ 2 ^ bits * Limbs.base := Nat.mul_le_mul_left _ hw
        _ = 256 ^ whole * 2 ^ waiting := hpow
    have hrest : (word >>> UInt64.ofNat (8 * whole)).toNat = word.toNat / 256 ^ whole := by
      have hcount : 8 * whole < 64 := by
        unfold Limbs.width at hsplit
        omega
      rw [UInt64.toNat_shiftRight, UInt64.toNat_ofNat_of_lt' (Nat.lt_trans hcount (by decide)),
        Nat.mod_eq_of_lt hcount, Nat.shiftRight_eq_div_pow, Nat.pow_mul]
    have htotal : held.toNat + 2 ^ bits * (w.toNat + Limbs.base * Limbs.toNat ws) =
        word.toNat + 256 ^ whole * (2 ^ waiting * Limbs.toNat ws) := by
      rw [hvalue, Nat.mul_add, ← Nat.mul_assoc, hpow, Nat.mul_assoc, Nat.add_assoc]
    have hcount : (bits + Limbs.width * (w :: ws).length + 7) / 8 =
        whole + (waiting + Limbs.width * ws.length + 7) / 8 := by
      rw [List.length_cons, Nat.mul_succ]
      omega
    have hpos : 0 < 256 ^ whole := Nat.pow_pos (by decide)
    have hhigh : (word >>> UInt64.ofNat (8 * whole)).toNat < 2 ^ waiting := by
      rw [hrest]
      exact Nat.div_lt_of_lt_mul hword
    rw [lowBytes_eq, ih hws hless hhigh, hrest, Limbs.toNat_cons, htotal, hcount,
      Bytes.littleEndian_add, Nat.add_mul_div_left _ _ hpos]
    congr 1
    apply Bytes.littleEndian_congr
    rw [Nat.add_mul_mod_self_left]

/-- The minimal form, least significant byte first, is the number in its length in bytes, which is
one for zero. -/
theorem toBytesLE_eq {a : LimbInt} (h : a.limbs.Canonical) :
    a.toBytesLE = Bytes.littleEndian (max (Number.byteLength a.limbs.toNat) 1) a.limbs.toNat := by
  unfold toBytesLE byteLength
  rw [unpack_eq h.1 (by decide) (by decide), h.byteLength_eq]
  generalize hfull : (0 + Limbs.width * a.limbs.length + 7) / 8 = full
  have hlt : a.limbs.toNat < 256 ^ full := by
    calc a.limbs.toNat < Limbs.base ^ a.limbs.length := h.1.toNat_lt
      _ = 2 ^ (Limbs.width * a.limbs.length) := (Nat.pow_mul 2 _ _).symm
      _ ≤ 2 ^ (8 * full) := Nat.pow_le_pow_right (by decide) (by omega)
      _ = 256 ^ full := Nat.pow_mul 2 8 full
  have hvalue : (0 : UInt64).toNat + 2 ^ 0 * a.limbs.toNat = a.limbs.toNat := by
    rw [Nat.pow_zero, Nat.one_mul]
    exact Nat.zero_add _
  rw [hvalue]
  dsimp only
  generalize max (Number.byteLength a.limbs.toNat) 1 = length
  rw [Bytes.length_littleEndian]
  rcases Nat.le_total length full with hle | hle
  · rw [Bytes.take_littleEndian hle, Nat.sub_eq_zero_of_le hle, List.replicate_zero,
      List.append_nil]
  · obtain ⟨more, rfl⟩ := Nat.exists_eq_add_of_le hle
    rw [Bytes.littleEndian_add_of_lt hlt, Nat.add_sub_cancel_left,
      List.take_of_length_le (by rw [Bytes.length_littleEndian]; exact hle)]

/-- The form in an exact width is the number in that width, if that holds it. -/
theorem toBytesPadded_eq {a : LimbInt} (h : a.limbs.Canonical) {length : Nat}
    (hlength : a.limbs.toNat < 256 ^ length) :
    a.toBytesPadded length = .ok (Bytes.bigEndian length a.limbs.toNat) := by
  have hfits : Number.byteLength a.limbs.toNat ≤ length := Number.byteLength_le_iff.mpr hlength
  have hshort : ¬ length < a.byteLength := by
    rw [byteLength, h.byteLength_eq]
    exact Nat.not_lt.mpr hfits
  unfold toBytesPadded
  rw [if_neg hshort, toBytesBE, toBytesLE_eq h]
  dsimp only
  rw [List.length_reverse, Bytes.length_littleEndian]
  rcases Nat.eq_zero_or_pos length with rfl | hpos
  · -- Only zero has no bytes, and its one byte is left out.
    rw [Nat.le_zero.mp hfits]
    rfl
  · have hleast : max (Number.byteLength a.limbs.toNat) 1 ≤ length := Nat.max_le.mpr ⟨hfits, hpos⟩
    have hlt : a.limbs.toNat < 256 ^ max (Number.byteLength a.limbs.toNat) 1 :=
      Number.byteLength_le_iff.mp (Nat.le_max_left _ _)
    generalize max (Number.byteLength a.limbs.toNat) 1 = least at hleast hlt ⊢
    obtain ⟨more, rfl⟩ := Nat.exists_eq_add_of_le hleast
    rw [Nat.sub_eq_zero_of_le hleast, List.drop_zero, List.length_reverse,
      Bytes.length_littleEndian, Nat.add_sub_cancel_left, Bytes.bigEndian,
      Bytes.littleEndian_add_of_lt hlt, List.reverse_append, List.reverse_replicate]

/-- The form in an exact width is the bytes of that width that denote the magnitude, if there are
any. -/
theorem toBytesPadded_eq_ok_iff {a : LimbInt} (h : a.limbs.Canonical) {length : Nat} {b : Bytes} :
    a.toBytesPadded length = .ok b ↔ b.length = length ∧ Bytes.toNat b = a.limbs.toNat := by
  by_cases hlength : a.limbs.toNat < 256 ^ length
  · rw [toBytesPadded_eq h hlength, Except.ok.injEq, eq_comm]
    constructor
    · rintro rfl
      exact ⟨Bytes.length_bigEndian _ _, Bytes.toNat_bigEndian_of_lt hlength⟩
    · rintro ⟨hwidth, hvalue⟩
      exact (Bytes.eq_bigEndian_iff hwidth hlength).mpr hvalue
  · have hshort : length < a.byteLength := by
      rw [byteLength, h.byteLength_eq]
      exact Nat.lt_of_not_le (Number.byteLength_le_iff.not.mpr hlength)
    rw [toBytesPadded, if_pos hshort]
    refine ⟨nofun, ?_⟩
    rintro ⟨rfl, hvalue⟩
    exact absurd (hvalue ▸ Bytes.toNat_lt b) hlength

end LimbInt

end Secp
