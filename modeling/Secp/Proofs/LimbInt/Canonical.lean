import Secp.LimbInt.Armour
import Secp.LimbInt.Bits
import Secp.LimbInt.Radix
import Secp.LimbInt.ScriptNumber
import Secp.Proofs.LimbInt.Arithmetic
import Secp.Proofs.Limbs.Shift

/-!
# Bit operations and readers give canonical integers

Shifts and bit operations make limbs of limbs, and bring them into canonical form where they do not
keep it. Packing bytes cuts one limb off whenever there are enough bits, so that fewer
than a limb's wait, and the digits of a chunk enter through a product and a sum.
-/

namespace Secp.LimbInt

variable {a b : LimbInt}

/-- A power of two is canonical. -/
theorem canonical_twoPow (bit : Nat) : (twoPow bit).Canonical :=
  canonical_ofParts _ (Limbs.bounded_twoPow bit)

/-- A left shift is canonical, and so is the left shift of the magnitude. -/
theorem Canonical.shl (ha : a.Canonical) (negative : Bool) (bits : Nat) :
    (ofParts negative (a.limbs.shl bits)).Canonical :=
  canonical_ofParts _ (Limbs.bounded_shl ha.1.1 bits)

/-- The right shift of the magnitude is canonical. -/
theorem Canonical.ushr (ha : a.Canonical) (bits : Nat) : (a.ushr bits).Canonical :=
  canonical_ofParts _ (Limbs.canonical_shr ha.1 bits).1

/-- A right shift is canonical. -/
theorem Canonical.shr (ha : a.Canonical) (bits : Nat) : (a.shr bits).Canonical := by
  unfold LimbInt.shr
  split
  · have hlower := Limbs.canonical_subWord ha.1.1 1
    exact canonical_ofParts _ (Limbs.bounded_addWord (Limbs.canonical_shr hlower bits).1 1)
  · exact ha.ushr bits

/-- What is left of the magnitude keeps the sign only where something is left. -/
theorem Canonical.dropBits (ha : a.Canonical) (bits : Nat) : (a.dropBits bits).Canonical := by
  refine ⟨Limbs.canonical_shr ha.1 bits, fun hnil ↦ ?_⟩
  exact if_pos (List.isEmpty_iff.mpr hnil)

/-- An integer with a bit of its magnitude set or cleared is canonical. -/
theorem Canonical.setBit (ha : a.Canonical) (bit : Nat) (value : Bool) :
    (a.setBit bit value).Canonical := by
  refine canonical_ofParts _ ?_
  split
  · exact Limbs.bounded_setBit ha.1.1 bit
  · exact Limbs.bounded_clearBit ha.1.1 bit

/-- The low bits are canonical. -/
theorem Canonical.lowBits (ha : a.Canonical) (bits : Nat) : (a.lowBits bits).Canonical :=
  canonical_ofParts _ (Limbs.bounded_lowBits ha.1.1 bits)

/-- The flipped low bits are canonical. -/
theorem Canonical.complement (ha : a.Canonical) (bits : Nat) : (a.complement bits).Canonical := by
  have hones := Limbs.canonical_subWord (Limbs.bounded_twoPow bits) 1
  exact canonical_ofParts _ (Limbs.bounded_bitwise (fun _ _ ↦ Limbs.xor_lt)
    (Limbs.bounded_lowBits ha.1.1 bits) hones.1)

/-- Sums of canonical integers are canonical. -/
theorem Canonical.add (ha : a.Canonical) (hb : b.Canonical) : (a.add b).Canonical :=
  (ha.denotes.add hb.denotes).canonical

/-- Differences of canonical integers are canonical. -/
theorem Canonical.sub (ha : a.Canonical) (hb : b.Canonical) : (a.sub b).Canonical :=
  (ha.denotes.sub hb.denotes).canonical

/-- Two's complement is canonical. -/
theorem Canonical.toTwos (ha : a.Canonical) (bits : Nat) : (a.toTwos bits).Canonical := by
  unfold LimbInt.toTwos
  split
  · exact (canonical_twoPow bits).sub ha.denotes.abs.canonical
  · exact ha

/-- An integer read from two's complement is canonical. -/
theorem Canonical.ofTwos (ha : a.Canonical) (bits : Nat) : (a.ofTwos bits).Canonical := by
  unfold LimbInt.ofTwos
  split
  · exact (ha.lowBits bits).sub (canonical_twoPow bits)
  · exact ha

/-- Integers combined bit by bit are canonical when the operation makes limbs of limbs. -/
theorem Canonical.bitwise {op : UInt32 → UInt32 → UInt32}
    (hop : ∀ x y : UInt32, x.toNat < Limbs.base → y.toNat < Limbs.base →
      (op x y).toNat < Limbs.base)
    (ha : a.Canonical) (hb : b.Canonical) : (LimbInt.bitwise op a b).Canonical := by
  unfold LimbInt.bitwise
  split
  · exact canonical_ofParts _ (Limbs.bounded_bitwise hop ha.1.1 hb.1.1)
  · refine Canonical.ofTwos (Canonical.lowBits (canonical_ofParts _ ?_) _) _
    exact Limbs.bounded_bitwise hop (ha.toTwos _).1.1 (hb.toTwos _).1.1

/-- A byte behind waiting bits. -/
theorem toNat_held {b : UInt8} {held : UInt64} {bits : Nat} (hbits : bits < Limbs.width)
    (hheld : held.toNat < 2 ^ bits) :
    (held ||| (b.toUInt64 <<< UInt64.ofNat bits)).toNat = b.toNat * 2 ^ bits + held.toNat := by
  have hb := b.toNat_lt
  unfold Limbs.width at hbits
  have hscaled : b.toNat * 2 ^ bits < 2 ^ 64 := by
    calc b.toNat * 2 ^ bits ≤ 2 ^ 8 * 2 ^ 26 :=
          Nat.mul_le_mul hb.le (Nat.pow_le_pow_right (by decide) hbits.le)
      _ < 2 ^ 64 := by decide
  rw [Limbs.toNat_or_shiftLeft (by omega) hheld (by rwa [UInt8.toNat_toUInt64]),
    UInt8.toNat_toUInt64]

/-- Waiting bits with a byte in front of them are eight more. -/
theorem held_lt {b : UInt8} {held : UInt64} {bits : Nat} (hbits : bits < Limbs.width)
    (hheld : held.toNat < 2 ^ bits) :
    (held ||| (b.toUInt64 <<< UInt64.ofNat bits)).toNat < 2 ^ (bits + 8) := by
  rw [toNat_held hbits hheld]
  calc b.toNat * 2 ^ bits + held.toNat < (b.toNat + 1) * 2 ^ bits := by
        rw [Nat.succ_mul]
        exact Nat.add_lt_add_left hheld _
    _ ≤ 2 ^ 8 * 2 ^ bits := Nat.mul_le_mul_right _ b.toNat_lt
    _ = 2 ^ (bits + 8) := by rw [← Nat.pow_add, Nat.add_comm]

/-- Packing bytes makes limbs, behind fewer waiting bits than a limb has. -/
theorem bounded_pack (bytes : Bytes) {held : UInt64} {bits : Nat} (hbits : bits < Limbs.width)
    (hheld : held.toNat < 2 ^ bits) : (pack bytes held bits).Bounded := by
  induction bytes generalizing held bits with
  | nil =>
    unfold pack
    split
    · have hlimb : held.toNat < Limbs.base :=
        hheld.trans (Nat.pow_lt_pow_right (by decide) hbits)
      refine Limbs.bounded_cons.mpr ⟨?_, Limbs.bounded_nil⟩
      rwa [Limbs.toNat_toUInt32 (hlimb.trans (by decide))]
    · exact Limbs.bounded_nil
  | cons b bytes ih =>
    have hnext := held_lt (b := b) hbits hheld
    rw [pack]
    split
    · next hfull =>
      unfold Limbs.width at hbits hfull
      refine Limbs.bounded_cons.mpr ⟨Limbs.low_lt _, ih (by unfold Limbs.width; omega) ?_⟩
      rw [Limbs.toNat_high]
      refine Nat.div_lt_of_lt_mul ?_
      rwa [Limbs.base, ← Nat.pow_add, show 26 + (bits + 8 - Limbs.width) = bits + 8 by
        unfold Limbs.width
        omega]
    · next hroom => exact ih (Nat.lt_of_not_le hroom) hnext

/-- The magnitude of bytes, least significant first, is canonical. -/
theorem canonical_ofBytesLE (bytes : Bytes) : (ofBytesLE bytes).Canonical :=
  canonical_ofParts _ (bounded_pack bytes (by decide) (by decide))

/-- The magnitude of bytes, most significant first, is canonical. -/
theorem canonical_ofBytesBE (bytes : Bytes) : (ofBytesBE bytes).Canonical :=
  canonical_ofParts _ (bounded_pack bytes.reverse (by decide) (by decide))

/-- A signed byte string denotes a canonical integer. -/
theorem canonical_ofSigned (bytes : Bytes) (e : Endian) : (ofSigned bytes e).Canonical := by
  unfold ofSigned
  split
  · exact denotes_zero.canonical
  · next top rest _ =>
    dsimp only
    split
    · exact (canonical_ofBytesBE _).denotes.neg.canonical
    · exact canonical_ofBytesBE _

/-- A script number denotes a canonical integer. -/
theorem canonical_of_ofScript {bytes : Bytes} {requireMinimal : Bool} {limit : Option Nat}
    (h : ofScript bytes requireMinimal limit = .ok a) : a.Canonical := by
  unfold ofScript at h
  split at h
  · exact nomatch h
  · split at h
    · exact nomatch h
    · cases h
      exact canonical_ofSigned bytes .little

/-- Bytes read from a text denote a canonical integer. -/
theorem canonical_of_map_ofBytesBE {bytes : Except Error Bytes}
    (h : bytes.map ofBytesBE = .ok a) : a.Canonical := by
  cases bytes with
  | error e => exact nomatch h
  | ok bytes =>
    cases h
    exact canonical_ofBytesBE bytes

/-- The magnitude of digits has limbs only. -/
theorem bounded_ofDigits (radix : Nat) (ds : List Nat) : (ofDigits radix ds).Bounded := by
  exact List.foldlRecOn (leadingPieces (chunk radix).1 ds) _ Limbs.bounded_nil
    fun limbs _ piece _ ↦ Limbs.bounded_addWord (Limbs.bounded_mulWord limbs _) _

/-- Digits read from a text denote a canonical integer. -/
theorem canonical_of_ofText {s : String} {radix : Nat} (h : ofText s radix = .ok a) :
    a.Canonical := by
  unfold ofText at h
  split at h
  · split at h
    next negative chars _ =>
    split at h
    · exact nomatch h
    · cases hdigits : chars.mapM (readDigit radix) with
      | error e => rw [hdigits] at h; exact nomatch h
      | ok ds =>
        rw [hdigits] at h
        cases h
        exact canonical_ofParts negative (bounded_ofDigits radix ds)
  · exact nomatch h

end Secp.LimbInt
