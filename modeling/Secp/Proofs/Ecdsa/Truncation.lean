import Secp.Key.Public
import Secp.Proofs.Ecdsa.Seed
import Secp.Proofs.LimbInt.Packing

/-!
# Where digests are cut

A digest that is longer than the order is cut to its leftmost bits. The cut counts the bytes of the
number that the digest denotes, which has none for the zeros in front. So what is kept are the
leftmost bits of the digest without these zeros: its own leftmost bits exactly when it is not longer
than the order, has no zero byte in front, or denotes zero. Such digests with the same first bytes
are signed and verified alike, and the others need not be.
-/

namespace Secp

namespace Bytes

/-- Zeros in front do not count in the length of the number. -/
theorem byteLength_toNat (b : Bytes) :
    Number.byteLength (toNat b) = (b.dropWhile (· = 0)).length := by
  rw [← bigEndian_byteLength, length_bigEndian]

/-- Zeros in front do not count in the number. -/
theorem toNat_dropWhile_zero (b : Bytes) : toNat (b.dropWhile (· = 0)) = toNat b := by
  rw [← bigEndian_byteLength, toNat_bigEndian_of_lt (Number.lt_pow_byteLength _)]

/-- The first bytes are what a division by the weight of the others leaves. -/
theorem toNat_take (b : Bytes) (n : Nat) : toNat (b.take n) = toNat b / 256 ^ (b.length - n) := by
  have hsplit : toNat b = toNat (b.drop n) + toNat (b.take n) * 256 ^ (b.drop n).length := by
    rw [Nat.add_comm, ← toNat_append, List.take_append_drop]
  rw [hsplit, ← List.length_drop, Nat.add_mul_div_right _ _ (Nat.pow_pos (by decide)),
    Nat.div_eq_of_lt (toNat_lt (b.drop n)), Nat.zero_add]

end Bytes

namespace Ecdsa

open Curve (order)

/-- The leftmost bits of a digest, as many as the order has, where every byte of it counts. -/
def leftmostBits (digest : Bytes) : Nat :=
  Bytes.toNat digest / 2 ^ (8 * digest.length - Number.bitLength order)

/-- Whether a digest is cut at its own left end: it is not longer than the order, or has no zero
byte in front, or denotes zero. -/
def CutAtLeft (digest : Bytes) : Prop :=
  digest.length ≤ 32 ∨ digest.head? ≠ some 0 ∨ Bytes.toNat digest = 0

instance (digest : Bytes) : Decidable (CutAtLeft digest) :=
  inferInstanceAs (Decidable (_ ∨ _ ∨ _))

/-- The leftmost bits are the first 32 bytes. -/
theorem leftmostBits_eq_take (digest : Bytes) :
    leftmostBits digest = Bytes.toNat (digest.take 32) := by
  have hpow : 2 ^ (8 * (digest.length - 32)) = 256 ^ (digest.length - 32) := Nat.pow_mul 2 8 _
  rw [leftmostBits, bitLength_order, Bytes.toNat_take, ← hpow, Nat.mul_sub]

/-- A digest with a zero byte in front has leftmost bits below the order. -/
theorem leftmostBits_lt_order {digest : Bytes} (hzero : digest.head? = some 0) :
    leftmostBits digest < order := by
  obtain ⟨rest, rfl⟩ := List.head?_eq_some_iff.mp hzero
  rw [leftmostBits_eq_take, List.take_succ_cons, Bytes.toNat_cons, UInt8.toNat_zero, Nat.zero_mul,
    Nat.zero_add]
  calc Bytes.toNat (rest.take 31) < 256 ^ (rest.take 31).length := Bytes.toNat_lt _
    _ ≤ 256 ^ 31 := Nat.pow_le_pow_right (by decide) (List.length_take_le 31 rest)
    _ < order := by decide

/-- The leading bits of the number are the leftmost bits behind the zeros in front. -/
theorem leadingBits_toNat (digest : Bytes) :
    leadingBits (Bytes.toNat digest) = leftmostBits (digest.dropWhile (· = 0)) := by
  rw [leadingBits, leftmostBits, Int.natAbs_natCast, Bytes.byteLength_toNat,
    Bytes.toNat_dropWhile_zero]
  split
  · rfl
  · next hnone => rw [Nat.eq_zero_of_not_pos hnone, Nat.pow_zero, Nat.div_one]

/-- The leftmost bits behind the zeros in front, with what the zeros leave of the length. -/
theorem leftmostBits_behind_zeros (digest : Bytes) :
    leftmostBits (digest.dropWhile (· = 0)) =
      Bytes.toNat digest / 2 ^ (8 * (digest.dropWhile (· = 0)).length - 256) := by
  rw [leftmostBits, bitLength_order, Bytes.toNat_dropWhile_zero]

/-- Of a digest that does not denote zero, some bit is kept. -/
theorem leftmostBits_behind_zeros_pos {digest : Bytes} (hne : Bytes.toNat digest ≠ 0) :
    0 < leftmostBits (digest.dropWhile (· = 0)) := by
  rw [leftmostBits_behind_zeros, ← Bytes.byteLength_toNat]
  refine Nat.div_pos ?_ (Nat.two_pow_pos _)
  generalize Bytes.toNat digest = n at hne ⊢
  calc 2 ^ (8 * Number.byteLength n - 256) ≤ 2 ^ (8 * (Number.byteLength n - 1)) :=
        Nat.pow_le_pow_right (by decide) (by omega)
    _ = 256 ^ (Number.byteLength n - 1) := Nat.pow_mul 2 8 _
    _ ≤ n := by
      rw [← Nat.not_lt, ← Number.byteLength_le_iff]
      have hpos : ¬ Number.byteLength n ≤ 0 := by
        rw [Number.byteLength_le_iff]
        omega
      omega

/-- Zeros in front of a digest that is longer than the order take bits off its leftmost ones. -/
theorem leftmostBits_lt_behind_zeros {digest : Bytes} (hlong : 32 < digest.length)
    (hzero : digest.head? = some 0) (hne : Bytes.toNat digest ≠ 0) :
    leftmostBits digest < leftmostBits (digest.dropWhile (· = 0)) := by
  have hpos := leftmostBits_behind_zeros_pos hne
  have hless : (digest.dropWhile (· = 0)).length < digest.length := by
    obtain ⟨rest, rfl⟩ := List.head?_eq_some_iff.mp hzero
    rw [List.dropWhile_cons_of_pos (by rfl), List.length_cons, Nat.lt_succ_iff]
    exact (List.dropWhile_sublist _).length_le
  rw [leftmostBits_behind_zeros] at hpos ⊢
  generalize (digest.dropWhile (· = 0)).length = length at hless hpos ⊢
  have hexcess : 8 * digest.length - 256 =
      (8 * length - 256) + (8 * digest.length - 256 - (8 * length - 256)) := by omega
  rw [leftmostBits, bitLength_order, hexcess, Nat.pow_add, ← Nat.div_div_eq_div_mul]
  exact Nat.div_lt_self hpos (Nat.one_lt_two_pow (by omega))

/-- What is kept are the leftmost bits exactly when the digest is cut at its own left end. -/
theorem leadingBits_eq_leftmostBits_iff (digest : Bytes) :
    leadingBits (Bytes.toNat digest) = leftmostBits digest ↔ CutAtLeft digest := by
  rw [leadingBits_toNat, Int.ofNat_inj]
  constructor
  · intro hsame
    by_contra hcut
    rw [CutAtLeft, not_or, not_or, not_not, Nat.not_le] at hcut
    obtain ⟨hlong, hzero, hne⟩ := hcut
    exact (leftmostBits_lt_behind_zeros hlong hzero hne).ne hsame.symm
  · rintro (hshort | hhead | hzero)
    · have hlength := (List.dropWhile_sublist (l := digest) (· = 0)).length_le
      rw [leftmostBits_behind_zeros, leftmostBits, bitLength_order, Nat.sub_eq_zero_of_le,
        Nat.sub_eq_zero_of_le] <;> omega
    · cases digest with
      | nil => rfl
      | cons top rest => rw [List.dropWhile_cons_of_neg (by simpa using hhead)]
    · rw [leftmostBits_behind_zeros, leftmostBits, hzero, Nat.zero_div, Nat.zero_div]

/-- A digest that is not negative is reduced to the remainder of its leading bits. -/
theorem reduceDigest_eq_mod {digest : Int} (h : 0 ≤ digest) :
    reduceDigest digest = leadingBits digest % order := by
  have hlt := natAbs_leadingBits_lt digest
  have htwice : 256 ^ 32 ≤ 2 * order := by decide
  have hnonneg := leadingBits_nonneg h
  rw [reduceDigest]
  split
  · next hreached =>
    rw [← Int.sub_emod_right, Int.emod_eq_of_lt] <;> omega
  · next hbelow => rw [Int.emod_eq_of_lt hnonneg (Int.not_le.mp hbelow)]

/-- The reduced digest is the remainder of the leftmost bits exactly when the digest is cut at its
own left end, or what is kept exceeds its leftmost bits by the order. -/
theorem reduceDigest_eq_leftmostBits_iff (digest : Bytes) :
    reduceDigest (Bytes.toNat digest) = (leftmostBits digest % order : Nat) ↔
      CutAtLeft digest ∨ leadingBits (Bytes.toNat digest) = leftmostBits digest + order := by
  have hiff := leadingBits_eq_leftmostBits_iff digest
  by_cases hcut : CutAtLeft digest
  · rw [reduceDigest_eq_mod (Int.natCast_nonneg _), hiff.mpr hcut, Int.natCast_emod]
    exact iff_of_true rfl (.inl hcut)
  · have hzero : digest.head? = some 0 := by
      rw [CutAtLeft, not_or, not_or, not_not] at hcut
      exact hcut.2.1
    have hdiffer := mt hiff.mp hcut
    rw [or_iff_right hcut, Nat.mod_eq_of_lt (leftmostBits_lt_order hzero), reduceDigest]
    split <;> omega

/-- Digests with the same reduced form are signed alike under every key. -/
theorem sign_eq_of_reduceDigest_eq {m₁ m₂ : Int} (h : reduceDigest m₁ = reduceDigest m₂)
    (key : Curve.Scalar) (options : SignOptions) : sign m₁ key options = sign m₂ key options := by
  unfold sign
  rw [h]

/-- Signatures are genuine for both of two digests with the same reduced form, or for none. -/
theorem verify_eq_of_reduceDigest_eq {m₁ m₂ : Int} (h : reduceDigest m₁ = reduceDigest m₂)
    (sig : Signature) (key : Curve.Base) : verify m₁ sig key = verify m₂ sig key := by
  unfold verify
  rw [h]

/-- The number that is signed and verified is the remainder of the leftmost bits of the digest
behind the zeros in front. What is kept are its own leftmost bits exactly when it is cut at its own
left end, and so is the remainder unless a difference of the order hides that. Digests that are cut
at their own left ends and have the same first bytes are signed and verified alike. -/
theorem digests_cut_behind_zeros (digest : Bytes) :
    reduceDigest (Bytes.toNat digest) =
      (leftmostBits (digest.dropWhile (· = 0)) % order : Nat) ∧
    (leadingBits (Bytes.toNat digest) = leftmostBits digest ↔ CutAtLeft digest) ∧
    (reduceDigest (Bytes.toNat digest) = (leftmostBits digest % order : Nat) ↔
      CutAtLeft digest ∨ leadingBits (Bytes.toNat digest) = leftmostBits digest + order) ∧
    (∀ other : Bytes, CutAtLeft digest → CutAtLeft other → digest.take 32 = other.take 32 →
      (∀ key options, PrivateKey.sign key digest options = PrivateKey.sign key other options) ∧
      ∀ key sig, PublicKey.verify key digest sig = PublicKey.verify key other sig) := by
  have hreduced (d : Bytes) := reduceDigest_eq_mod (Int.natCast_nonneg (Bytes.toNat d))
  refine ⟨?_, leadingBits_eq_leftmostBits_iff digest, reduceDigest_eq_leftmostBits_iff digest,
    fun other hdigest hother hfirst ↦ ?_⟩
  · rw [hreduced, leadingBits_toNat, Int.natCast_emod]
  · have hsame : reduceDigest (Bytes.toNat digest) = reduceDigest (Bytes.toNat other) := by
      rw [hreduced, hreduced, (leadingBits_eq_leftmostBits_iff digest).mpr hdigest,
        (leadingBits_eq_leftmostBits_iff other).mpr hother, leftmostBits_eq_take,
        leftmostBits_eq_take, hfirst]
    exact ⟨fun key options ↦ sign_eq_of_reduceDigest_eq hsame key.scalar options,
      fun key sig ↦ verify_eq_of_reduceDigest_eq hsame sig key.base⟩

/-- A digest of 33 bytes with no zero in front is cut at its own left end. -/
theorem digests_cut_behind_zeros_ones :
    CutAtLeft (List.replicate 33 255) ∧
    reduceDigest (Bytes.toNat (List.replicate 33 255)) =
      (leftmostBits (List.replicate 33 255) % order : Nat) := by
  have hcut : CutAtLeft (List.replicate 33 255) := by decide
  exact ⟨hcut, (digests_cut_behind_zeros _).2.2.1.mpr (.inl hcut)⟩

/-- Behind 32 zeros the last byte is signed, though it is none of the leftmost bits: the digests
that end in one and in two have the same first 32 bytes and different reduced forms. -/
theorem zeros_in_front_not_counted :
    reduceDigest (Bytes.toNat (List.replicate 32 0 ++ [1])) ≠
      (leftmostBits (List.replicate 32 0 ++ [1]) % order : Nat) ∧
    (List.replicate 32 (0 : UInt8) ++ [1]).take 32 =
      (List.replicate 32 (0 : UInt8) ++ [2]).take 32 ∧
    reduceDigest (Bytes.toNat (List.replicate 32 0 ++ [1])) ≠
      reduceDigest (Bytes.toNat (List.replicate 32 0 ++ [2])) := by
  decide +kernel

end Ecdsa

end Secp
