import Secp.Proofs.Curve.Scalar
import Secp.Proofs.LimbInt.Packing
import Secp.Proofs.Outcome
import Secp.Signature.Der

/-!
# The distinguished encoding is a bijection

The body of an integer is its minimal form, with a zero byte in front where the top bit is set. A
body is accepted exactly when its length is the one that the bit length of its number asks for, so
that a number has one accepted body. Each reader accepts what its writer gives
and nothing else, and leaves what stands behind it. Hence a byte string is read as a signature
exactly when it is the encoding of that signature, and every other byte string is refused for a
fault of its form or for a part out of range.
-/

namespace Secp.Signature

-- Powers of numbers are core's, whichever others are in scope.
attribute [local instance(2000)] instPowNat

open Curve (Scalar order)

/-- Two integers make the signature that they are the parts of. -/
theorem ofInts_eq_ok_iff {r s : Int} {sig : Signature} :
    ofInts r s = .ok sig ↔ r = sig.r.val ∧ s = sig.s.val ∧ sig.recoveryId = none := by
  unfold ofInts
  simp only [bind_eq_ok_iff, Scalar.ofInt_eq_ok_iff]
  constructor
  · rintro ⟨r', hr, s', hs, ⟨⟩⟩
    exact ⟨hr, hs, rfl⟩
  · rintro ⟨hr, hs, hid⟩
    refine ⟨sig.r, hr, sig.s, hs, ?_⟩
    rw [← hid]

/-- The top bit of a byte is clear when the byte is below 128. -/
theorem and_topBit_eq_zero_iff (byte : UInt8) : byte &&& 0x80 = 0 ↔ byte.toNat < 128 := by
  have hbits : ∀ n < 256, n &&& 128 = 0 ↔ n < 128 := by decide +kernel
  rw [← UInt8.toNat_inj, UInt8.toNat_and]
  exact hbits byte.toNat byte.toNat_lt

/-- The top bit is clear, and a leading zero byte stands only before a byte whose top bit is set. -/
def Minimal : Bytes → Prop
  | [] => False
  | top :: rest => top.toNat < 128 ∧ (top = 0 → ∀ next ∈ rest.head?, 128 ≤ next.toNat)

/-- Minimal bodies are those that are not refused. -/
theorem checkBody_eq_ok_iff {b : Bytes} : checkBody b = .ok () ↔ Minimal b := by
  cases b with
  | nil =>
    constructor
    · intro h
      cases h
    · exact False.elim
  | cons top rest =>
    have hnext : rest.head?.any (· &&& 0x80 = 0) = true ↔
        ∃ next ∈ rest.head?, next.toNat < 128 := by
      simp only [Option.any_eq_true, decide_eq_true_eq, and_topBit_eq_zero_iff, Option.mem_def]
    rw [checkBody, Minimal, ← and_topBit_eq_zero_iff]
    split
    · next hnegative =>
      constructor
      · intro h
        cases h
      · intro h
        exact absurd h.1 hnegative
    · next hpositive =>
      rw [not_not] at hpositive
      split
      · next hpadded =>
        obtain ⟨next, hmem, hlt⟩ := hnext.mp hpadded.2
        have hzero := hpadded.1
        constructor
        · intro h
          cases h
        · intro h
          exact absurd (h.2 hzero next hmem) (Nat.not_le.mpr hlt)
      · next hbare =>
        refine ⟨fun _ ↦ ⟨hpositive, ?_⟩, fun _ ↦ rfl⟩
        intro hzero next hmem
        exact Nat.not_lt.mp fun hlt ↦ hbare ⟨hzero, hnext.mpr ⟨next, hmem, hlt⟩⟩

/-- A power of 256, halved, as a power of two. -/
private theorem two_pow_eq (width : Nat) : 2 ^ (8 * width + 7) = 128 * 256 ^ width := by
  rw [Nat.pow_add, Nat.pow_mul, Nat.mul_comm]

/-- The top bit of a byte string is clear when its number has a bit less than it has room for. -/
theorem bitLength_lt_iff {top : UInt8} {rest : Bytes} :
    Number.bitLength (Bytes.toNat (top :: rest)) < 8 * rest.length + 8 ↔ top.toNat < 128 := by
  rw [← Nat.not_le, ← Nat.not_le, not_iff_not, ← Bytes.mul_pow_le_toNat_cons, ← two_pow_eq,
    ← Number.lt_bitLength_iff]
  rfl

/-- The number of a byte string has the bits of all bytes but the first when that byte is not zero,
or the next has its top bit set. -/
private theorem le_bitLength_iff {top : UInt8} {rest : Bytes} :
    8 * rest.length ≤ Number.bitLength (Bytes.toNat (top :: rest)) ↔
      (top = 0 → ∀ next ∈ rest.head?, 128 ≤ next.toNat) := by
  cases rest with
  | nil => simp
  | cons next rest =>
    have hbits : 8 * (next :: rest).length ≤ Number.bitLength (Bytes.toNat (top :: next :: rest)) ↔
        128 * 256 ^ rest.length ≤ Bytes.toNat (top :: next :: rest) := by
      rw [← two_pow_eq, ← Number.lt_bitLength_iff]
      rfl
    have hnext : (∀ b ∈ (next :: rest).head?, 128 ≤ b.toNat) ↔ 128 ≤ next.toNat := by simp
    rw [hbits, hnext]
    by_cases htop : top = 0
    · rw [htop, Bytes.toNat_cons, UInt8.toNat_zero, Nat.zero_mul, Nat.zero_add,
        Bytes.mul_pow_le_toNat_cons]
      exact ⟨fun h _ ↦ h, fun h ↦ h rfl⟩
    · have hone : 1 ≤ top.toNat :=
        Nat.pos_of_ne_zero fun h ↦ htop (UInt8.toNat_inj.mp h)
      have hle := (Bytes.mul_pow_le_toNat_cons (b := next :: rest)).mpr hone
      rw [List.length_cons, Nat.one_mul, Nat.pow_succ'] at hle
      refine ⟨fun _ h ↦ absurd h htop, fun _ ↦ ?_⟩
      exact (Nat.mul_le_mul_right _ (by decide)).trans hle

/-- A body is minimal when it has the length that its number asks for. -/
theorem minimal_iff_length {b : Bytes} :
    Minimal b ↔ b.length = Number.bitLength (Bytes.toNat b) / 8 + 1 := by
  cases b with
  | nil => exact ⟨nofun, nofun⟩
  | cons top rest =>
    have htop := @bitLength_lt_iff top rest
    rw [Minimal, ← htop, ← le_bitLength_iff, List.length_cons]
    omega

/-- The body of the magnitude of an integer on limbs is its minimal form, with a zero byte in front
if the top bit is set. -/
theorem derBody_toNat_limbs {a : LimbInt} (h : a.limbs.Canonical) :
    derBody a.limbs.toNat =
      if a.toBytesBE.headD 0 &&& 0x80 ≠ 0 then 0 :: a.toBytesBE else a.toBytesBE := by
  rw [derBody, LimbInt.toBytesBE_eq h]

/-- The body of a number denotes the number. -/
theorem toNat_derBody (n : Nat) : Bytes.toNat (derBody n) = n := by
  unfold derBody
  dsimp only
  split
  · rw [Bytes.toNat_cons, UInt8.toNat_zero, Nat.zero_mul, Nat.zero_add, Bytes.toNat_fewest]
  · exact Bytes.toNat_fewest n

/-- The body of a number is minimal. -/
theorem minimal_derBody (n : Nat) : Minimal (derBody n) := by
  have hlength := Bytes.length_bigEndian (max 1 (Number.byteLength n)) n
  unfold derBody
  cases hbytes : Bytes.bigEndian (max 1 (Number.byteLength n)) n with
  | nil =>
    rw [hbytes, List.length_nil] at hlength
    omega
  | cons top rest =>
    dsimp only
    rw [List.headD_cons]
    split
    · next hfull =>
      refine ⟨by decide, ?_⟩
      intro _ next hnext
      cases hnext
      exact Nat.not_lt.mp (mt (and_topBit_eq_zero_iff top).mpr hfull)
    · next hfree =>
      rw [not_not, and_topBit_eq_zero_iff] at hfree
      refine ⟨hfree, ?_⟩
      intro hzero next hnext
      rw [hzero] at hbytes
      rw [Bytes.eq_nil_of_fewest hbytes] at hnext
      cases hnext

/-- The body of a number has the length that the number asks for. -/
theorem length_derBody (n : Nat) : (derBody n).length = Number.bitLength n / 8 + 1 := by
  have hlength := minimal_iff_length.mp (minimal_derBody n)
  rwa [toNat_derBody] at hlength

/-- The minimal bodies are the bodies of numbers. -/
theorem minimal_iff {b : Bytes} : Minimal b ↔ b = derBody (Bytes.toNat b) := by
  constructor
  · intro h
    have hlength : b.length = (derBody (Bytes.toNat b)).length := by
      rw [length_derBody, minimal_iff_length.mp h]
    rw [← Bytes.toNat_inj hlength, toNat_derBody]
  · intro h
    rw [h]
    exact minimal_derBody _

/-- A byte is read off the front. -/
theorem readByte_eq_ok_iff {b rest : Bytes} {byte : UInt8} :
    readByte b = .ok (byte, rest) ↔ b = byte :: rest := by
  cases b with
  | nil => exact ⟨nofun, nofun⟩
  | cons c b =>
    rw [readByte, Except.ok.injEq, Prod.mk.injEq, List.cons.injEq]

/-- A length is read off a byte whose top bit is clear. -/
theorem readLength_eq_ok_iff {b rest : Bytes} {n : Nat} :
    readLength b = .ok (n, rest) ↔ n < 128 ∧ b = UInt8.ofNat n :: rest := by
  unfold readLength
  simp only [bind_eq_ok_iff, Prod.exists, readByte_eq_ok_iff]
  constructor
  · rintro ⟨byte, rest', rfl, h⟩
    split at h
    · cases h
    · next htop =>
      cases h
      rw [not_not, and_topBit_eq_zero_iff] at htop
      exact ⟨htop, by rw [UInt8.ofNat_toNat]⟩
  · rintro ⟨hn, rfl⟩
    have hvalue : (UInt8.ofNat n).toNat = n := UInt8.toNat_ofNat_of_lt' (hn.trans (by decide))
    refine ⟨_, rest, rfl, ?_⟩
    rw [if_neg, hvalue]
    rwa [not_not, and_topBit_eq_zero_iff, hvalue]

/-- An integer is read exactly where it is written, and what stands behind it is left. -/
theorem readInteger_eq_ok_iff {b rest : Bytes} {n : Nat} :
    readInteger b = .ok (n, rest) ↔
      (derBody n).length < 128 ∧ b = derInteger n ++ rest := by
  unfold readInteger
  simp only [bind_eq_ok_iff, Prod.exists, readByte_eq_ok_iff]
  constructor
  · rintro ⟨tag, rest₁, rfl, h⟩
    split at h
    · cases h
    · next htag =>
      rw [not_not] at htag
      obtain ⟨⟨length, rest₂⟩, hlength, htail⟩ := bind_eq_ok_iff.mp h
      obtain ⟨hshort, rfl⟩ := readLength_eq_ok_iff.mp hlength
      dsimp only at htail
      split at htail
      · cases htail
      · split at htail
        · cases htail
        · next hroom =>
          obtain ⟨u, hbody, hvalue⟩ := bind_eq_ok_iff.mp htail
          cases hvalue
          have htake : (rest₂.take length).length = length := by
            rw [List.length_take]
            omega
          have hminimal := minimal_iff.mp (checkBody_eq_ok_iff.mp hbody)
          rw [derInteger, ← hminimal, htake, htag]
          exact ⟨hshort, by rw [List.cons_append, List.cons_append, List.take_append_drop]⟩
  · rintro ⟨hshort, rfl⟩
    refine ⟨_, _, rfl, ?_⟩
    rw [if_neg (not_not.mpr rfl)]
    refine bind_eq_ok_iff.mpr ⟨((derBody n).length, derBody n ++ rest), ?_, ?_⟩
    · exact readLength_eq_ok_iff.mpr ⟨hshort, rfl⟩
    · have hbody : checkBody (derBody n) = .ok () := by
        rw [checkBody_eq_ok_iff, minimal_iff, toNat_derBody]
      dsimp only
      rw [if_neg (by rw [length_derBody]; omega), if_neg (by rw [List.length_append]; omega),
        List.take_left, List.drop_left, hbody, toNat_derBody]
      rfl

/-- The body of a scalar takes at most 33 bytes. -/
theorem length_derBody_scalar_le (s : Scalar) : (derBody s.val).length ≤ 33 := by
  have hlt : s.val < 2 ^ 256 := s.lt.trans (by decide)
  have hbits : Number.bitLength s.val ≤ 256 :=
    Nat.not_lt.mp fun h ↦ Nat.not_le.mpr hlt ((Number.lt_bitLength_iff _ _).mp h)
  rw [length_derBody]
  omega

/-- A tagged integer takes two bytes more than its body. -/
theorem length_derInteger (n : Nat) : (derInteger n).length = (derBody n).length + 2 := rfl

/-- A byte string is read as a signature exactly when it is the encoding of the signature, which
carries no recovery id. -/
theorem ofDer_eq_ok_iff {b : Bytes} {sig : Signature} :
    ofDer b = .ok sig ↔ sig.recoveryId = none ∧ b = sig.toDer := by
  unfold ofDer
  simp only [bind_eq_ok_iff, Prod.exists, readByte_eq_ok_iff]
  constructor
  · rintro ⟨tag, rest₁, rfl, h⟩
    split at h
    · cases h
    · next htag =>
      rw [not_not] at htag
      obtain ⟨⟨length, rest₂⟩, hlength, hbody⟩ := bind_eq_ok_iff.mp h
      obtain ⟨-, rfl⟩ := readLength_eq_ok_iff.mp hlength
      dsimp only at hbody
      split at hbody
      · cases hbody
      · next hexact =>
        rw [not_not] at hexact
        obtain ⟨⟨r, rest₃⟩, hfirst, htail⟩ := bind_eq_ok_iff.mp hbody
        obtain ⟨⟨s, rest₄⟩, hsecond, hparts⟩ := bind_eq_ok_iff.mp htail
        obtain ⟨-, rfl⟩ := readInteger_eq_ok_iff.mp hfirst
        obtain ⟨-, rfl⟩ := readInteger_eq_ok_iff.mp hsecond
        dsimp only at hparts
        split at hparts
        · cases hparts
        · next hend =>
          rw [not_not] at hend
          obtain ⟨hr, hs, hid⟩ := ofInts_eq_ok_iff.mp hparts
          obtain rfl := Int.ofNat_inj.mp hr
          obtain rfl := Int.ofNat_inj.mp hs
          refine ⟨hid, ?_⟩
          rw [toDer, htag, hexact, hend, List.append_nil]
  · rintro ⟨hid, rfl⟩
    have hr := length_derBody_scalar_le sig.r
    have hs := length_derBody_scalar_le sig.s
    have hlength := length_derInteger sig.r.val
    have hlength' := length_derInteger sig.s.val
    refine ⟨_, _, rfl, ?_⟩
    rw [if_neg (not_not.mpr rfl)]
    refine bind_eq_ok_iff.mpr
      ⟨(_, derInteger sig.r.val ++ derInteger sig.s.val), readLength_eq_ok_iff.mpr ⟨?_, rfl⟩, ?_⟩
    · rw [List.length_append]
      omega
    · dsimp only
      rw [if_neg (not_not.mpr rfl)]
      refine bind_eq_ok_iff.mpr
        ⟨(_, derInteger sig.s.val), readInteger_eq_ok_iff.mpr ⟨by omega, rfl⟩, ?_⟩
      refine bind_eq_ok_iff.mpr
        ⟨(_, []), readInteger_eq_ok_iff.mpr ⟨by omega, (List.append_nil _).symm⟩, ?_⟩
      dsimp only
      rw [if_neg (not_not.mpr rfl), ofInts_eq_ok_iff]
      exact ⟨rfl, rfl, hid⟩

/-- What is refused here has a fault in its form. -/
def FaultyForm {α : Type} (x : Except Error α) : Prop :=
  ∀ reason, x = .error reason → ∃ fault, reason = .malformedDer fault

/-- A sequence is refused for a fault in its form when both of its parts are. -/
theorem FaultyForm.bind {α β : Type} {x : Except Error α} {f : α → Except Error β}
    (hx : FaultyForm x) (hf : ∀ a, FaultyForm (f a)) : FaultyForm (x >>= f) := by
  intro reason h
  rcases bind_eq_error_iff.mp h with h | ⟨a, -, h⟩
  · exact hx reason h
  · exact hf a reason h

/-- What has a result is not refused. -/
theorem FaultyForm.ok {α : Type} (a : α) : FaultyForm (.ok a) := nofun

/-- A fault in the form is one. -/
theorem FaultyForm.error {α : Type} (fault : DerFault) :
    FaultyForm (.error (.malformedDer fault) : Except Error α) := by
  rintro reason ⟨⟩
  exact ⟨fault, rfl⟩

/-- A byte is refused for a fault in the form. -/
theorem faultyForm_readByte (b : Bytes) : FaultyForm (readByte b) := by
  cases b with
  | nil => exact .error _
  | cons byte rest => exact .ok _

/-- A length is refused for a fault in the form. -/
theorem faultyForm_readLength (b : Bytes) : FaultyForm (readLength b) := by
  refine (faultyForm_readByte b).bind fun (n, rest) ↦ ?_
  dsimp only
  split
  · exact .error _
  · exact .ok _

/-- The body of an integer is refused for a fault in the form. -/
theorem faultyForm_checkBody (b : Bytes) : FaultyForm (checkBody b) := by
  cases b with
  | nil => exact .error _
  | cons top rest =>
    rw [checkBody]
    split
    · exact .error _
    · split
      · exact .error _
      · exact .ok _

/-- An integer is refused for a fault in the form. -/
theorem faultyForm_readInteger (b : Bytes) : FaultyForm (readInteger b) := by
  refine (faultyForm_readByte b).bind fun (tag, rest) ↦ ?_
  dsimp only
  split
  · exact .error _
  · refine (faultyForm_readLength rest).bind fun (length, rest) ↦ ?_
    dsimp only
    split
    · exact .error _
    · split
      · exact .error _
      · exact (faultyForm_checkBody _).bind fun u ↦ .ok _

/-- A pair of integers is refused for the part that is out of range. -/
theorem exists_part_of_ofInts {r s : Int} {reason : Error} (h : ofInts r s = .error reason) :
    ∃ part, reason = .outOfRange (.signaturePart part) := by
  have hpart {name : String} {k : Int} {reason : Error}
      (h : Scalar.ofInt (.signaturePart name) k = .error reason) :
      reason = .outOfRange (.signaturePart name) := by
    unfold Scalar.ofInt at h
    split at h
    · cases h
    · exact (Except.error.inj h).symm
  unfold ofInts at h
  rcases bind_eq_error_iff.mp h with h | ⟨r', -, h⟩
  · exact ⟨_, hpart h⟩
  · rcases bind_eq_error_iff.mp h with h | ⟨s', -, h⟩
    · exact ⟨_, hpart h⟩
    · cases h

/-- A byte string is refused for a fault in its form or for a part that is out of range. -/
theorem fault_or_part_of_ofDer {b : Bytes} {reason : Error} (h : ofDer b = .error reason) :
    (∃ fault, reason = .malformedDer fault) ∨
      ∃ part, reason = .outOfRange (.signaturePart part) := by
  unfold ofDer at h
  rcases bind_eq_error_iff.mp h with h | ⟨⟨tag, rest⟩, -, h⟩
  · exact .inl (faultyForm_readByte b reason h)
  · dsimp only at h
    split at h
    · exact .inl (FaultyForm.error _ reason h)
    · rcases bind_eq_error_iff.mp h with h | ⟨⟨length, rest⟩, -, h⟩
      · exact .inl (faultyForm_readLength _ reason h)
      · dsimp only at h
        split at h
        · exact .inl (FaultyForm.error _ reason h)
        · rcases bind_eq_error_iff.mp h with h | ⟨⟨r, rest⟩, -, h⟩
          · exact .inl (faultyForm_readInteger _ reason h)
          · rcases bind_eq_error_iff.mp h with h | ⟨⟨s, rest⟩, -, h⟩
            · exact .inl (faultyForm_readInteger _ reason h)
            · dsimp only at h
              split at h
              · exact .inl (FaultyForm.error _ reason h)
              · exact .inr (exists_part_of_ofInts h)

end Secp.Signature
