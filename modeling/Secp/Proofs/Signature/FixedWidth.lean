import Secp.Proofs.LimbInt.Packing
import Secp.Proofs.Signature.Compact

/-!
# The compact form on limbs

Here the parts of a signature are integers on limbs. Each is checked when the signature is made, and
is written by putting its bytes one by one into a row of zero bytes, the lowest one last. The row is
never too short, since a part is below the order. The byte strings that are read are exactly those
of the right length with both halves and the recovery id in range, and each of them is written
again.
-/

namespace Secp

open Curve (Scalar order)

namespace LimbInt

/-- The bytes of the magnitude, put one by one into a row of zero bytes from its end. The magnitude
must not be wider than the row. -/
def toFixed? (width : Nat) (a : LimbInt) : Option Bytes :=
  if width < a.byteLength then none
  else
    some ((a.toBytesLE.take width).zipIdx.foldl (fun row b ↦ row.set (width - 1 - b.2) b.1)
      (List.replicate width 0))

/-- Bytes that are put into a row of zero bytes from its end stand there in reverse. -/
theorem foldl_set_eq (width : Nat) (bytes : Bytes) (h : bytes.length ≤ width) :
    bytes.zipIdx.foldl (fun row b ↦ row.set (width - 1 - b.2) b.1) (List.replicate width 0) =
      List.replicate (width - bytes.length) 0 ++ bytes.reverse := by
  induction bytes using List.reverseRecOn with
  | nil => simp
  | append_singleton bytes byte ih =>
    rw [List.length_append, List.length_singleton] at h
    obtain ⟨more, rfl⟩ := Nat.exists_eq_add_of_le h
    have hzeros : bytes.length + 1 + more - bytes.length = more + 1 := by omega
    have hplace : bytes.length + 1 + more - 1 - bytes.length = more := by omega
    have hrest : bytes.length + 1 + more - (bytes ++ [byte]).length = more := by simp
    rw [List.zipIdx_append, List.foldl_append, ih (by omega), hzeros, hrest]
    simp only [List.zipIdx_singleton, List.foldl_cons, List.foldl_nil, Nat.zero_add, hplace]
    rw [List.replicate_succ', List.append_assoc, List.set_append_right _ _ (by simp)]
    simp

/-- The form in a fixed width is the magnitude in that width, if that holds it. -/
theorem toFixed?_eq {a : LimbInt} (h : a.limbs.Canonical) {width : Nat}
    (hwidth : a.limbs.toNat < 256 ^ width) :
    a.toFixed? width = some (Bytes.bigEndian width a.limbs.toNat) := by
  have hfits : ¬ width < a.byteLength := by
    rw [byteLength, h.byteLength_eq, Nat.not_lt, Number.byteLength_le_iff]
    exact hwidth
  rw [toFixed?, if_neg hfits, foldl_set_eq width _ (by rw [List.length_take]; omega),
    toBytesLE_eq h]
  have hlt : a.limbs.toNat < 256 ^ max (Number.byteLength a.limbs.toNat) 1 :=
    Number.byteLength_le_iff.mp (Nat.le_max_left _ _)
  generalize max (Number.byteLength a.limbs.toNat) 1 = least at hlt ⊢
  rcases Nat.le_total width least with hle | hle
  · rw [Bytes.take_littleEndian hle, Bytes.length_littleEndian, Nat.sub_self, List.replicate_zero,
      List.nil_append, Bytes.bigEndian]
  · obtain ⟨more, rfl⟩ := Nat.exists_eq_add_of_le hle
    rw [List.take_of_length_le (by rw [Bytes.length_littleEndian]; exact hle),
      Bytes.length_littleEndian, Nat.add_sub_cancel_left, Bytes.bigEndian,
      Bytes.littleEndian_add_of_lt hlt, List.reverse_append, List.reverse_replicate]

end LimbInt

/-- A signature whose parts are integers on limbs, perhaps with a recovery id. -/
structure LimbSignature where
  r : LimbInt
  s : LimbInt
  recoveryId : Option UInt8
  deriving DecidableEq, Repr

namespace LimbSignature

/-- Refuse a part that is negative, zero, or not below the order. -/
def checkRange (part : String) (a : LimbInt) : Except Error Unit :=
  if a.negative ∨ a.isZero ∨ a.compare (LimbInt.ofInt order) ≠ .lt then
    .error (.outOfRange (.signaturePart part))
  else .ok ()

/-- The signature of two integers, each of which must be in range. -/
def ofIntegers (r s : LimbInt) : Except Error LimbSignature := do
  checkRange "r" r
  checkRange "s" s
  .ok ⟨r, s, none⟩

/-- Attach a recovery id, which is at most three. -/
def withRecoveryId (sig : LimbSignature) (id : UInt8) : Except Error LimbSignature :=
  if 3 < id then .error (.invalidRecoveryId id) else .ok { sig with recoveryId := some id }

/-- Both parts in 32 bytes each, and the recovery id. -/
def toCompact? (sig : LimbSignature) : Option Bytes := do
  let r ← sig.r.toFixed? 32
  let s ← sig.s.toFixed? 32
  some (r ++ s ++ sig.recoveryId.toList)

/-- Read a signature in compact form. -/
def ofCompact (b : Bytes) : Except Error LimbSignature :=
  if b.length ≠ 64 ∧ b.length ≠ 65 then .error (.invalidEncoding (.compactLength b.length))
  else do
    let sig ← ofIntegers (.ofBytesBE (b.take 32)) (.ofBytesBE ((b.take 64).drop 32))
    match b[64]? with
    | some id => sig.withRecoveryId id
    | none => .ok sig

end LimbSignature

namespace Signature

/-- The signature with its parts on limbs. -/
def onLimbs (sig : Signature) : LimbSignature :=
  ⟨.ofInt sig.r.val, .ofInt sig.s.val, sig.recoveryId.map fun id ↦ UInt8.ofNat id.val⟩

/-- A scalar is no wider than 32 bytes, and its limbs give these. -/
theorem toFixed?_scalar (part : Scalar) :
    (LimbInt.ofInt part.val).toFixed? 32 = some (Bytes.bigEndian 32 part.val) := by
  have hpart := LimbInt.denotes_ofInt part.val
  have hvalue : (LimbInt.ofInt part.val).limbs.toNat = part.val := by
    rw [hpart.toNat_limbs, Int.natAbs_natCast]
  have hwidth : part.val < 256 ^ 32 := part.lt.trans (by decide)
  rw [LimbInt.toFixed?_eq hpart.canonical.1 (by rwa [hvalue]), hvalue]

/-- The compact form is written from limbs as it is written. -/
theorem toCompact?_onLimbs (sig : Signature) : sig.onLimbs.toCompact? = some sig.toCompact := by
  rw [LimbSignature.toCompact?, onLimbs, toFixed?_scalar, toFixed?_scalar, toCompact]
  cases sig.recoveryId with
  | none => rfl
  | some id => rfl

/-- A part on limbs is in range exactly when its number is a scalar. -/
theorem checkRange_eq {a : LimbInt} {x : Int} (ha : LimbInt.Denotes a x) (part : String) :
    LimbSignature.checkRange part a =
      (Scalar.ofInt (.signaturePart part) x).map fun _ ↦ () := by
  have hcompare := ha.canonical.compare_eq (LimbInt.denotes_ofInt order).canonical
  rw [ha.toInt_eq, (LimbInt.denotes_ofInt order).toInt_eq] at hcompare
  have hrange : (a.negative ∨ a.isZero ∨ a.compare (LimbInt.ofInt order) ≠ .lt) ↔
      ¬ (0 < x.toNat ∧ x.toNat < order) := by
    rw [ha.negative_eq, ha.isZero_iff, decide_eq_true_eq, hcompare, Ne, Int.compare_eq_lt]
    omega
  unfold LimbSignature.checkRange Scalar.ofInt Scalar.ofInt?
  by_cases h : 0 < x.toNat ∧ x.toNat < order
  · rw [if_neg (hrange.not_left.mpr h), dif_pos h]
    rfl
  · rw [if_pos (hrange.mpr h), dif_neg h]
    rfl

/-- A signature is made of integers on limbs when it is made of their numbers. -/
theorem ofIntegers_eq {r s : LimbInt} {x y : Int} (hr : LimbInt.Denotes r x)
    (hs : LimbInt.Denotes s y) :
    LimbSignature.ofIntegers r s = (ofInts x y).map onLimbs := by
  rw [LimbSignature.ofIntegers, checkRange_eq hr, checkRange_eq hs, ofInts]
  cases hx : Scalar.ofInt (.signaturePart "r") x with
  | error fault => rfl
  | ok first =>
    cases hy : Scalar.ofInt (.signaturePart "s") y with
    | error fault => rfl
    | ok second =>
      rw [hr.eq_ofInt, hs.eq_ofInt, Scalar.ofInt_eq_ok_iff.mp hx, Scalar.ofInt_eq_ok_iff.mp hy]
      rfl

/-- A recovery id is attached to the parts on limbs as to the parts. -/
theorem withRecoveryId_onLimbs (sig : Signature) (id : UInt8) :
    sig.onLimbs.withRecoveryId id = (sig.withRecoveryId id).map onLimbs := by
  have hrange : 3 < id ↔ ¬ id.toNat < 4 := by
    rw [UInt8.lt_iff_toNat_lt, Nat.not_lt]
    exact Nat.succ_le_iff.symm
  unfold LimbSignature.withRecoveryId withRecoveryId
  by_cases h : id.toNat < 4
  · rw [if_neg (hrange.not_left.mpr h), dif_pos h]
    simp [onLimbs, Except.map]
  · rw [if_pos (hrange.mpr h), dif_neg h]
    rfl

/-- A byte string is read on limbs as it is read. -/
theorem ofCompact_onLimbs (b : Bytes) : LimbSignature.ofCompact b = (ofCompact b).map onLimbs := by
  have hsecond : (b.take 64).drop 32 = (b.drop 32).take 32 := by
    rw [List.drop_take]
  unfold LimbSignature.ofCompact ofCompact
  split
  · rfl
  · rw [ofIntegers_eq (LimbInt.denotes_ofBytesBE _) (LimbInt.denotes_ofBytesBE _), hsecond]
    cases ofInts (Bytes.toNat (b.take 32)) (Bytes.toNat ((b.drop 32).take 32)) with
    | error fault => rfl
    | ok sig =>
      cases b[64]? with
      | none => rfl
      | some id => exact withRecoveryId_onLimbs sig id

/-- Whether a byte string is 64 bytes, or 65 with a recovery id behind them, and both of its halves
are in range. -/
structure IsCompact (b : Bytes) : Prop where
  length : b.length = 64 ∨ b.length = 65 ∧ ∃ id, b.getLast? = some id ∧ id ≤ 3
  first : 1 ≤ Bytes.toNat (b.take 32) ∧ Bytes.toNat (b.take 32) ≤ order - 1
  second : 1 ≤ Bytes.toNat ((b.drop 32).take 32) ∧ Bytes.toNat ((b.drop 32).take 32) ≤ order - 1

/-- The compact form of a signature has the right length and its parts in range. -/
theorem isCompact_toCompact (sig : Signature) : IsCompact sig.toCompact := by
  have hwidth (part : Scalar) : Bytes.toNat (Bytes.bigEndian 32 part.val) = part.val :=
    Bytes.toNat_bigEndian_of_lt (part.lt.trans (by decide))
  have hrange (part : Scalar) : 1 ≤ part.val ∧ part.val ≤ order - 1 :=
    ⟨part.pos, Nat.le_sub_one_of_lt part.lt⟩
  have hr := Bytes.length_bigEndian 32 sig.r.val
  have hs := Bytes.length_bigEndian 32 sig.s.val
  refine ⟨?_, ?_, ?_⟩
  · unfold toCompact
    cases sig.recoveryId with
    | none => exact .inl (by simp)
    | some id =>
      refine .inr ⟨by simp, UInt8.ofNat id.val, by simp, ?_⟩
      rw [UInt8.le_iff_toNat_le, toNat_ofNat_id]
      exact Nat.le_of_lt_succ id.isLt
  · rw [toCompact, List.append_assoc, List.take_left' hr, hwidth]
    exact hrange sig.r
  · rw [toCompact, List.append_assoc, List.drop_left' hr, List.take_left' hs, hwidth]
    exact hrange sig.s

/-- A byte string in the form is what is written of a signature. -/
theorem IsCompact.exists_eq_toCompact {b : Bytes} (h : IsCompact b) :
    ∃ sig : Signature, b = sig.toCompact := by
  have hpos : 0 < order := by decide
  let r : Scalar := ⟨Bytes.toNat (b.take 32), h.first.1, Nat.lt_of_le_sub_one hpos h.first.2⟩
  let s : Scalar :=
    ⟨Bytes.toNat ((b.drop 32).take 32), h.second.1, Nat.lt_of_le_sub_one hpos h.second.2⟩
  have hlong : 64 ≤ b.length := by
    rcases h.length with hlength | ⟨hlength, -⟩
    · omega
    · omega
  have hr : b.take 32 = Bytes.bigEndian 32 r.val :=
    (Bytes.eq_bigEndian_iff (by rw [List.length_take]; omega) (r.lt.trans (by decide))).mpr rfl
  have hs : (b.drop 32).take 32 = Bytes.bigEndian 32 s.val :=
    (Bytes.eq_bigEndian_iff (by rw [List.length_take, List.length_drop]; omega)
      (s.lt.trans (by decide))).mpr rfl
  have hsplit : b = Bytes.bigEndian 32 r.val ++ Bytes.bigEndian 32 s.val ++ b.drop 64 := by
    rw [← hr, ← hs, List.append_assoc, ← List.drop_drop (i := 32) (j := 32), List.take_append_drop,
      List.take_append_drop]
  rcases h.length with hlength | ⟨hlength, id, hlast, hid⟩
  · refine ⟨⟨r, s, none⟩, ?_⟩
    rw [hsplit, List.drop_of_length_le (Nat.le_of_eq hlength)]
    rfl
  · obtain ⟨parts, rfl⟩ := List.getLast?_eq_some_iff.mp hlast
    have hparts : parts.length = 64 := by simpa using hlength
    refine ⟨⟨r, s, some ⟨id.toNat, Nat.lt_succ_of_le (UInt8.le_iff_toNat_le.mp hid)⟩⟩, ?_⟩
    rw [List.drop_left' hparts] at hsplit
    rw [hsplit, toCompact]
    simp

/-- A byte string is read as a signature exactly when it has the right length and its halves and its
recovery id are in range. -/
theorem exists_ofCompact_iff {b : Bytes} : (∃ sig, ofCompact b = .ok sig) ↔ IsCompact b := by
  simp only [ofCompact_eq_ok_iff]
  constructor
  · rintro ⟨sig, rfl⟩
    exact isCompact_toCompact sig
  · exact IsCompact.exists_eq_toCompact

/-- The compact form is exact. A signature is read back from it with its recovery id. A byte string
is read exactly when it has 64 bytes, or 65 of which the last is a recovery id, and both of its
halves are in range, and then it is what is written of the result. On limbs the same bytes are
written and the same byte strings are read. -/
theorem compact_forms_exact :
    (∀ sig : Signature, ofCompact sig.toCompact = .ok sig) ∧
      (∀ b : Bytes, ((∃ sig, ofCompact b = .ok sig) ↔ IsCompact b) ∧
        ∀ sig, ofCompact b = .ok sig → sig.toCompact = b) ∧
      (∀ sig : Signature, sig.onLimbs.toCompact? = some sig.toCompact) ∧
      ∀ b : Bytes, LimbSignature.ofCompact b = (ofCompact b).map onLimbs := by
  refine ⟨?_, ?_, toCompact?_onLimbs, ofCompact_onLimbs⟩
  · intro sig
    exact ofCompact_eq_ok_iff.mpr rfl
  · intro b
    refine ⟨exists_ofCompact_iff, ?_⟩
    intro sig hsig
    exact (ofCompact_eq_ok_iff.mp hsig).symm

/-- Parts with 31 zero bytes in front and the largest recovery id are read and written back, and a
second part of zero is refused. -/
theorem compact_forms_exact_leading_zeros :
    (∃ sig : Signature, (sig.r.val = 1 ∧ sig.s.val = 2 ∧ sig.recoveryId.map Fin.val = some 3) ∧
      ofCompact (List.replicate 31 0 ++ [1] ++ List.replicate 31 0 ++ [2, 3]) = .ok sig ∧
      sig.toCompact = List.replicate 31 0 ++ [1] ++ List.replicate 31 0 ++ [2, 3]) ∧
      ¬ ∃ sig, ofCompact (List.replicate 31 0 ++ [1] ++ List.replicate 32 0) = .ok sig := by
  obtain ⟨-, hexact, -, -⟩ := compact_forms_exact
  constructor
  · have hread : ofCompact (List.replicate 31 0 ++ [1] ++ List.replicate 31 0 ++ [2, 3]) =
        .ok ⟨⟨1, by decide, by decide⟩, ⟨2, by decide, by decide⟩, some ⟨3, by decide⟩⟩ := by rfl
    exact ⟨_, ⟨rfl, rfl, rfl⟩, hread, (hexact _).2 _ hread⟩
  · rw [(hexact _).1]
    intro hcompact
    exact absurd hcompact.second.1 (by decide)

end Signature

end Secp
