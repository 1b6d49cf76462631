import Secp.Proofs.Signature.Der
import Secp.Signature.Compact

/-!
# The compact form is exact

A compact byte string is the two parts in 32 bytes each and at most one byte of a recovery id. It is
read as a signature exactly when it is what is written of it.
-/

namespace Secp.Signature

open Curve (Scalar order)

/-- The byte of a recovery id denotes it. -/
theorem toNat_ofNat_id (id : Fin 4) : (UInt8.ofNat id.val).toNat = id.val :=
  UInt8.toNat_ofNat_of_lt (id.isLt.trans (by decide))

/-- A recovery id is attached when the byte is one of the four. -/
theorem withRecoveryId_eq_ok_iff {sig sig' : Signature} {byte : UInt8} :
    sig.withRecoveryId byte = .ok sig' ↔
      ∃ id : Fin 4, byte = UInt8.ofNat id.val ∧ sig' = { sig with recoveryId := some id } := by
  unfold withRecoveryId
  split
  · next hbyte =>
    rw [Except.ok.injEq]
    constructor
    · rintro rfl
      exact ⟨⟨byte.toNat, hbyte⟩, UInt8.ofNat_toNat.symm, rfl⟩
    · rintro ⟨id, rfl, rfl⟩
      simp only [toNat_ofNat_id]
  · next hbyte =>
    refine ⟨nofun, ?_⟩
    rintro ⟨id, rfl, -⟩
    exact absurd ((toNat_ofNat_id id).trans_lt id.isLt) hbyte

/-- How a byte string with room for two parts and perhaps a recovery id is read. -/
theorem ofCompact_append {r s tail : Bytes} (hr : r.length = 32) (hs : s.length = 32)
    (htail : tail.length ≤ 1) :
    ofCompact (r ++ s ++ tail) = ofInts (Bytes.toNat r) (Bytes.toNat s) >>= fun sig ↦
      match tail.head? with
      | some byte => sig.withRecoveryId byte
      | none => .ok sig := by
  have hlength : ¬ ((r ++ s ++ tail).length ≠ 64 ∧ (r ++ s ++ tail).length ≠ 65) := by
    rw [List.length_append, List.length_append]
    omega
  have hbyte : (r ++ s ++ tail)[64]? = tail.head? := by
    rw [List.getElem?_append_right (by rw [List.length_append]; omega), List.length_append, hr, hs,
      List.head?_eq_getElem?]
  have hfirst : (r ++ s ++ tail).take 32 = r := by simp [hr]
  have hsecond : ((r ++ s ++ tail).drop 32).take 32 = s := by simp [hr, hs]
  rw [ofCompact, if_neg hlength, hbyte]
  exact congrArg₂ (fun first second ↦ ofInts (Bytes.toNat first) (Bytes.toNat second) >>= _)
    hfirst hsecond

/-- A byte string that is read as a signature is two parts and perhaps a recovery id. -/
theorem layout_of_ofCompact {b : Bytes} {sig : Signature} (h : ofCompact b = .ok sig) :
    ∃ r s tail : Bytes, r.length = 32 ∧ s.length = 32 ∧ tail.length ≤ 1 ∧ b = r ++ s ++ tail := by
  unfold ofCompact at h
  split at h
  · cases h
  · next hlength =>
    refine ⟨b.take 32, (b.drop 32).take 32, (b.drop 32).drop 32, ?_, ?_, ?_, ?_⟩
    · rw [List.length_take]
      omega
    · rw [List.length_take, List.length_drop]
      omega
    · rw [List.length_drop, List.length_drop]
      omega
    · rw [List.append_assoc, List.take_append_drop, List.take_append_drop]

/-- A byte string is read as a signature exactly when it is the compact form of it. -/
theorem ofCompact_eq_ok_iff {b : Bytes} {sig : Signature} :
    ofCompact b = .ok sig ↔ b = sig.toCompact := by
  have hwidth (part : Scalar) : part.val < 256 ^ 32 := part.lt.trans (by decide)
  constructor
  · intro h
    obtain ⟨r, s, tail, hr, hs, htail, rfl⟩ := layout_of_ofCompact h
    rw [ofCompact_append hr hs htail] at h
    obtain ⟨parts, hparts, hattach⟩ := bind_eq_ok_iff.mp h
    obtain ⟨hfirst, hsecond, hnone⟩ := ofInts_eq_ok_iff.mp hparts
    obtain rfl := (Bytes.eq_bigEndian_iff hr (hwidth _)).mpr (Int.ofNat_inj.mp hfirst)
    obtain rfl := (Bytes.eq_bigEndian_iff hs (hwidth _)).mpr (Int.ofNat_inj.mp hsecond)
    cases tail with
    | nil =>
      cases hattach
      rw [toCompact, hnone]
    | cons byte rest =>
      obtain rfl : rest = [] :=
        List.eq_nil_of_length_eq_zero (Nat.le_zero.mp (Nat.le_of_succ_le_succ htail))
      obtain ⟨id, rfl, rfl⟩ := withRecoveryId_eq_ok_iff.mp hattach
      rfl
  · rintro rfl
    obtain ⟨r, s, recoveryId⟩ := sig
    have hparts : ofInts (Bytes.toNat (Bytes.bigEndian 32 r.val))
        (Bytes.toNat (Bytes.bigEndian 32 s.val)) = .ok ⟨r, s, none⟩ := by
      rw [Bytes.toNat_bigEndian_of_lt (hwidth r), Bytes.toNat_bigEndian_of_lt (hwidth s)]
      exact ofInts_eq_ok_iff.mpr ⟨rfl, rfl, rfl⟩
    have hr := Bytes.length_bigEndian 32 r.val
    have hs := Bytes.length_bigEndian 32 s.val
    unfold toCompact
    cases recoveryId with
    | none =>
      rw [ofCompact_append hr hs (by simp), hparts]
      rfl
    | some id =>
      rw [ofCompact_append hr hs (by simp), hparts]
      exact withRecoveryId_eq_ok_iff.mpr ⟨id, rfl, rfl⟩

end Secp.Signature
