import Secp.Proofs.Signature.Der
import Secp.Proofs.Signature.Positions
import Secp.Signature.Compact

/-!
# One encoding for each signature

In a script the byte behind the distinguished encoding is the scope, and it is any byte. So what is
read there, too, is exactly what is written, and a signature has one accepted form in either
encoding.
-/

namespace Secp

open Curve (Scalar)

/-- A byte string is read as a scoped signature exactly when it is the encoding of it, which carries
no recovery id. -/
theorem ScopedSignature.ofScript_eq_ok_iff {b : Bytes} {t : ScopedSignature} :
    ofScript b = .ok t ↔ t.signature.recoveryId = none ∧ b = t.toScript := by
  unfold ofScript toScript
  cases b using List.reverseRecOn with
  | nil => exact ⟨nofun, fun h ↦ absurd h.2.symm (List.append_ne_nil_of_right_ne_nil _ (by simp))⟩
  | append_singleton der scope =>
    rw [List.getLast?_concat, List.dropLast_concat]
    dsimp only
    rw [map_eq_ok_iff]
    simp only [Signature.ofDer_eq_ok_iff]
    constructor
    · rintro ⟨sig, ⟨hid, rfl⟩, rfl⟩
      exact ⟨hid, rfl⟩
    · rintro ⟨hid, h⟩
      obtain ⟨hder, hscope⟩ := List.append_inj' h rfl
      cases hscope
      exact ⟨t.signature, ⟨hid, hder⟩, rfl⟩

/-- What is written is read back without the recovery id. A byte string that is read is what is
written of the result, so that no other is read as the same signature. Reading never looks outside
the byte string, and what it refuses has a fault in its form or a part out of range. The same holds
of signatures in scripts, for every scope. -/
theorem strict_encodings :
    (∀ sig : Signature, Signature.ofDer sig.toDer = .ok { sig with recoveryId := none }) ∧
      (∀ b sig, Signature.ofDer b = .ok sig → sig.toDer = b) ∧
      (∀ b, Signature.Positions.ofDer b = (Signature.ofDer b).mapError .refused ∧
        Signature.Positions.ofDer b ≠ .error .outOfBounds) ∧
      (∀ b reason, Signature.ofDer b = .error reason →
        (∃ fault, reason = .malformedDer fault) ∨
          ∃ part, reason = .outOfRange (.signaturePart part)) ∧
      (∀ (r s : Scalar) (scope : UInt8),
        ScopedSignature.ofScript (ScopedSignature.toScript ⟨⟨r, s, none⟩, scope⟩) =
          .ok ⟨⟨r, s, none⟩, scope⟩) ∧
      ∀ b t, ScopedSignature.ofScript b = .ok t → t.toScript = b := by
  refine ⟨?_, ?_, ?_, ?_, ?_, ?_⟩
  · intro sig
    exact Signature.ofDer_eq_ok_iff.mpr ⟨rfl, rfl⟩
  · intro b sig h
    exact (Signature.ofDer_eq_ok_iff.mp h).2.symm
  · intro b
    refine ⟨Signature.Positions.ofDer_eq b, ?_⟩
    rw [Signature.Positions.ofDer_eq]
    cases Signature.ofDer b <;> exact nofun
  · intro b reason h
    exact Signature.fault_or_part_of_ofDer h
  · intro r s scope
    exact ScopedSignature.ofScript_eq_ok_iff.mpr ⟨rfl, rfl⟩
  · intro b t h
    exact (ScopedSignature.ofScript_eq_ok_iff.mp h).2.symm

/-- The signature of the parts 128, whose body begins with a zero byte, and two. -/
def paddedSignature : Signature :=
  ⟨⟨128, by decide, by decide⟩, ⟨2, by decide, by decide⟩, none⟩

/-- The encoding with a needed zero byte is read and written back, with and without a scope, and the
one whose second part has a needless zero byte is refused. -/
theorem strict_encodings_padded :
    (Signature.ofDer [0x30, 0x07, 0x02, 0x02, 0x00, 0x80, 0x02, 0x01, 0x02] = .ok paddedSignature ∧
        paddedSignature.toDer = [0x30, 0x07, 0x02, 0x02, 0x00, 0x80, 0x02, 0x01, 0x02]) ∧
      (ScopedSignature.ofScript [0x30, 0x07, 0x02, 0x02, 0x00, 0x80, 0x02, 0x01, 0x02, 0x41] =
          .ok ⟨paddedSignature, 0x41⟩ ∧
        ScopedSignature.toScript ⟨paddedSignature, 0x41⟩ =
          [0x30, 0x07, 0x02, 0x02, 0x00, 0x80, 0x02, 0x01, 0x02, 0x41]) ∧
      ∃ fault, Signature.ofDer [0x30, 0x08, 0x02, 0x02, 0x00, 0x80, 0x02, 0x02, 0x00, 0x02] =
        .error (.malformedDer fault) := by
  obtain ⟨-, hder, -, hfault, -, hscript⟩ := strict_encodings
  have hread : Signature.ofDer [0x30, 0x07, 0x02, 0x02, 0x00, 0x80, 0x02, 0x01, 0x02] =
      .ok paddedSignature := by rfl
  have hscoped : ScopedSignature.ofScript
      [0x30, 0x07, 0x02, 0x02, 0x00, 0x80, 0x02, 0x01, 0x02, 0x41] =
        .ok ⟨paddedSignature, 0x41⟩ := by rfl
  have hrefused : Signature.ofDer [0x30, 0x08, 0x02, 0x02, 0x00, 0x80, 0x02, 0x02, 0x00, 0x02] =
      .error (.malformedDer .paddedInteger) := by rfl
  refine ⟨⟨hread, hder _ _ hread⟩, ⟨hscoped, hscript _ _ hscoped⟩, ?_⟩
  rcases hfault _ _ hrefused with ⟨fault, h⟩ | ⟨part, h⟩
  · exact ⟨fault, hrefused.trans (congrArg Except.error h)⟩
  · cases h

end Secp
