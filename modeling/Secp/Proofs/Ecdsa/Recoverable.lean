import Secp.Key.Public
import Secp.Proofs.Ecdsa.Nonces
import Secp.Proofs.Ecdsa.Recover
import Secp.Proofs.Signature.Compact

/-!
# Recoverable signatures give back the signer's key

What signing makes is genuine for the signer's key, so one of the four recovery ids gives the key
back, and the search finds it. Recoverable signing is thus refused only where signing is. The
compact form carries the id and both parts unchanged, so the key is recovered from it.
-/

namespace Secp.Ecdsa

open Curve

/-- Signing attaches no recovery id. -/
theorem recoveryId_of_sign {digest : Int} {key : Scalar} {options : SignOptions} {sig : Signature}
    (h : sign digest key options = .ok sig) : sig.recoveryId = none := by
  obtain ⟨nonce, hnonce⟩ := exists_nonce_of_sign h
  obtain ⟨r, s, -, -, rfl⟩ := signReduced?_eq_some_iff.mp hnonce
  rfl

/-- Some recovery id gives the key back that a signature is made with. -/
theorem exists_recoverWith_of_sign {digest : Int} {key : Scalar} {options : SignOptions}
    {sig : Signature} (h : sign digest key options = .ok sig) :
    ∃ id, recoverWith id digest sig = .ok (Base.generator.mul key.val) := by
  obtain ⟨nonce, hnonce⟩ := exists_nonce_of_sign h
  have hkey := Base.mul_eq Base.point_generator key.val
  rw [natCast_zsmul] at hkey
  exact exists_recoverWith_iff.mpr ⟨_, hkey, (genuine_of_signReduced? hnonce).1⟩

/-- Recoverable signing makes what signing makes, with the id that gives the key back. -/
theorem signRecoverable_eq_ok_iff {digest : Int} {key : Scalar} {options : SignOptions}
    {sig : Signature} :
    signRecoverable digest key options = .ok sig ↔
      ∃ id, sig.recoveryId = some id ∧
        sign digest key options = .ok { sig with recoveryId := none } ∧
        recoverWith id digest sig = .ok (Base.generator.mul key.val) := by
  unfold signRecoverable
  simp only [bind_eq_ok_iff, recoveryId_eq_ok_iff]
  constructor
  · rintro ⟨plain, hplain, id, hid, ⟨⟩⟩
    have hnone := recoveryId_of_sign hplain
    refine ⟨id, rfl, ?_, hid⟩
    rw [hplain, ← hnone]
  · rintro ⟨id, hsome, hplain, hid⟩
    refine ⟨_, hplain, id, hid, ?_⟩
    rw [← hsome]

/-- Recoverable signing is refused for what signing is refused for. -/
theorem signRecoverable_eq_error_iff {digest : Int} {key : Scalar} {options : SignOptions}
    {fault : Error} :
    signRecoverable digest key options = .error fault ↔ sign digest key options = .error fault := by
  unfold signRecoverable
  rw [bind_eq_error_iff]
  refine or_iff_left ?_
  rintro ⟨sig, hsig, hrest⟩
  obtain ⟨id, hid⟩ := exists_recoverWith_of_sign hsig
  rw [recoveryId_eq_ok_iff.mpr hid] at hrest
  cases hrest

/-- Recovery by the byte of an id is recovery by the id. -/
theorem recover_ofNat_id (id : Fin 4) (digest : Int) (sig : Signature) :
    recover (UInt8.ofNat id.val) digest sig = recoverWith id digest sig := by
  have hbyte : (UInt8.ofNat id.val).toNat < 4 := by
    rw [Signature.toNat_ofNat_id]
    exact id.isLt
  have hid : (⟨(UInt8.ofNat id.val).toNat, hbyte⟩ : Fin 4) = id :=
    Fin.ext (Signature.toNat_ofNat_id id)
  rw [recover, dif_pos hbyte, hid]

/-- The key is recovered from the compact form of a signature that is made recoverable. -/
theorem recoverCompact_of_signRecoverable {key : PrivateKey} {digest : Bytes} {sig : Signature}
    (h : key.signRecoverable digest = .ok sig) :
    PublicKey.recoverCompact digest sig.toCompact = .ok (PublicKey.ofPrivate key) := by
  obtain ⟨id, hsome, -, hid⟩ := signRecoverable_eq_ok_iff.mp h
  have hread : Signature.ofCompact sig.toCompact = .ok sig :=
    Signature.ofCompact_eq_ok_iff.mpr rfl
  unfold PublicKey.recoverCompact
  rw [hread, ok_bind, hsome]
  dsimp only
  rw [PublicKey.recover, recover_ofNat_id, hid]
  rfl

/-- Recoverable signing is refused exactly where signing is, for the same reason, which is never
that no recovery id is found. What it makes is what signing makes, with one of the four ids, and the
signer's public key is recovered from the compact form of it. -/
theorem recoverable_signatures :
    (∀ (digest : Int) (key : Scalar) (options : SignOptions),
      (∀ fault, signRecoverable digest key options = .error fault ↔
        sign digest key options = .error fault) ∧
      signRecoverable digest key options ≠ .error .recoveryIdNotFound ∧
      ∀ sig, signRecoverable digest key options = .ok sig →
        ∃ id : Fin 4, sig.recoveryId = some id ∧
          sign digest key options = .ok { sig with recoveryId := none }) ∧
    ∀ (key : PrivateKey) (digest : Bytes) (sig : Signature),
      key.signRecoverable digest = .ok sig →
        PublicKey.recoverCompact digest sig.toCompact = .ok (PublicKey.ofPrivate key) := by
  refine ⟨fun digest key options ↦ ⟨fun fault ↦ signRecoverable_eq_error_iff, ?_, ?_⟩, ?_⟩
  · rw [ne_eq, signRecoverable_eq_error_iff, sign_eq_error_iff]
    rintro ⟨hfault, -⟩
    cases hfault
  · intro sig h
    obtain ⟨id, hsome, hplain, -⟩ := signRecoverable_eq_ok_iff.mp h
    exact ⟨id, hsome, hplain⟩
  · intro key digest sig h
    exact recoverCompact_of_signRecoverable h

/-- The key one signs the digest of one byte, and its public key is recovered from the compact
form. -/
theorem recoverable_signatures_one :
    ∃ (sig : Signature) (id : Fin 4),
      PrivateKey.signRecoverable ⟨scalarOne⟩ [1] = .ok sig ∧ sig.recoveryId = some id ∧
        PublicKey.recoverCompact [1] sig.toCompact = .ok (PublicKey.ofPrivate ⟨scalarOne⟩) := by
  obtain ⟨hsigning, hrecover⟩ := recoverable_signatures
  obtain ⟨hrefused, -, hmade⟩ := hsigning (Bytes.toNat [1]) scalarOne {}
  have hdrawn : (sign (Bytes.toNat [1]) scalarOne {}).isOk = true := by decide +kernel
  obtain ⟨plain, hplain⟩ := exists_eq_ok hdrawn
  cases h : signRecoverable (Bytes.toNat [1]) scalarOne {} with
  | error fault => cases hplain.symm.trans ((hrefused fault).mp h)
  | ok sig =>
    obtain ⟨id, hsome, -⟩ := hmade sig h
    exact ⟨sig, id, h, hsome, hrecover ⟨scalarOne⟩ [1] sig h⟩

end Secp.Ecdsa
