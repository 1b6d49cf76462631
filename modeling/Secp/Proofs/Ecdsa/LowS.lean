import Secp.Proofs.Ecdsa.Nonces
import Secp.Proofs.Ecdsa.Recover

/-!
# Low second parts

A signature and the one with the opposite second part are genuine for the same keys, as the opposite
point fits instead, which has the same abscissa. Its ordinate has the other parity, so an id
recovers from the one what the id with the other parity recovers from the other, be it a key or a
refusal. Signing decides on a nonce before it makes the second part low, so it draws the same nonce
whether or not that is asked for.
-/

namespace Secp

open Curve

namespace Signature

/-- The signature with the opposite second part, and with the other parity. -/
def opposite (sig : Signature) : Signature :=
  { sig with s := sig.s.neg, recoveryId := sig.recoveryId.map otherParity }

/-- A signature is made low by taking its opposite where it is high. -/
theorem toLowS_eq (sig : Signature) :
    sig.toLowS = if sig.hasLowS then sig else sig.opposite := rfl

/-- A low signature is left as it is. -/
theorem toLowS_of_hasLowS {sig : Signature} (h : sig.hasLowS = true) : sig.toLowS = sig := if_pos h

/-- A high signature is replaced by its opposite. -/
theorem toLowS_of_not_hasLowS {sig : Signature} (h : ¬ sig.hasLowS = true) :
    sig.toLowS = sig.opposite := if_neg h

/-- The first part stays. -/
@[simp] theorem r_toLowS (sig : Signature) : sig.toLowS.r = sig.r := by
  unfold toLowS
  split <;> rfl

/-- The second part is made low. -/
@[simp] theorem s_toLowS (sig : Signature) : sig.toLowS.s = sig.s.toLow := by
  unfold toLowS Scalar.toLow hasLowS
  split <;> rfl

/-- What is made low is low. -/
theorem hasLowS_toLowS (sig : Signature) : sig.toLowS.hasLowS = true := by
  have hlow := sig.s.two_mul_toLow_le
  rw [hasLowS, s_toLowS, Scalar.isLow, decide_eq_true_iff, halfOrder]
  omega

/-- A signature without a recovery id has none when it is low. -/
theorem toLowS_mk_none (r s : Scalar) : toLowS ⟨r, s, none⟩ = ⟨r, s.toLow, none⟩ := by
  unfold toLowS Scalar.toLow hasLowS
  dsimp only
  split <;> rfl

/-- The id with the other parity differs in bit zero. -/
theorem val_otherParity (id : Fin 4) : (otherParity id).val = id.val ^^^ 1 := by
  revert id
  decide

/-- The id with the other parity stands for the same abscissa. -/
theorem otherParity_div_two (id : Fin 4) : (otherParity id).val / 2 = id.val / 2 := by
  revert id
  decide

/-- The id with the other parity is odd where the id is not. -/
theorem decide_otherParity_odd (id : Fin 4) :
    decide ((otherParity id).val % 2 = 1) = !decide (id.val % 2 = 1) := by
  revert id
  decide

end Signature

namespace Ecdsa

open Signature (otherParity)

/-- The opposite element fits a first part when the element does. -/
theorem hasResidue_neg_iff {r : Nat} {g : PointGroup} : HasResidue r (-g) ↔ HasResidue r g := by
  refine ⟨fun h ↦ ?_, HasResidue.neg⟩
  rw [← neg_neg g]
  exact h.neg

/-- The opposite point fits the opposite signature. -/
theorem balanced_opposite_iff {digest : Int} {sig : Signature} {nonce key : PointGroup} :
    Balanced digest sig.opposite (-nonce) key ↔ Balanced digest sig nonce key := by
  rw [Balanced, Balanced, Signature.opposite, Scalar.cast_neg, neg_smul, smul_neg, neg_neg]

/-- A signature and its opposite are genuine for the same keys. -/
theorem genuine_opposite_iff {digest : Int} {sig : Signature} {key : PointGroup} :
    Genuine digest sig.opposite key ↔ Genuine digest sig key := by
  have hr : sig.opposite.r = sig.r := rfl
  rw [Genuine, Genuine, neg_surjective.exists]
  simp only [hr, hasResidue_neg_iff, balanced_opposite_iff]

/-- A signature and its opposite verify with the same keys. -/
theorem verify_opposite (digest : Int) (sig : Signature) (key : Base) :
    verify digest sig.opposite key = verify digest sig key := by
  rw [Bool.eq_iff_iff, verify_iff, verify_iff]
  simp only [genuine_opposite_iff]

/-- The id with the other parity names the opposite point. -/
theorem names_otherParity_iff {id : Fin 4} {r : Scalar} {nonce : PointGroup} :
    Names (otherParity id) r (-nonce) ↔ Names id r nonce := by
  have habscissa : namedAbscissa (otherParity id) r = namedAbscissa id r := by
    rw [namedAbscissa, namedAbscissa, Signature.otherParity_div_two]
  rw [Names, Names, habscissa, Signature.decide_otherParity_odd, abscissaAndParity_neg]
  cases abscissaAndParity nonce with
  | none => simp
  | some named => simp [Prod.ext_iff]

/-- What an id recovers, the id with the other parity recovers from the opposite signature. -/
theorem recoverWith_opposite (id : Fin 4) (digest : Int) (sig : Signature) :
    recoverWith (otherParity id) digest sig.opposite = recoverWith id digest sig := by
  have hr : sig.opposite.r = sig.r := rfl
  cases h : recoverWith id digest sig with
  | ok q =>
    obtain ⟨nonce, key, hnames, hbalanced, hkey, rfl⟩ := recoverWith_eq_ok_iff.mp h
    exact recoverWith_eq_ok_iff.mpr ⟨-nonce, key, names_otherParity_iff.mpr hnames,
      balanced_opposite_iff.mpr hbalanced, hkey, rfl⟩
  | error fault =>
    rw [recoverWith_eq_error_iff] at h ⊢
    rw [neg_surjective.forall, neg_surjective.exists, hr]
    simpa only [names_otherParity_iff, balanced_opposite_iff] using h

/-- A byte that is an id stands for the other parity when bit zero is turned round. -/
theorem recover_xor_one {id : UInt8} (hid : id.toNat ≤ 3) (digest : Int) (sig : Signature) :
    recover (id ^^^ 1) digest sig.opposite = recover id digest sig := by
  have hlt : id.toNat < 4 := Nat.lt_succ_of_le hid
  have hother : (id ^^^ 1).toNat = (otherParity ⟨id.toNat, hlt⟩).val := by
    rw [Signature.val_otherParity, UInt8.toNat_xor]
    rfl
  unfold recover
  simp only [hother, Fin.is_lt, dif_pos, hlt, Fin.eta]
  exact recoverWith_opposite _ digest sig

/-- A stored id recovers what it did before the signature was made low. -/
theorem recoverWith_toLowS (digest : Int) (sig : Signature) :
    sig.toLowS.recoveryId.map (recoverWith · digest sig.toLowS) =
      sig.recoveryId.map (recoverWith · digest sig) := by
  rw [Signature.toLowS_eq]
  split
  · rfl
  · change (sig.recoveryId.map otherParity).map _ = _
    rw [Option.map_map]
    congr 1
    exact funext fun id ↦ recoverWith_opposite id digest sig

/-- A signature that is made low verifies with the keys it did. -/
theorem verify_toLowS (digest : Int) (sig : Signature) (key : Base) :
    verify digest sig.toLowS key = verify digest sig key := by
  rw [Signature.toLowS_eq]
  split
  · rfl
  · exact verify_opposite digest sig key

/-- Asked for a low second part, a nonce gives the low form of what it gives otherwise. -/
theorem signReduced?_low (e : Int) (key nonce : Scalar) :
    signReduced? e key nonce ⟨true⟩ = (signReduced? e key nonce ⟨false⟩).map Signature.toLowS := by
  ext sig
  rw [Option.map_eq_some_iff]
  simp only [signReduced?_eq_some_iff]
  constructor
  · rintro ⟨r, s, hr, hs, rfl⟩
    exact ⟨_, ⟨r, s, hr, hs, rfl⟩, Signature.toLowS_mk_none r s⟩
  · rintro ⟨_, ⟨r, s, hr, hs, rfl⟩, rfl⟩
    exact ⟨r, s, hr, hs, Signature.toLowS_mk_none r s⟩

/-- Asked for a low second part, a draw is accepted for the low form of what it gives otherwise. -/
theorem accept_low (key : Scalar) (e : Int) (bytes : Bytes) :
    accept key e ⟨true⟩ bytes = (accept key e ⟨false⟩ bytes).map Signature.toLowS := by
  rw [accept, accept, Option.map_bind]
  exact congrArg (Option.bind _) (funext (signReduced?_low e key))

/-- Asked for a low second part, every attempt gives the low form of what it gives otherwise. -/
theorem attempt_low (key : Scalar) (e : Int) (i : Nat) :
    attempt key e ⟨true⟩ i = (attempt key e ⟨false⟩ i).map (Except.map Signature.toLowS) := by
  unfold attempt
  split
  · rw [accept_low, Option.map_map, Option.map_map]
    rfl
  · rfl

/-- Asked for a low second part, signing makes the low form of what it makes otherwise. -/
theorem sign_low (digest : Int) (key : Scalar) :
    sign digest key ⟨true⟩ = (sign digest key ⟨false⟩).map Signature.toLowS := by
  have hsettles : Settles (attempt key (reduceDigest digest) ⟨false⟩) (sign digest key ⟨false⟩) :=
    sign_eq_iff.mp rfl
  rw [sign_eq_iff, funext (attempt_low key (reduceDigest digest))]
  exact hsettles.map _

/-- A signature that is made low keeps its first part, has a second part from one to half the
order, and changes no more. It verifies with the same keys, and where it was high every id recovers
what the id with the other parity recovers from it now, so that a stored id still gives the same.
Signing that is asked for a low second part refuses where it does otherwise, and makes the low form
of what it makes otherwise. -/
theorem low_s_sound (digest : Int) (sig : Signature) :
    sig.toLowS.r = sig.r ∧ (1 ≤ sig.toLowS.r.val ∧ sig.toLowS.r.val ≤ order - 1) ∧
    (1 ≤ sig.toLowS.s.val ∧ sig.toLowS.s.val ≤ order - 1 ∧ sig.toLowS.s.val ≤ halfOrder) ∧
    sig.toLowS.toLowS = sig.toLowS ∧
    (∀ key : Base, verify digest sig.toLowS key = verify digest sig key) ∧
    (sig.hasLowS = false → ∀ id : UInt8, id.toNat ≤ 3 →
      recover (id ^^^ 1) digest sig.toLowS = recover id digest sig) ∧
    sig.toLowS.recoveryId.map (recoverWith · digest sig.toLowS) =
      sig.recoveryId.map (recoverWith · digest sig) ∧
    ∀ key : Int,
      (Scalar.ofInt .privateKey key >>= (sign digest · ⟨true⟩)) =
        (Scalar.ofInt .privateKey key >>= (sign digest · ⟨false⟩)).map Signature.toLowS := by
  have hlow := sig.hasLowS_toLowS
  refine ⟨sig.r_toLowS, ⟨sig.toLowS.r.pos, Nat.le_pred_of_lt sig.toLowS.r.lt⟩,
    ⟨sig.toLowS.s.pos, Nat.le_pred_of_lt sig.toLowS.s.lt, of_decide_eq_true hlow⟩,
    Signature.toLowS_of_hasLowS hlow, verify_toLowS digest sig, ?_, recoverWith_toLowS digest sig,
    ?_⟩
  · intro hhigh id hid
    rw [Signature.toLowS_of_not_hasLowS (Bool.not_eq_true _ ▸ hhigh)]
    exact recover_xor_one hid digest sig
  · intro key
    rw [map_bind_eq]
    exact congrArg (Scalar.ofInt .privateKey key >>= ·) (funext (sign_low digest))

/-- A high signature of the digest zero, from which the id one recovers a key. -/
def highSignature : Signature :=
  { generatorSignature with s := generatorSignature.s.neg, recoveryId := some ⟨1, by decide⟩ }

/-- The key that the id one recovers from a high signature is recovered by the id zero when it is
low. -/
theorem low_s_sound_generator :
    highSignature.hasLowS = false ∧ (1 : UInt8).toNat ≤ 3 ∧
      (recover 1 0 highSignature).isOk = true ∧
      recover (1 ^^^ 1) 0 highSignature.toLowS = recover 1 0 highSignature := by
  have hhigh : highSignature.hasLowS = false := by decide +kernel
  have hid : (1 : UInt8).toNat ≤ 3 := by decide
  obtain ⟨-, -, -, -, -, hrecover, -⟩ := low_s_sound 0 highSignature
  exact ⟨hhigh, hid, by decide +kernel, hrecover hhigh 1 hid⟩

end Ecdsa

end Secp
