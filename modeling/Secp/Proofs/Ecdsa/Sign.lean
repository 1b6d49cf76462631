import Secp.Ecdsa.Sign
import Secp.Proofs.Curve.Scalar
import Secp.Proofs.Ecdsa.Genuine
import Secp.Proofs.Outcome

/-!
# Signatures that are made verify

With a nonce a signature is made exactly when neither of its parts is zero, and what is made is
genuine for the key. Where the second part is replaced by its opposite, the opposite of the nonce's
point fits, which has the same abscissa. Signing takes what a drawn nonce gives, so it makes genuine
signatures too.
-/

namespace Secp.Drbg

/-- What is drawn was accepted. -/
theorem exists_accept_of_drawUntil {α : Type} {length : Nat} {accept : Bytes → Option α}
    {d : Drbg} {a : α} (h : d.drawUntil length accept = .ok a) :
    ∃ bytes, accept bytes = some a := by
  fun_induction drawUntil length accept d with
  | case1 d fault hgenerate => cases h
  | case2 d out next hgenerate b haccept =>
    cases h
    exact ⟨out, haccept⟩
  | case3 d out next hgenerate haccept ih => exact ih h

end Secp.Drbg

namespace Secp.Ecdsa

open Curve

/-- The first part of a signature: the abscissa of the nonce's point modulo the order. -/
def firstPart (nonce : Scalar) : Nat :=
  (Affine.ofGroup (nonce.val • generatorElement)).x.val % order

/-- The second part of a signature of a reduced digest, before it is made low. -/
def secondPart (e : Int) (key nonce : Scalar) : ZMod order :=
  (nonce.val : ZMod order)⁻¹ * (e + firstPart nonce * key.val)

/-- The opposite element has the same abscissa. -/
theorem HasResidue.neg {r : Nat} {g : PointGroup} (h : HasResidue r g) : HasResidue r (-g) := by
  cases g with
  | zero => exact h
  | some x y hxy => exact h

/-- The nonce's point has the first part for an abscissa modulo the order. -/
theorem hasResidue_firstPart (nonce : Scalar) :
    HasResidue (firstPart nonce) (nonce.val • generatorElement) := by
  have hne : nonce.val • generatorElement ≠ 0 :=
    nsmul_ne_zero generatorElement_ne_zero (Nat.ne_of_gt nonce.pos) nonce.lt
  unfold firstPart
  cases hpoint : nonce.val • generatorElement with
  | zero => exact absurd hpoint hne
  | some x y h => rfl

/-- The second part is the remainder that is computed. -/
theorem val_secondPart {e w : Int} {key nonce r : Scalar}
    (hw : (w : ZMod order) = (nonce.val : ZMod order)⁻¹) (hr : r.val = firstPart nonce) :
    w * (r.val * key.val + e) % order = ((secondPart e key nonce).val : Int) := by
  have hcast : ((w * (r.val * key.val + e) : Int) : ZMod order) = secondPart e key nonce := by
    push_cast
    rw [hw, hr, secondPart, add_comm]
  rw [← hcast, ZMod.val_intCast]

/-- A signature is made of the two parts, of which the second may be made low. -/
theorem signReduced?_eq_some_iff {e : Int} {key nonce : Scalar} {options : SignOptions}
    {sig : Signature} :
    signReduced? e key nonce options = some sig ↔
      ∃ r s : Scalar, r.val = firstPart nonce ∧ s.val = (secondPart e key nonce).val ∧
        sig = ⟨r, if options.forceLowS then s.toLow else s, none⟩ := by
  obtain ⟨w, hw, hinv⟩ := nonce.exists_inverse?
  have hpoint := Base.mul_eq Base.point_generator nonce.val
  have hresidue := hasResidue_firstPart nonce
  rw [natCast_zsmul] at hpoint
  unfold signReduced?
  rw [hpoint, hw]
  cases hg : nonce.val • generatorElement with
  | zero =>
    rw [hg] at hresidue
    exact hresidue.elim
  | some x y h =>
    rw [hg] at hresidue
    have hx : x.val % order = firstPart nonce := hresidue
    change (Scalar.ofInt? (x.val % order : Nat)).bind _ = some sig ↔ _
    rw [hx, Option.bind_eq_some_iff]
    refine exists_congr fun r ↦ ?_
    rw [Scalar.ofInt?_natCast_eq_some_iff]
    constructor
    · rintro ⟨hr, hrest⟩
      change (Scalar.ofInt? (w * (r.val * key.val + e) % order)).bind _ = some sig at hrest
      obtain ⟨s, hs, hsig⟩ := Option.bind_eq_some_iff.mp hrest
      rw [val_secondPart hinv hr, Scalar.ofInt?_natCast_eq_some_iff] at hs
      exact ⟨s, hr, hs, (Option.some.inj hsig).symm⟩
    · rintro ⟨s, hr, hs, rfl⟩
      refine ⟨hr, ?_⟩
      change (Scalar.ofInt? (w * (r.val * key.val + e) % order)).bind _ = some _
      refine Option.bind_eq_some_iff.mpr ⟨s, ?_, rfl⟩
      rw [val_secondPart hinv hr, Scalar.ofInt?_natCast_eq_some_iff]
      exact hs

/-- A nonce gives a signature exactly when neither part is zero. -/
theorem exists_signReduced?_iff {e : Int} {key nonce : Scalar} {options : SignOptions} :
    (∃ sig, signReduced? e key nonce options = some sig) ↔
      firstPart nonce ≠ 0 ∧ secondPart e key nonce ≠ 0 := by
  have hfirst : firstPart nonce < order := Nat.mod_lt _ (by decide)
  rw [← Scalar.exists_val_eq_iff hfirst, ne_eq, ← ZMod.val_eq_zero, ← ne_eq,
    ← Scalar.exists_val_eq_iff (ZMod.val_lt _)]
  constructor
  · rintro ⟨sig, hsig⟩
    obtain ⟨r, s, hr, hs, -⟩ := signReduced?_eq_some_iff.mp hsig
    exact ⟨⟨r, hr⟩, ⟨s, hs⟩⟩
  · rintro ⟨⟨r, hr⟩, ⟨s, hs⟩⟩
    exact ⟨_, signReduced?_eq_some_iff.mpr ⟨r, s, hr, hs, rfl⟩⟩

/-- The second part or its opposite fits the nonce's point or its opposite. -/
theorem balanced_of_sign {digest : Int} {sig : Signature} {key nonce : Scalar} {s : ZMod order}
    (hr : sig.r.val = firstPart nonce) (hs : s = secondPart (reduceDigest digest) key nonce)
    (hsig : (sig.s.val : ZMod order) = s ∨ (sig.s.val : ZMod order) = -s) :
    ∃ g, HasResidue sig.r.val g ∧ Balanced digest sig g (key.val • generatorElement) := by
  have hresidue := hasResidue_firstPart nonce
  rw [← hr] at hresidue
  have hbalance : s • nonce.val • generatorElement =
      (reduceDigest digest : ZMod order) • generatorElement +
        (sig.r.val : ZMod order) • key.val • generatorElement := by
    rw [hs, secondPart, hr, ← Nat.cast_smul_eq_nsmul (ZMod order) nonce.val,
      ← Nat.cast_smul_eq_nsmul (ZMod order) key.val, smul_smul, smul_smul, ← add_smul,
      mul_comm _ (nonce.val : ZMod order), mul_inv_cancel_left₀ nonce.cast_ne_zero]
  rcases hsig with hsig | hsig
  · refine ⟨_, hresidue, ?_⟩
    rw [Balanced, hsig, hbalance]
  · refine ⟨_, hresidue.neg, ?_⟩
    rw [Balanced, hsig, neg_smul, smul_neg, neg_neg, hbalance]

/-- What is made of a reduced digest is genuine for the key, and low where that is asked for. -/
theorem genuine_of_signReduced? {digest : Int} {key nonce : Scalar} {options : SignOptions}
    {sig : Signature} (h : signReduced? (reduceDigest digest) key nonce options = some sig) :
    Genuine digest sig (key.val • generatorElement) ∧
      (options.forceLowS = true → 2 * sig.s.val ≤ order) := by
  obtain ⟨r, s, hr, hs, rfl⟩ := signReduced?_eq_some_iff.mp h
  have hkey : key.val • generatorElement ≠ 0 :=
    nsmul_ne_zero generatorElement_ne_zero (Nat.ne_of_gt key.pos) key.lt
  have hcast : (s.val : ZMod order) = secondPart (reduceDigest digest) key nonce := by
    rw [hs, ZMod.natCast_zmod_val]
  refine ⟨⟨hkey, balanced_of_sign hr hcast ?_⟩, ?_⟩
  · dsimp only
    split
    · unfold Scalar.toLow
      split
      · exact .inl rfl
      · exact .inr s.cast_neg
    · exact .inl rfl
  · intro hforce
    dsimp only
    rw [if_pos hforce]
    exact s.two_mul_toLow_le

/-- What is genuine for a multiple of the generator verifies with the key that is that multiple. -/
theorem verify_of_genuine {digest : Int} {sig : Signature} {key : Scalar} {b : Base}
    (hb : b.point = Base.generator.mul key.val)
    (h : Genuine digest sig (key.val • generatorElement)) : verify digest sig b = true := by
  refine verify_iff.mpr ⟨_, ?_, h⟩
  rw [hb, Base.mul_eq Base.point_generator, natCast_zsmul]

/-- A signature that verifies with a key, has its parts in range, and is low where that is asked
for. -/
structure Sound (digest : Int) (key : Scalar) (options : SignOptions) (sig : Signature) : Prop where
  verifies : ∀ b : Base, b.point = Base.generator.mul key.val → verify digest sig b = true
  first_range : 1 ≤ sig.r.val ∧ sig.r.val ≤ order - 1
  second_range : 1 ≤ sig.s.val ∧ sig.s.val ≤ order - 1
  low : options.forceLowS = true → 2 * sig.s.val ≤ order

/-- What is made of a reduced digest is sound. -/
theorem sound_of_signReduced? {digest : Int} {key nonce : Scalar} {options : SignOptions}
    {sig : Signature} (h : signReduced? (reduceDigest digest) key nonce options = some sig) :
    Sound digest key options sig := by
  obtain ⟨hgenuine, hlow⟩ := genuine_of_signReduced? h
  constructor
  · intro b hb
    exact verify_of_genuine hb hgenuine
  · exact ⟨sig.r.pos, Nat.le_pred_of_lt sig.r.lt⟩
  · exact ⟨sig.s.pos, Nat.le_pred_of_lt sig.s.lt⟩
  · exact hlow

/-- Signing with a nonce makes what the reduced digest gives. -/
theorem signWithNonce_eq_ok_iff {digest : Int} {key nonce : Scalar} {options : SignOptions}
    {sig : Signature} :
    signWithNonce digest key nonce options = .ok sig ↔
      signReduced? (reduceDigest digest) key nonce options = some sig := by
  unfold signWithNonce
  cases signReduced? (reduceDigest digest) key nonce options with
  | none => exact ⟨nofun, nofun⟩
  | some sig' => rw [Except.ok.injEq, Option.some.injEq]

/-- Signing makes what some nonce gives. -/
theorem exists_nonce_of_sign {digest : Int} {key : Scalar} {options : SignOptions}
    {sig : Signature} (h : sign digest key options = .ok sig) :
    ∃ nonce, signReduced? (reduceDigest digest) key nonce options = some sig := by
  unfold sign at h
  obtain ⟨d, -, hdraw⟩ := bind_eq_ok_iff.mp h
  obtain ⟨bytes, hbytes⟩ := Drbg.exists_accept_of_drawUntil hdraw
  obtain ⟨nonce, -, hnonce⟩ := Option.bind_eq_some_iff.mp hbytes
  exact ⟨nonce, hnonce⟩

/-- Signing with a nonce succeeds exactly when neither part of the signature is zero, and every
signature that is made, with a given nonce or a drawn one, is sound. -/
theorem signatures_verify (digest : Int) (key : Scalar) (options : SignOptions) :
    (∀ nonce : Scalar,
      ((∃ sig, signWithNonce digest key nonce options = .ok sig) ↔
        firstPart nonce ≠ 0 ∧ secondPart (reduceDigest digest) key nonce ≠ 0) ∧
      ∀ sig, signWithNonce digest key nonce options = .ok sig → Sound digest key options sig) ∧
    ∀ sig, sign digest key options = .ok sig → Sound digest key options sig := by
  refine ⟨?_, ?_⟩
  · intro nonce
    constructor
    · rw [← exists_signReduced?_iff]
      exact exists_congr fun sig ↦ signWithNonce_eq_ok_iff
    · intro sig h
      exact sound_of_signReduced? (signWithNonce_eq_ok_iff.mp h)
  · intro sig h
    obtain ⟨nonce, hnonce⟩ := exists_nonce_of_sign h
    exact sound_of_signReduced? hnonce

/-- The scalar one. -/
def scalarOne : Scalar := ⟨1, by decide, by decide⟩

/-- The digest one is signed by the key one with the nonce one and with a drawn one, and both
signatures are sound. -/
theorem signatures_verify_one :
    (∃ sig, signWithNonce 1 scalarOne scalarOne {} = .ok sig ∧ Sound 1 scalarOne {} sig) ∧
      ∃ sig, sign 1 scalarOne {} = .ok sig ∧ Sound 1 scalarOne {} sig := by
  have hnonce : (signWithNonce 1 scalarOne scalarOne {}).isOk = true := by decide +kernel
  have hdrawn : (sign 1 scalarOne {}).isOk = true := by decide +kernel
  obtain ⟨hwith, hsign⟩ := signatures_verify 1 scalarOne {}
  constructor
  · cases h : signWithNonce 1 scalarOne scalarOne {} with
    | error fault =>
      rw [h] at hnonce
      cases hnonce
    | ok sig => exact ⟨sig, rfl, (hwith scalarOne).2 sig h⟩
  · cases h : sign 1 scalarOne {} with
    | error fault =>
      rw [h] at hdrawn
      cases hdrawn
    | ok sig => exact ⟨sig, rfl, hsign sig h⟩

end Secp.Ecdsa
