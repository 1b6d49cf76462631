import Secp.Proofs.Ecdsa.Seed
import Secp.Proofs.Ecdsa.Sign
import Secp.Proofs.Hash.Drbg

/-!
# Nonces are derived from the key and the digest

The seed of signing is the key and the magnitude of the reduced digest in 32 bytes each, and the
draws are the candidates that are derived from it. The signature is made with the first candidate
that is a scalar other than one and its opposite and leaves neither part of the signature zero.
There is none only when every candidate that the generator serves is rejected. For a digest that is
not negative the magnitude is the reduced digest itself, and the candidates are those of RFC 6979,
section 3.2.
-/

namespace Secp.Ecdsa

-- Powers of numbers are core's, whichever others are in scope.
attribute [local instance(2000)] instPowNat

open Curve

/-- A number that fits in 32 bytes is its own leading bits. -/
theorem leadingBits_natCast {n : Nat} (h : n < 256 ^ 32) : leadingBits n = n := by
  have hpow : (256 : Nat) ^ 32 = 2 ^ 256 := by decide
  have hbits : ¬ 256 < Number.bitLength n := by
    rw [Number.lt_bitLength_iff, ← hpow]
    exact Nat.not_le.mpr h
  have hbytes : ¬ 0 < 8 * Number.byteLength n - 256 := by
    unfold Number.byteLength
    omega
  rw [leadingBits, Int.natAbs_natCast, bitLength_order]
  exact if_neg hbytes

/-- A draw is a nonce when it denotes a scalar other than one and its opposite. -/
theorem candidate?_eq_some_iff {b : Bytes} (hlength : b.length = 32) {nonce : Scalar} :
    candidate? b = some nonce ↔
      nonce.val = Bytes.toNat b ∧ 2 ≤ nonce.val ∧ nonce.val ≤ order - 2 := by
  have hlt : Bytes.toNat b < 256 ^ 32 := hlength ▸ Bytes.toNat_lt b
  have horder : 2 < order := by decide
  unfold candidate?
  dsimp only
  rw [leadingBits_natCast hlt]
  split
  · next hpassed =>
    refine ⟨nofun, ?_⟩
    omega
  · next hrange =>
    rw [Scalar.ofInt?_eq_some_iff]
    omega

/-- The key and the value behind the candidate with a number, for a key and the magnitude of a
reduced digest. -/
def derivation (key : Scalar) (e i : Nat) : Derivation :=
  Derivation.next^[i] (.seeded (Bytes.bigEndian 32 key.val ++ Bytes.bigEndian 32 e))

/-- The candidate with a number is the nonce, which is neither one nor its opposite and makes a
signature. -/
structure UsableAt (key : Scalar) (e : Int) (i : Nat) (nonce : Scalar) : Prop where
  candidate : nonce.val = Bytes.toNat (derivation key e.natAbs i).candidate
  lower : 2 ≤ nonce.val
  upper : nonce.val ≤ order - 2
  first : firstPart nonce ≠ 0
  second : secondPart e key nonce ≠ 0

/-- The generator for a key and a reduced digest is seeded. -/
theorem seed_seedParts (key : Scalar) (e : Int) :
    Drbg.seed (seedParts e key).1 (seedParts e key).2 [] =
      .ok ((derivation key e.natAbs 0).toDrbg 1 {}) := by
  have hlength : Drbg.minEntropy ≤ (Bytes.bigEndian 32 key.val).length := by
    rw [Bytes.length_bigEndian]
    decide
  exact Derivation.seed_eq hlength _ _

/-- Its draws are the candidates, until it has served as many requests as it may. -/
theorem drawAt_derivation (key : Scalar) (e i : Nat) :
    ((derivation key e 0).toDrbg 1 {}).drawAt 32 i =
      if i < 2 ^ 32 then .ok (derivation key e i).candidate
      else .error (.reseedRequired (2 ^ 32)) := by
  rw [Derivation.drawAt_toDrbg _ (by decide)]
  exact if_congr Nat.one_add_le_iff rfl rfl

/-- What a draw is accepted for: the signature that it gives as a nonce. -/
def accept (key : Scalar) (e : Int) (options : SignOptions) (bytes : Bytes) : Option Signature :=
  (candidate? bytes).bind (signReduced? e key · options)

/-- A candidate is accepted for the signature of a usable nonce. -/
theorem accept_eq_some_iff {key : Scalar} {e : Int} {i : Nat} {options : SignOptions}
    {sig : Signature} :
    accept key e options (derivation key e.natAbs i).candidate = some sig ↔
      ∃ nonce, UsableAt key e i nonce ∧ signReduced? e key nonce options = some sig := by
  unfold accept
  rw [Option.bind_eq_some_iff]
  refine exists_congr fun nonce ↦ ?_
  rw [candidate?_eq_some_iff (Derivation.length_candidate _)]
  constructor
  · rintro ⟨⟨hcandidate, hlower, hupper⟩, hsig⟩
    obtain ⟨hfirst, hsecond⟩ := exists_signReduced?_iff.mp ⟨sig, hsig⟩
    exact ⟨⟨hcandidate, hlower, hupper, hfirst, hsecond⟩, hsig⟩
  · rintro ⟨husable, hsig⟩
    exact ⟨⟨husable.candidate, husable.lower, husable.upper⟩, hsig⟩

/-- A candidate is rejected when it is no usable nonce. -/
theorem accept_eq_none_iff {key : Scalar} {e : Int} {i : Nat} {options : SignOptions} :
    accept key e options (derivation key e.natAbs i).candidate = none ↔
      ∀ nonce, ¬ UsableAt key e i nonce := by
  rw [Option.eq_none_iff_forall_ne_some]
  constructor
  · intro h nonce husable
    obtain ⟨sig, hsig⟩ := exists_signReduced?_iff.mpr ⟨husable.first, husable.second⟩
    exact h sig (accept_eq_some_iff.mpr ⟨nonce, husable, hsig⟩)
  · intro h sig hsig
    obtain ⟨nonce, husable, -⟩ := accept_eq_some_iff.mp hsig
    exact h nonce husable

/-- What the candidate with a number settles. Beyond the requests that one seed serves there is
only a refusal. -/
def attempt (key : Scalar) (e : Int) (options : SignOptions) (i : Nat) :
    Option (Except Error Signature) :=
  if i < 2 ^ 32 then (accept key e options (derivation key e.natAbs i).candidate).map .ok
  else some (.error (.reseedRequired (2 ^ 32)))

/-- A signature is made of a usable nonce. -/
theorem attempt_eq_ok_iff {key : Scalar} {e : Int} {i : Nat} {options : SignOptions}
    {sig : Signature} :
    attempt key e options i = some (.ok sig) ↔
      i < 2 ^ 32 ∧
        ∃ nonce, UsableAt key e i nonce ∧ signReduced? e key nonce options = some sig := by
  unfold attempt
  split
  · next hserved =>
    rw [← accept_eq_some_iff, Option.map_eq_some_iff]
    constructor
    · rintro ⟨sig', hsig, ⟨⟩⟩
      exact ⟨hserved, hsig⟩
    · rintro ⟨-, hsig⟩
      exact ⟨sig, hsig, rfl⟩
  · next hbeyond => exact ⟨nofun, fun h ↦ absurd h.1 hbeyond⟩

/-- A refusal is for want of requests. -/
theorem attempt_eq_error_iff {key : Scalar} {e : Int} {i : Nat} {options : SignOptions}
    {fault : Error} :
    attempt key e options i = some (.error fault) ↔
      2 ^ 32 ≤ i ∧ fault = .reseedRequired (2 ^ 32) := by
  unfold attempt
  split
  · next hserved =>
    rw [Option.map_eq_some_iff]
    constructor
    · rintro ⟨sig, -, ⟨⟩⟩
    · rintro ⟨hbeyond, -⟩
      exact absurd hserved (Nat.not_lt.mpr hbeyond)
  · next hbeyond =>
    rw [Option.some.injEq, Except.error.injEq, eq_comm]
    exact ⟨fun h ↦ ⟨Nat.le_of_not_lt hbeyond, h⟩, And.right⟩

/-- Another candidate is needed when one that is served is not usable. -/
theorem attempt_eq_none_iff {key : Scalar} {e : Int} {i : Nat} {options : SignOptions} :
    attempt key e options i = none ↔ i < 2 ^ 32 ∧ ∀ nonce, ¬ UsableAt key e i nonce := by
  unfold attempt
  split
  · next hserved =>
    rw [Option.map_eq_none_iff, accept_eq_none_iff]
    exact ⟨fun h ↦ ⟨hserved, h⟩, And.right⟩
  · next hbeyond => exact ⟨nofun, fun h ↦ absurd h.1 hbeyond⟩

/-- Signing settles on the first candidate that settles anything. -/
theorem sign_eq_iff {digest : Int} {key : Scalar} {options : SignOptions}
    {outcome : Except Error Signature} :
    sign digest key options = outcome ↔
      Settles (attempt key (reduceDigest digest) options) outcome := by
  have hdrawn (e : Int) :
      (Drbg.seed (seedParts e key).1 (seedParts e key).2 [] >>=
        Drbg.drawUntil 32 (accept key e options)) =
      ((derivation key e.natAbs 0).toDrbg 1 {}).drawUntil 32 (accept key e options) := by
    rw [seed_seedParts, ok_bind]
  have hattempt (e : Int) : (fun i ↦ Drbg.verdict (accept key e options)
      (((derivation key e.natAbs 0).toDrbg 1 {}).drawAt 32 i)) = attempt key e options := by
    funext i
    rw [drawAt_derivation, attempt]
    split <;> rfl
  unfold sign
  dsimp only
  rw [← hattempt, ← Drbg.drawUntil_eq_iff, ← hdrawn]
  rfl

/-- Signing makes the signature of the first usable nonce. -/
theorem sign_eq_ok_iff {digest : Int} {key : Scalar} {options : SignOptions} {sig : Signature} :
    sign digest key options = .ok sig ↔
      ∃ i < 2 ^ 32, ∃ nonce, UsableAt key (reduceDigest digest) i nonce ∧
        (∀ j < i, ∀ earlier, ¬ UsableAt key (reduceDigest digest) j earlier) ∧
        signWithNonce digest key nonce options = .ok sig := by
  simp only [sign_eq_iff, Settles, attempt_eq_ok_iff, attempt_eq_none_iff, signWithNonce_eq_ok_iff]
  refine exists_congr fun i ↦ ?_
  constructor
  · rintro ⟨⟨hserved, nonce, husable, hsig⟩, hearlier⟩
    exact ⟨hserved, nonce, husable, fun j hj ↦ (hearlier j hj).2, hsig⟩
  · rintro ⟨hserved, nonce, husable, hearlier, hsig⟩
    exact ⟨⟨hserved, nonce, husable, hsig⟩, fun j hj ↦ ⟨hj.trans hserved, hearlier j hj⟩⟩

/-- Signing is refused exactly when no candidate that is served is usable. -/
theorem sign_eq_error_iff {digest : Int} {key : Scalar} {options : SignOptions} {fault : Error} :
    sign digest key options = .error fault ↔
      fault = .reseedRequired (2 ^ 32) ∧
        ∀ i < 2 ^ 32, ∀ nonce, ¬ UsableAt key (reduceDigest digest) i nonce := by
  simp only [sign_eq_iff, Settles, attempt_eq_error_iff, attempt_eq_none_iff]
  constructor
  · rintro ⟨i, ⟨hbeyond, hfault⟩, hearlier⟩
    exact ⟨hfault, fun j hj ↦ (hearlier j (hj.trans_le hbeyond)).2⟩
  · rintro ⟨hfault, hunusable⟩
    exact ⟨2 ^ 32, ⟨Nat.le_refl _, hfault⟩, fun j hj ↦ ⟨hj, hunusable j hj⟩⟩

/-- For a digest that is not negative, the draws of signing are the candidates derived from the key
and the reduced digest, a signature is made with the first usable one, and signing is refused only
when all that are served are rejected. -/
theorem nonces_derived {digest : Int} (hdigest : 0 ≤ digest) (key : Scalar) :
    ∃ e : Nat, reduceDigest digest = e ∧ e < order ∧
      (∃ d, Drbg.seed (seedParts e key).1 (seedParts e key).2 [] = .ok d ∧
        ∀ i, d.drawAt 32 i =
          if i < 2 ^ 32 then .ok (derivation key e i).candidate
          else .error (.reseedRequired (2 ^ 32))) ∧
      ∀ options,
        (∀ sig, sign digest key options = .ok sig ↔
          ∃ i < 2 ^ 32, ∃ nonce, UsableAt key e i nonce ∧
            (∀ j < i, ∀ earlier, ¬ UsableAt key e j earlier) ∧
            signWithNonce digest key nonce options = .ok sig) ∧
        ∀ fault, sign digest key options = .error fault ↔
          fault = .reseedRequired (2 ^ 32) ∧ ∀ i < 2 ^ 32, ∀ nonce, ¬ UsableAt key e i nonce := by
  have hlt := reduceDigest_lt_order digest
  obtain ⟨e, he⟩ := Int.eq_ofNat_of_zero_le (reduceDigest_nonneg hdigest)
  rw [he, Int.ofNat_lt] at hlt
  refine ⟨e, he, hlt, ⟨_, seed_seedParts key e, drawAt_derivation key e⟩, ?_⟩
  rw [← he]
  exact fun options ↦ ⟨fun sig ↦ sign_eq_ok_iff, fun fault ↦ sign_eq_error_iff⟩

/-- The digest of a text, which the key one signs with a known nonce. -/
def vectorDigest : Nat := 0xa0dc65ffca799873cbea0ac274015b9526505daaaed385155425f7337704883e

/-- The nonce for that digest. -/
def vectorNonce : Scalar :=
  ⟨0x8f8a276c19f4149656b280621e358cce24f5f52542772691ee69063b74f15d15, by decide, by decide⟩

/-- The key one signs the digest with the known nonce, which is its first candidate. -/
theorem nonces_derived_vector :
    (0 : Int) ≤ vectorDigest ∧
      ∃ sig, signWithNonce vectorDigest scalarOne vectorNonce {} = .ok sig ∧
        sign vectorDigest scalarOne {} = .ok sig := by
  have hnonneg : (0 : Int) ≤ vectorDigest := Int.natCast_nonneg _
  have hmade : (signWithNonce vectorDigest scalarOne vectorNonce {}).isOk = true := by
    decide +kernel
  have hreduced : reduceDigest vectorDigest = vectorDigest := by decide +kernel
  obtain ⟨e, he, -, -, hsign⟩ := nonces_derived hnonneg scalarOne
  obtain rfl : vectorDigest = e := Int.ofNat_inj.mp (hreduced.symm.trans he)
  obtain ⟨sig, hsig⟩ := exists_eq_ok hmade
  have hmake := signWithNonce_eq_ok_iff.mp hsig
  rw [hreduced] at hmake
  obtain ⟨hfirst, hsecond⟩ := exists_signReduced?_iff.mp ⟨sig, hmake⟩
  have husable : UsableAt scalarOne vectorDigest 0 vectorNonce :=
    ⟨by decide +kernel, by decide, by decide, hfirst, hsecond⟩
  refine ⟨hnonneg, sig, hsig, ((hsign {}).1 sig).mpr ?_⟩
  exact ⟨0, by decide, vectorNonce, husable, nofun, hsig⟩

end Secp.Ecdsa
