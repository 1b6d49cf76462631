import Secp.LimbInt.ScriptNumber
import Secp.Proofs.LimbInt.Packing
import Secp.Proofs.Signature.Der

/-!
# One script number for each integer

Signed bytes that are not empty are a sign and a body whose first byte leaves its top bit free for
the sign. They denote the number of the body under the sign, and are written with the fewest bytes
of such a body, which are those of the distinguished encoding. The test on the last two bytes of a
script number accepts a body that is minimal in the same sense and does not denote zero, so that
one script number of each integer is accepted, and every other one is longer.
-/

namespace Secp.LimbInt

open Signature (Minimal derBody)

variable {a : LimbInt} {x : Int} {b body : Bytes} {negative : Bool}

/-- A byte order is its own opposite. -/
@[simp] theorem Endian.order_order (e : Endian) (b : Bytes) : e.order (e.order b) = b := by
  cases e with
  | big => rfl
  | little => exact List.reverse_reverse b

/-- A byte order keeps the length. -/
@[simp] theorem Endian.length_order (e : Endian) (b : Bytes) : (e.order b).length = b.length := by
  cases e with
  | big => rfl
  | little => exact List.length_reverse

/-- A byte without its top bit. -/
theorem toNat_and_lowBits (byte : UInt8) : (byte &&& 0x7f).toNat = byte.toNat % 128 := by
  rw [UInt8.toNat_and]
  exact Nat.and_two_pow_sub_one_eq_mod byte.toNat 7

/-- A byte with its top bit set. -/
theorem toNat_or_topBit {byte : UInt8} (h : byte.toNat < 128) :
    (byte ||| 0x80).toNat = byte.toNat + 128 := by
  have hsum := Nat.two_pow_add_eq_or_of_lt (i := 7) h 1
  rw [UInt8.toNat_or, Nat.or_comm, Nat.add_comm]
  exact hsum.symm

/-- A byte below 128 is what is left of it without its top bit. -/
theorem and_lowBits_eq {byte : UInt8} (h : byte.toNat < 128) : byte &&& 0x7f = byte := by
  rw [← UInt8.toNat_inj, toNat_and_lowBits, Nat.mod_eq_of_lt h]

/-- A byte below 128 is what is left without the top bit once that is set. -/
theorem or_topBit_and_lowBits {byte : UInt8} (h : byte.toNat < 128) :
    (byte ||| 0x80) &&& 0x7f = byte := by
  rw [← UInt8.toNat_inj, toNat_and_lowBits, toNat_or_topBit h, Nat.add_mod_right,
    Nat.mod_eq_of_lt h]

/-- Signed bytes, most significant first, are a sign and a body: the top bit of the first byte is
the sign, and the body has it clear. -/
inductive TopSign : Bytes → Bool → Bytes → Prop
  | bare {top : UInt8} {rest : Bytes} (h : top.toNat < 128) :
    TopSign (top :: rest) false (top :: rest)
  | marked {top : UInt8} {rest : Bytes} (h : top.toNat < 128) :
    TopSign ((top ||| 0x80) :: rest) true (top :: rest)

/-- Signed bytes are a sign and a body unless they are empty. -/
theorem exists_topSign (hne : b ≠ []) : ∃ negative body, TopSign b negative body := by
  cases b with
  | nil => exact absurd rfl hne
  | cons top rest =>
    rcases Nat.lt_or_ge top.toNat 128 with hlow | hhigh
    · exact ⟨false, top :: rest, .bare hlow⟩
    · have hlow : (top &&& 0x7f).toNat < 128 := by
        rw [toNat_and_lowBits]
        exact Nat.mod_lt _ (by decide)
      have htop : (top &&& 0x7f) ||| 0x80 = top := by
        have hlt := top.toNat_lt
        rw [← UInt8.toNat_inj, toNat_or_topBit hlow, toNat_and_lowBits]
        omega
      have hmarked := @TopSign.marked _ rest hlow
      rw [htop] at hmarked
      exact ⟨true, (top &&& 0x7f) :: rest, hmarked⟩

/-- A minimal body is the body of signed bytes under either sign. -/
theorem topSign_of_minimal (h : Minimal body) (negative : Bool) :
    TopSign (if negative then body.modifyHead (· ||| 0x80) else body) negative body := by
  cases body with
  | nil => exact h.elim
  | cons top rest =>
    cases negative with
    | false => exact .bare h.1
    | true => exact .marked h.1

/-- Signed bytes are as many as their body has. -/
theorem TopSign.length_eq (h : TopSign b negative body) : b.length = body.length := by
  cases h <;> rfl

/-- A sign and a body belong to one string of signed bytes. -/
theorem TopSign.eq_left {c : Bytes} (hb : TopSign b negative body)
    (hc : TopSign c negative body) : b = c := by
  cases hb with
  | bare => cases hc with | bare => rfl
  | marked => cases hc with | marked => rfl

/-- Signed bytes denote the number of their body under their sign. -/
theorem TopSign.denotes_ofSigned {e : Endian} (h : TopSign (e.order b) negative body) :
    Denotes (ofSigned b e) (if negative then -(Bytes.toNat body : Int) else Bytes.toNat body) := by
  have hbody := denotes_ofBytesBE body
  unfold ofSigned
  generalize e.order b = bytes at h
  cases h with
  | bare htop =>
    dsimp only
    rwa [and_lowBits_eq htop, if_neg (not_not.mpr ((Signature.and_topBit_eq_zero_iff _).mpr htop))]
  | marked htop =>
    have hset := mt (Signature.and_topBit_eq_zero_iff _).mp
      (Nat.not_lt.mpr ((Nat.le_add_left _ _).trans_eq (toNat_or_topBit htop).symm))
    dsimp only
    rw [or_topBit_and_lowBits htop, if_pos hset]
    exact hbody.neg

/-- The body of a number is as short as a body of it can be whose top bit is clear, and no other
body is as short. -/
theorem TopSign.length_derBody_le (h : TopSign b negative body) :
    (derBody (Bytes.toNat body)).length ≤ body.length ∧
      ((derBody (Bytes.toNat body)).length = body.length → Minimal body) := by
  have hlength (top : UInt8) (rest : Bytes) (htop : top.toNat < 128) :
      (derBody (Bytes.toNat (top :: rest))).length ≤ (top :: rest).length := by
    have hbits := (@Signature.bitLength_lt_iff top rest).mpr htop
    rw [Signature.length_derBody, List.length_cons]
    omega
  refine ⟨?_, fun heq ↦ ?_⟩
  · cases h with
    | bare htop => exact hlength _ _ htop
    | marked htop => exact hlength _ _ htop
  · rw [Signature.minimal_iff_length, ← heq, Signature.length_derBody]

/-- A number other than zero is written as its sign and the body of its magnitude. -/
theorem Denotes.topSign_toSigned (ha : Denotes a x) (hx : x ≠ 0) (e : Endian) :
    TopSign (e.order (a.toSigned e)) (decide (x < 0)) (derBody x.natAbs) := by
  have hbody := Signature.derBody_toNat_limbs ha.canonical.1
  rw [ha.toNat_limbs] at hbody
  unfold toSigned
  rw [if_neg (mt ha.isZero_iff.mp hx)]
  dsimp only
  rw [Endian.order_order, ← hbody, ha.negative_eq]
  exact topSign_of_minimal (Signature.minimal_derBody _) _

/-- Zero is written as no bytes. -/
theorem Denotes.toSigned_eq_nil (ha : Denotes a 0) (e : Endian) : a.toSigned e = [] :=
  if_pos (ha.isZero_iff.mpr rfl)

/-- No bytes are read as zero. -/
theorem ofSigned_nil (e : Endian) : ofSigned [] e = zero := by
  cases e <;> rfl

/-- What is written is read back. -/
theorem Denotes.ofSigned_toSigned (ha : Denotes a x) (e : Endian) :
    ofSigned (a.toSigned e) e = a := by
  by_cases hx : x = 0
  · subst hx
    rw [ha.toSigned_eq_nil, ofSigned_nil]
    exact (denotes_zero.eq_iff ha).mpr rfl
  · have hread := (ha.topSign_toSigned hx e).denotes_ofSigned
    rw [Signature.toNat_derBody] at hread
    refine (hread.eq_iff ha).mpr ?_
    simp only [decide_eq_true_eq]
    omega

/-- The sign of a number that is not zero is found again in it. -/
theorem decide_signed_lt {n : Nat} (hne : n ≠ 0) :
    decide ((if negative then -(n : Int) else n) < 0) = negative := by
  cases negative with
  | false => exact decide_eq_false (Int.not_lt.mpr (Int.natCast_nonneg n))
  | true => exact decide_eq_true (Int.neg_neg_of_pos (Int.natCast_pos.mpr (Nat.pos_of_ne_zero hne)))

/-- The magnitude of a number is found again in it, whatever its sign. -/
theorem natAbs_signed (n : Nat) : (if negative then -(n : Int) else n).natAbs = n := by
  split
  · rw [Int.natAbs_neg, Int.natAbs_natCast]
  · rw [Int.natAbs_natCast]

/-- What signed bytes are read as is written with their sign and the body of their number, unless it
is zero. -/
theorem TopSign.topSign_ofSigned {e : Endian} (h : TopSign (e.order b) negative body)
    (hne : Bytes.toNat body ≠ 0) :
    TopSign (e.order ((ofSigned b e).toSigned e)) negative (derBody (Bytes.toNat body)) := by
  have hwritten := h.denotes_ofSigned.topSign_toSigned (by split <;> omega) e
  rwa [decide_signed_lt hne, natAbs_signed] at hwritten

/-- Whether a script number is minimal, by its last two bytes. -/
theorem minimalScript_of_reverse_eq {sign : UInt8} {rest : Bytes} (h : b.reverse = sign :: rest) :
    minimalScript b = true ↔ (sign &&& 0x7f = 0 → ∃ next ∈ rest.head?, 128 ≤ next.toNat) := by
  unfold minimalScript
  rw [h]
  cases rest with
  | nil => simp
  | cons next rest =>
    have hnext : next &&& 0x80 = 0 ↔ ¬ 128 ≤ next.toNat := by
      rw [Signature.and_topBit_eq_zero_iff, Nat.not_le]
    simp [hnext, or_iff_not_imp_left]

/-- A script number is minimal when its body is, and does not denote zero. -/
theorem TopSign.minimalScript_iff (h : TopSign b.reverse negative body) :
    minimalScript b = true ↔ Minimal body ∧ Bytes.toNat body ≠ 0 := by
  have hbody {top : UInt8} {rest : Bytes} (htop : top.toNat < 128) :
      (top = 0 → ∃ next ∈ rest.head?, 128 ≤ next.toNat) ↔
        Minimal (top :: rest) ∧ Bytes.toNat (top :: rest) ≠ 0 := by
    cases rest with
    | nil => simp [Signature.Minimal, htop, ← UInt8.toNat_inj]
    | cons next rest =>
      have hnext : (∃ b ∈ (next :: rest).head?, 128 ≤ b.toNat) ↔
          ∀ b ∈ (next :: rest).head?, 128 ≤ b.toNat := by simp
      rw [hnext]
      refine ⟨fun hfull ↦ ?_, fun hminimal ↦ hminimal.1.2⟩
      have hminimal : Minimal (top :: next :: rest) := ⟨htop, hfull⟩
      refine ⟨hminimal, fun hzero ↦ ?_⟩
      -- zero has one minimal body, of one byte
      have hlength := Signature.minimal_iff_length.mp hminimal
      rw [hzero] at hlength
      cases hlength
  generalize hbytes : b.reverse = bytes at h
  cases h with
  | bare htop => rw [minimalScript_of_reverse_eq hbytes, and_lowBits_eq htop, hbody htop]
  | marked htop => rw [minimalScript_of_reverse_eq hbytes, or_topBit_and_lowBits htop, hbody htop]

/-- The script number of an integer is minimal. -/
theorem Denotes.minimalScript_toScript (ha : Denotes a x) : minimalScript a.toScript = true := by
  by_cases hx : x = 0
  · subst hx
    rw [toScript, ha.toSigned_eq_nil]
    rfl
  · rw [toScript, TopSign.minimalScript_iff (ha.topSign_toSigned hx .little),
      Signature.toNat_derBody]
    exact ⟨Signature.minimal_derBody _, Int.natAbs_ne_zero.mpr hx⟩

/-- Signed bytes that are not what their integer is written as are more. -/
theorem length_toSigned_ofSigned_lt {e : Endian} (hne : (ofSigned b e).toSigned e ≠ b) :
    ((ofSigned b e).toSigned e).length < b.length := by
  by_cases hb : b = []
  · rw [hb, ofSigned_nil, denotes_zero.toSigned_eq_nil] at hne
    exact absurd rfl hne
  · have horder : e.order b ≠ [] := fun hnil ↦ hb (by
      rw [← e.order_order b, hnil]
      cases e <;> rfl)
    obtain ⟨negative, body, htop⟩ := exists_topSign horder
    by_cases hzero : Bytes.toNat body = 0
    · have hread := htop.denotes_ofSigned
      rw [hzero, Nat.cast_zero, neg_zero, ite_self] at hread
      rw [hread.toSigned_eq_nil]
      exact List.length_pos_of_ne_nil hb
    · have hwritten := htop.topSign_ofSigned hzero
      obtain ⟨hle, hminimal⟩ := htop.length_derBody_le
      rw [← e.length_order, hwritten.length_eq, ← e.length_order b, htop.length_eq]
      refine hle.lt_of_ne fun heq ↦ hne ?_
      rw [← Signature.minimal_iff.mp (hminimal heq)] at hwritten
      rw [← e.order_order (toSigned _ e), hwritten.eq_left htop, e.order_order]

/-- A script number is minimal when it is what its integer is written as. -/
theorem minimalScript_iff : minimalScript b = true ↔ (ofSigned b .little).toScript = b := by
  refine ⟨fun hminimal ↦ ?_, fun h ↦ ?_⟩
  · by_cases hb : b = []
    · rw [hb, ofSigned_nil]
      exact denotes_zero.toSigned_eq_nil .little
    · obtain ⟨negative, body, htop⟩ := exists_topSign (mt List.reverse_eq_nil_iff.mp hb)
      obtain ⟨hbody, hne⟩ := htop.minimalScript_iff.mp hminimal
      have hwritten := TopSign.topSign_ofSigned (e := .little) htop hne
      rw [← Signature.minimal_iff.mp hbody] at hwritten
      exact List.reverse_inj.mp (hwritten.eq_left htop)
  · have hscript := (canonical_ofSigned b .little).denotes.minimalScript_toScript
    rwa [h] at hscript

/-- Where script numbers have to be minimal, others are refused. -/
theorem ofScript_minimal (b : Bytes) :
    ofScript b true none =
      if (ofSigned b .little).toScript = b then .ok (ofSigned b .little)
      else .error .nonMinimal := by
  unfold ofScript
  simp only [← minimalScript_iff]
  cases minimalScript b <;> rfl

/-- Where script numbers have to be minimal, an integer is read from what it is written as, and from
nothing else. -/
theorem Denotes.ofScript_eq_ok_iff (ha : Denotes a x) :
    ofScript b true none = .ok a ↔ b = a.toScript := by
  rw [ofScript_minimal]
  constructor
  · intro h
    split at h
    · next hwritten => rw [← Except.ok.inj h, hwritten]
    · cases h
  · intro h
    have hread : ofSigned b .little = a := by
      rw [h]
      exact ha.ofSigned_toSigned .little
    rw [hread, if_pos h.symm]

/-- Where script numbers have to be minimal, bytes are refused for not being so, which they are not
when no integer is written as them. -/
theorem ofScript_eq_error_iff {reason : Error} :
    ofScript b true none = .error reason ↔
      reason = .nonMinimal ∧ ∀ x : Int, b ≠ (ofInt x).toScript := by
  have hminimal : (ofSigned b .little).toScript = b ↔ ∃ x : Int, b = (ofInt x).toScript := by
    constructor
    · intro h
      have hread := (canonical_ofSigned b .little).denotes
      exact ⟨_, by rw [← hread.eq_ofInt, h]⟩
    · rintro ⟨x, rfl⟩
      exact congrArg toScript ((denotes_ofInt x).ofSigned_toSigned .little)
  rw [ofScript_minimal, ← not_exists, ← hminimal]
  split
  · next h => exact ⟨nofun, fun hnot ↦ absurd h hnot.2⟩
  · next h => exact ⟨fun heq ↦ ⟨(Except.error.inj heq).symm, h⟩, fun hnot ↦ hnot.1 ▸ rfl⟩

/-- Each integer has one script number. Signed bytes are read back as the integer that was written
as them, in either order of the bytes, and so are script numbers where they have to be minimal.
Then an integer is read from what it is written as and from nothing else, and all bytes that no
integer is written as are refused for not being minimal. What an integer is written as is the
shortest string of signed bytes that is read as it. -/
theorem script_numbers_exact :
    (∀ (x : Int) (e : Endian), ofSigned ((ofInt x).toSigned e) e = ofInt x) ∧
    (∀ x : Int, ofScript (ofInt x).toScript true none = .ok (ofInt x)) ∧
    (∀ (b : Bytes) (x : Int),
      ofScript b true none = .ok (ofInt x) ↔ b = (ofInt x).toScript) ∧
    (∀ (b : Bytes) (reason : Error), ofScript b true none = .error reason ↔
      reason = .nonMinimal ∧ ∀ x : Int, b ≠ (ofInt x).toScript) ∧
    ∀ (b : Bytes) (x : Int) (e : Endian), ofSigned b e = ofInt x → b ≠ (ofInt x).toSigned e →
      ((ofInt x).toSigned e).length < b.length := by
  refine ⟨fun x e ↦ (denotes_ofInt x).ofSigned_toSigned e,
    fun x ↦ (denotes_ofInt x).ofScript_eq_ok_iff.mpr rfl,
    fun b x ↦ (denotes_ofInt x).ofScript_eq_ok_iff, fun b reason ↦ ofScript_eq_error_iff,
    fun b x e hread hne ↦ ?_⟩
  rw [← hread] at hne ⊢
  exact length_toSigned_ofSigned_lt hne.symm

/-- A byte for the sign alone is needed where the magnitude fills the byte below it, and refused
elsewhere. Zero has no sign. -/
example : ofScript [0xff, 0x80] true none = .ok (ofInt (-255)) ∧
    ofScript [0x7f, 0x80] true none = .error .nonMinimal ∧
    ofScript [0x80] true none = .error .nonMinimal := by
  decide +kernel

end Secp.LimbInt
