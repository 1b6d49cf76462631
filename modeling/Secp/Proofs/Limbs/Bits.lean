import Secp.Number.Bits
import Secp.Proofs.Limbs.Shift

/-!
# Single bits and trailing zeros of magnitudes

A bit of the number stands in the limb and at the offset that its count splits into. So a change of
one bit of a limb changes this bit of the number and no other. The zero limbs at the low end and the
zero bits of the limb above them count the twos in the number.
-/

namespace Secp

namespace Number

/-- The trailing zeros count the twos in a number that is not zero. -/
theorem two_pow_trailingZeros_dvd {n : Nat} (hn : n ≠ 0) :
    2 ^ trailingZeros n ∣ n ∧ ¬ 2 ^ (trailingZeros n + 1) ∣ n := by
  have hsplit := two_pow_trailingZeros_mul n
  have hodd := div_two_pow_trailingZeros_odd hn
  refine ⟨Dvd.intro _ hsplit, fun hmore ↦ ?_⟩
  rw [Nat.pow_succ] at hmore
  have heven : 2 ∣ n / 2 ^ trailingZeros n := Nat.dvd_div_of_mul_dvd hmore
  omega

/-- A number that is not zero has fewer trailing zeros than any power of two above it says. -/
theorem trailingZeros_lt {n k : Nat} (hn : n ≠ 0) (hlt : n < 2 ^ k) : trailingZeros n < k := by
  have hle := Nat.le_of_dvd (Nat.pos_of_ne_zero hn) (two_pow_trailingZeros_dvd hn).1
  exact (Nat.pow_lt_pow_iff_right (by decide)).mp (hle.trans_lt hlt)

end Number

namespace Limbs

variable {a ws : Limbs}

/-- Within a limb a bit count is known from its offset. -/
theorem offset_eq_iff {bit place : Nat} (hlimb : bit / width = place / width) :
    bit % width = place % width ↔ bit = place := by
  unfold width at *
  omega

/-- A bit of the number stands in its limb, at its offset. -/
theorem testBit_toNat (h : Bounded ws) (bit : Nat) :
    (toNat ws).testBit bit = (ws.getD (bit / width) 0).toNat.testBit (bit % width) := by
  rw [← testBit_eq h, testBit, shiftRight_and_one_eq _ (offset_lt bit)]

/-- Changing a limb changes the bits that stand in it. -/
theorem testBit_modify (h : Bounded ws) {f : UInt32 → UInt32}
    (hf : ∀ w, w.toNat < base → (f w).toNat < base) {index : Nat} (hindex : index < ws.length)
    (bit : Nat) :
    (toNat (ws.modify index f)).testBit bit =
      if bit / width = index then (f (ws.getD index 0)).toNat.testBit (bit % width)
      else (toNat ws).testBit bit := by
  rw [testBit_toNat (h.modify hf index), testBit_toNat h, List.getD_eq_getElem?_getD,
    List.getD_eq_getElem?_getD, List.getD_eq_getElem?_getD, List.getElem?_modify]
  split
  · next hlimb =>
    subst hlimb
    simp [List.getElem?_eq_getElem hindex]
  · next hlimb => simp [Ne.symm hlimb]

/-- A limb with one bit more. -/
theorem testBit_or_bitWord (w : UInt32) (place offset : Nat) :
    (w ||| bitWord place).toNat.testBit offset =
      (w.toNat.testBit offset || decide (offset = place % width)) := by
  rw [UInt32.toNat_or, Nat.testBit_or, toNat_bitWord, Nat.testBit_two_pow]
  simp only [eq_comm]

/-- A limb with one bit less. -/
theorem testBit_and_not_bitWord (w : UInt32) (place : Nat) {offset : Nat} (h : offset < 32) :
    (w &&& ~~~(bitWord place)).toNat.testBit offset =
      (w.toNat.testBit offset && !decide (offset = place % width)) := by
  have hnot : (~~~(bitWord place)).toNat = 2 ^ 32 - ((bitWord place).toNat + 1) := by
    rw [UInt32.toNat_not, Nat.sub_sub, Nat.add_comm]
    rfl
  rw [UInt32.toNat_and, Nat.testBit_and, hnot,
    Nat.testBit_two_pow_sub_succ (bitWord place).toNat_lt, toNat_bitWord, Nat.testBit_two_pow,
    decide_eq_true h, Bool.true_and]
  simp only [eq_comm]

/-- Setting a bit sets it, and leaves the others. -/
theorem testBit_setBit (h : Bounded a) (place bit : Nat) :
    (toNat (setBit a place)).testBit bit = ((toNat a).testBit bit || decide (bit = place)) := by
  obtain ⟨room, hroom⟩ : ∃ room, room = a ++ List.replicate (place / width + 1 - a.length) 0 :=
    ⟨_, rfl⟩
  have hbounded : Bounded room := hroom ▸ bounded_append.mpr ⟨h, bounded_replicate_zero _⟩
  have hvalue : toNat room = toNat a := by
    rw [hroom, toNat_append, toNat_replicate_zero, Nat.mul_zero, Nat.add_zero]
  have hindex : place / width < room.length := by
    rw [hroom, List.length_append, List.length_replicate]
    omega
  rw [setBit, ← hroom, testBit_modify hbounded (fun _ hw ↦ or_lt hw (bitWord_lt place)) hindex,
    hvalue]
  split
  · next hlimb =>
    rw [testBit_or_bitWord, ← hlimb, ← testBit_toNat hbounded, hvalue]
    simp only [offset_eq_iff hlimb]
  · next hlimb => simp [mt (congrArg (· / width)) hlimb]

/-- Clearing a bit clears it, and leaves the others. -/
theorem testBit_clearBit (h : Bounded a) (place bit : Nat) :
    (toNat (clearBit a place)).testBit bit = ((toNat a).testBit bit && !decide (bit = place)) := by
  rw [clearBit, toNat_trim]
  rcases Nat.lt_or_ge (place / width) a.length with hindex | hout
  · rw [testBit_modify h (fun _ hw ↦ and_lt hw _) hindex]
    split
    · next hlimb =>
      rw [testBit_and_not_bitWord _ _ (offset_lt bit), ← hlimb, ← testBit_toNat h]
      simp only [offset_eq_iff hlimb]
    · next hlimb => simp [mt (congrArg (· / width)) hlimb]
  · -- a bit above the magnitude is clear
    rw [List.modify_eq_self hout]
    by_cases hplace : bit = place
    · rw [testBit_toNat h, hplace, List.getD_eq_getElem?_getD, List.getElem?_eq_none hout]
      simp
    · simp [hplace]

/-- The low bits flipped are what the low bits lack to the greatest number of so many bits. -/
theorem toNat_flipped (h : Bounded a) (bits : Nat) :
    toNat (bitwise (· ^^^ ·) (lowBits a bits) ((twoPow bits).subWord 1)) =
      2 ^ bits - (toNat a % 2 ^ bits + 1) := by
  have hones : toNat ((twoPow bits).subWord 1) = 2 ^ bits - 1 := by
    rw [toNat_subWord (bounded_twoPow bits), toNat_twoPow]
    · rfl
    · rw [toNat_twoPow]
      exact Nat.one_le_two_pow
  have hcanonical := canonical_subWord (bounded_twoPow bits) 1
  refine Nat.eq_of_testBit_eq fun i ↦ ?_
  rw [testBit_bitwise actsOnBits_xor (bounded_lowBits h bits) hcanonical.1, hones,
    toNat_lowBits h, Nat.testBit_two_pow_sub_one,
    Nat.testBit_two_pow_sub_succ (Nat.mod_lt _ (Nat.two_pow_pos bits)), Nat.testBit_mod_two_pow]
  cases decide (i < bits) <;> simp

/-- Zero limbs and the zero bits above them count the twos in the number. -/
theorem two_pow_trailingZeros_dvd (h : Bounded ws) (hne : toNat ws ≠ 0) :
    2 ^ trailingZeros ws ∣ toNat ws ∧ ¬ 2 ^ (trailingZeros ws + 1) ∣ toNat ws := by
  induction ws with
  | nil => exact absurd rfl hne
  | cons w ws ih =>
    obtain ⟨hw, hws⟩ := bounded_cons.mp h
    rw [trailingZeros]
    split
    · next hzero =>
      have hvalue : toNat (w :: ws) = 2 ^ width * toNat ws := by
        rw [toNat_cons, hzero, UInt32.toNat_zero, Nat.zero_add]
        rfl
      rw [hvalue] at hne ⊢
      have hrest := ih hws (Nat.ne_zero_of_mul_ne_zero_right hne)
      have hpos : 0 < 2 ^ width := Nat.two_pow_pos width
      rwa [Nat.add_assoc, Nat.pow_add, Nat.pow_add, Nat.mul_dvd_mul_iff_left hpos,
        Nat.mul_dvd_mul_iff_left hpos]
    · next hlimb =>
      have hne : w.toNat ≠ 0 := fun hzero ↦ hlimb (UInt32.toNat_inj.mp hzero)
      have hlt : Number.trailingZeros w.toNat < width := Number.trailingZeros_lt hne hw
      -- powers of two up to the base divide the limbs above, and so the number if they divide `w`
      have hdvd (k : Nat) (hk : k ≤ width) : 2 ^ k ∣ toNat (w :: ws) ↔ 2 ^ k ∣ w.toNat := by
        have hbase : 2 ^ k ∣ base * toNat ws := Dvd.dvd.mul_right (Nat.pow_dvd_pow 2 hk) _
        rw [toNat_cons]
        exact (Nat.dvd_add_iff_left hbase).symm
      rw [hdvd _ hlt.le, hdvd _ hlt]
      exact Number.two_pow_trailingZeros_dvd hne

end Limbs

end Secp
