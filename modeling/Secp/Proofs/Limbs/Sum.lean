import Secp.Limbs.Sum
import Secp.Proofs.Limbs.Value

/-!
# Sums and differences of magnitudes are exact

One limb of a sum with its carry is below twice the base, so the carry is a bit, and one limb of a
difference with its borrow is never negative once the base is lent to it. Passing the carry or the
borrow up the limbs keeps the number, as long as nothing is borrowed beyond the last limb.
-/

namespace Secp.Limbs

variable {a b xs ys ws : Limbs}

/-- Limbs stay limbs when a carry is added. -/
theorem bounded_addCarry (ws : Limbs) {c : UInt32} (hc : c.toNat < base) :
    Bounded (addCarry ws c) := by
  fun_induction addCarry ws c with
  | case1 => exact bounded_nil
  | case2 c hne => exact bounded_cons.mpr ⟨hc, bounded_nil⟩
  | case3 w ws c s ih =>
    refine bounded_cons.mpr ⟨and_mask_lt s, ih ?_⟩
    have hs := s.toNat_lt
    rw [toNat_shiftRight, base_eq]
    omega

/-- Adding a carry adds it to the number. -/
theorem toNat_addCarry (h : Bounded ws) {c : UInt32} (hc : c.toNat ≤ 1) :
    toNat (addCarry ws c) = toNat ws + c.toNat := by
  fun_induction addCarry ws c with
  | case1 => rfl
  | case2 c hne => simp
  | case3 w ws c s ih =>
    obtain ⟨hw, hws⟩ := bounded_cons.mp h
    rw [base_eq] at hw
    have hs : s.toNat = w.toNat + c.toNat := toNat_add32 (by omega)
    have hcarry : (s >>> 26).toNat ≤ 1 := by
      rw [toNat_shiftRight, hs, base_eq]
      omega
    rw [toNat_cons, toNat_cons, ih hws hcarry, toNat_and_mask, toNat_shiftRight, hs, base_eq]
    omega

/-- The limbs of a sum are limbs. -/
theorem bounded_addWith (xs ys : Limbs) {c : UInt32} (hc : c.toNat < base) :
    Bounded (addWith xs ys c) := by
  fun_induction addWith xs ys c with
  | case1 ys c => exact bounded_addCarry ys hc
  | case2 x xs ys c s ih =>
    refine bounded_cons.mpr ⟨and_mask_lt s, ih ?_⟩
    have hs := s.toNat_lt
    rw [toNat_shiftRight, base_eq]
    omega

/-- Adding limb by limb adds the numbers and the carry. -/
theorem toNat_addWith (hxs : Bounded xs) (hys : Bounded ys) {c : UInt32} (hc : c.toNat ≤ 1) :
    toNat (addWith xs ys c) = toNat xs + toNat ys + c.toNat := by
  fun_induction addWith xs ys c with
  | case1 ys c => rw [toNat_addCarry hys hc, toNat_nil, Nat.zero_add]
  | case2 x xs ys c s ih =>
    obtain ⟨hx, hxs⟩ := bounded_cons.mp hxs
    have hy := hys.headD_lt
    have hs : s.toNat = x.toNat + (ys.headD 0).toNat + c.toNat := toNat_sumLimb hx hy hc
    have hcarry : (s >>> 26).toNat ≤ 1 := sumCarry_le hx hy hc
    rw [toNat_cons, toNat_cons, ih hxs hys.tail hcarry, toNat_headD_tail ys, toNat_and_mask,
      toNat_shiftRight, hs, base_eq]
    omega

/-- The sum of magnitudes denotes the sum of their numbers. -/
theorem toNat_add (ha : Bounded a) (hb : Bounded b) : toNat (add a b) = toNat a + toNat b :=
  toNat_addWith ha hb (Nat.zero_le 1)

/-- The limbs of a sum of magnitudes are limbs. -/
theorem bounded_add (a b : Limbs) : Bounded (add a b) := bounded_addWith a b (by decide)

/-- The limbs of a difference are limbs. -/
theorem bounded_subWith (xs ys : Limbs) (b : UInt32) : Bounded (subWith xs ys b) := by
  fun_induction subWith xs ys b with
  | case1 => exact bounded_nil
  | case2 x xs ys b t ih => exact bounded_cons.mpr ⟨and_mask_lt t, ih⟩

/-- Subtracting limb by limb gives the difference, where the subtrahend and the borrow together
are no larger than the minuend. -/
theorem toNat_subWith (hxs : Bounded xs) (hys : Bounded ys) {b : UInt32} (hb : b.toNat ≤ 1)
    (hle : toNat ys + b.toNat ≤ toNat xs) :
    toNat (subWith xs ys b) + (toNat ys + b.toNat) = toNat xs := by
  fun_induction subWith xs ys b with
  | case1 ys b => exact Nat.le_antisymm ((Nat.zero_add _).trans_le hle) (Nat.zero_le _)
  | case2 x xs ys b t ih =>
    obtain ⟨hx, hxs⟩ := bounded_cons.mp hxs
    have hy := hys.headD_lt
    rw [base_eq] at hx hy
    have hbase : baseWord.toNat = 67108864 := rfl
    have ht : t.toNat = x.toNat + 67108864 - (ys.headD 0).toNat - b.toNat := by
      unfold t
      rw [UInt32.toNat_sub, UInt32.toNat_sub, UInt32.toNat_add, hbase]
      omega
    have hborrow : ((1 : UInt32) - (t >>> 26)).toNat = 1 - t.toNat / 67108864 := by
      rw [UInt32.toNat_sub, toNat_shiftRight, base_eq, UInt32.toNat_one]
      omega
    rw [toNat_headD_tail ys, toNat_cons, base_eq] at hle
    have hrest := ih hxs hys.tail (by omega) (by omega)
    rw [toNat_cons, toNat_cons, toNat_headD_tail ys, toNat_and_mask, base_eq]
    omega

/-- The difference of a magnitude and one no larger denotes the difference of their numbers. -/
theorem toNat_sub (ha : Bounded a) (hb : Bounded b) (h : toNat b ≤ toNat a) :
    toNat (sub a b) = toNat a - toNat b := by
  have hsum := toNat_subWith ha hb (b := 0) (Nat.zero_le 1) h
  rw [sub, toNat_trim]
  exact Nat.eq_sub_of_add_eq hsum

/-- The limbs of a difference of magnitudes are limbs. -/
theorem bounded_sub (a b : Limbs) : Bounded (sub a b) := (bounded_subWith a b 0).trim

/-- Limbs stay limbs when a wide word is added. -/
theorem bounded_addWide (h : Bounded ws) (c : UInt64) : Bounded (addWide ws c) := by
  fun_induction addWide ws c with
  | case1 c => exact (canonical_ofWord c).1
  | case2 w ws => exact h
  | case3 w ws c hne t ih =>
    exact bounded_cons.mpr ⟨low_lt t, ih (bounded_cons.mp h).2⟩

/-- Adding a wide word adds it to the number, where the word leaves room for a limb. -/
theorem toNat_addWide (h : Bounded ws) {c : UInt64} (hc : c.toNat < 2 ^ 63) :
    toNat (addWide ws c) = toNat ws + c.toNat := by
  fun_induction addWide ws c with
  | case1 c => rw [toNat_ofWord, toNat_nil, Nat.zero_add]
  | case2 w ws => rfl
  | case3 w ws c hne t ih =>
    obtain ⟨hw, hws⟩ := bounded_cons.mp h
    rw [base_eq] at hw
    have ht : t.toNat = w.toNat + c.toNat := by
      rw [← UInt32.toNat_toUInt64]
      exact toNat_add64 (by rw [UInt32.toNat_toUInt64]; omega)
    have hcarry : (high t).toNat < 2 ^ 63 := by
      rw [toNat_high, ht, base_eq]
      omega
    rw [toNat_cons, toNat_cons, ih hws hcarry, toNat_low, toNat_high, ht, base_eq]
    omega

/-- No leading zero limb arises when a wide word is added. -/
theorem trimmed_addWide (h : Canonical ws) {c : UInt64} (hc : c.toNat < 2 ^ 63) :
    Trimmed (addWide ws c) := by
  fun_induction addWide ws c with
  | case1 c => exact (canonical_ofWord c).2
  | case2 w ws => exact h.2
  | case3 w ws c hne t ih =>
    have hvalue := toNat_addWide h.1 hc
    rw [addWide, if_neg hne] at hvalue
    have hpos : c.toNat ≠ 0 := fun h ↦ hne (UInt64.toNat_inj.mp h)
    have hcarry : (high t).toNat < 2 ^ 63 := by
      have ht := t.toNat_lt
      rw [toNat_high, base_eq]
      omega
    refine (ih h.of_cons hcarry).cons ?_
    change toNat (low t :: addWide ws (high t)) = _ at hvalue
    omega

/-- The sum of a magnitude and a word denotes the sum of their numbers. -/
theorem toNat_addWord (ha : Bounded a) (s : UInt32) : toNat (addWord a s) = toNat a + s.toNat := by
  have hs := s.toNat_lt
  rw [addWord, toNat_addWide ha (by rw [UInt32.toNat_toUInt64]; omega), UInt32.toNat_toUInt64]

/-- The limbs of a sum of a magnitude and a word are limbs. -/
theorem bounded_addWord (ha : Bounded a) (s : UInt32) : Bounded (addWord a s) :=
  bounded_addWide ha _

/-- The sum of a canonical magnitude and a word is canonical. -/
theorem canonical_addWord (ha : Canonical a) (s : UInt32) : Canonical (addWord a s) := by
  have hs := s.toNat_lt
  exact ⟨bounded_addWord ha.1 s, trimmed_addWide ha (by rw [UInt32.toNat_toUInt64]; omega)⟩

/-- What is lent to a limb, as a multiple of the base: the least that leaves the limb not
negative. -/
theorem toNat_lent {need : UInt64} (h : need.toNat ≤ 2 ^ 32) :
    (high (need + mask.toUInt64)).toNat = (need.toNat + 67108863) / 67108864 := by
  have hmask : mask.toUInt64.toNat = 67108863 := rfl
  rw [toNat_high, toNat_add64 (by omega), hmask, base_eq]

/-- The limb that is left when `need` is taken from what is lent to it. -/
theorem toNat_lent_sub {lent need : UInt64} (hneed : need.toNat ≤ 2 ^ 32)
    (hlent : lent.toNat = (need.toNat + 67108863) / 67108864) :
    ((lent <<< 26) - need).toUInt32.toNat = 67108864 * lent.toNat - need.toNat := by
  have hshift : (lent <<< 26).toNat = 67108864 * lent.toNat := by
    rw [UInt64.toNat_shiftLeft, show (26 : UInt64).toNat % 64 = 26 from rfl, Nat.shiftLeft_eq]
    omega
  have hsub : ((lent <<< 26) - need).toNat = 67108864 * lent.toNat - need.toNat := by
    rw [UInt64.toNat_sub, hshift]
    omega
  rw [toNat_toUInt32 (by omega), hsub]

/-- What a limb lacks when a larger wide word is taken from it. -/
theorem toNat_need {w : UInt32} {b : UInt64} (h : ¬b ≤ w.toUInt64) :
    (b - w.toUInt64).toNat = b.toNat - w.toNat :=
  UInt64.toNat_sub_of_le _ _ (UInt64.le_of_lt (UInt64.not_le.mp h))

/-- What is left of a limb when a wide word no larger is taken from it. -/
theorem toNat_left {w : UInt32} {b : UInt64} (h : b ≤ w.toUInt64) :
    (w.toUInt64 - b).toUInt32.toNat = w.toNat - b.toNat := by
  have hsub : (w.toUInt64 - b).toNat = w.toNat - b.toNat := UInt64.toNat_sub_of_le _ _ h
  have hw := w.toNat_lt
  rw [toNat_toUInt32 (by omega), hsub]

/-- Limbs stay limbs when a wide word is subtracted. -/
theorem bounded_subWide (h : Bounded ws) {b : UInt64} (hb : b.toNat ≤ 2 ^ 32) :
    Bounded (subWide ws b) := by
  fun_induction subWide ws b with
  | case1 => exact bounded_nil
  | case2 w ws b hle =>
    obtain ⟨hw, hws⟩ := bounded_cons.mp h
    exact bounded_cons.mpr ⟨(toNat_left hle).trans_lt (Nat.lt_of_le_of_lt (Nat.sub_le _ _) hw), hws⟩
  | case3 w ws b hlt need lent ih =>
    have hneed : need.toNat = b.toNat - w.toNat := toNat_need hlt
    have hle : need.toNat ≤ 2 ^ 32 := by omega
    have hlent : lent.toNat = (need.toNat + 67108863) / 67108864 := toNat_lent hle
    refine bounded_cons.mpr ⟨?_, ih (bounded_cons.mp h).2 (by omega)⟩
    rw [toNat_lent_sub hle hlent, base_eq]
    omega

/-- Subtracting a wide word subtracts it from the number, where that is no smaller. -/
theorem toNat_subWide (h : Bounded ws) {b : UInt64} (hb : b.toNat ≤ 2 ^ 32)
    (hle : b.toNat ≤ toNat ws) : toNat (subWide ws b) + b.toNat = toNat ws := by
  fun_induction subWide ws b with
  | case1 b => exact (Nat.zero_add _).trans (Nat.eq_zero_of_le_zero hle)
  | case2 w ws b hword =>
    have hword' : b.toNat ≤ w.toNat := hword
    rw [toNat_cons, toNat_cons, toNat_left hword]
    omega
  | case3 w ws b hlt need lent ih =>
    have hneed : need.toNat = b.toNat - w.toNat := toNat_need hlt
    have hlarger : w.toNat < b.toNat := UInt64.not_le.mp hlt
    have hneed' : need.toNat ≤ 2 ^ 32 := by omega
    have hlent : lent.toNat = (need.toNat + 67108863) / 67108864 := toNat_lent hneed'
    rw [toNat_cons, base_eq] at hle
    have hrest := ih (bounded_cons.mp h).2 (by omega) (by omega)
    rw [toNat_cons, toNat_cons, toNat_lent_sub hneed' hlent, base_eq]
    omega

/-- The difference of a magnitude and a word no larger denotes the difference of their numbers. -/
theorem toNat_subWord (ha : Bounded a) {s : UInt32} (h : s.toNat ≤ toNat a) :
    toNat (subWord a s) = toNat a - s.toNat := by
  have hs := s.toNat_lt
  rw [← UInt32.toNat_toUInt64] at h hs ⊢
  have hsum := toNat_subWide ha (by omega) h
  rw [subWord, toNat_trim]
  exact Nat.eq_sub_of_add_eq hsum

/-- The difference of a magnitude and a word is canonical. -/
theorem canonical_subWord (ha : Bounded a) (s : UInt32) : Canonical (subWord a s) := by
  have hs := s.toNat_lt
  exact (bounded_subWide ha (by rw [UInt32.toNat_toUInt64]; omega)).canonical_trim

end Secp.Limbs
