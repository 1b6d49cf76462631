import Secp.Limbs.Shift
import Secp.Proofs.Limbs.Sum

/-!
# Shifts and bitwise words of magnitudes

A shift by a count of bits multiplies or divides by a power of two: whole limbs by the base, and
the rest of the count within the limbs. Setting, clearing and combining bits leaves every word a
limb, since no bit above the limb's width can arise.
-/

namespace Secp.Limbs

variable {a xs ys ws : Limbs}

/-- A power of two, split as a count of bits is: whole limbs and an offset. -/
theorem two_pow_eq (bits : Nat) : 2 ^ bits = base ^ (bits / width) * 2 ^ (bits % width) := by
  rw [base, ← Nat.pow_mul, ← Nat.pow_add]
  exact congrArg (2 ^ ·) (Nat.div_add_mod bits width).symm

/-- An offset within a limb is a word. -/
theorem toNat_ofNat_offset (bits : Nat) : (UInt64.ofNat (bits % width)).toNat = bits % width :=
  UInt64.toNat_ofNat_of_lt' (Nat.lt_trans (Nat.mod_lt bits (by decide)) (by decide))

/-- Twice the bits carried into a limb are the bits carried out of it, and the shifted limb. -/
theorem toNat_shiftedLimb {w : UInt32} {r c : UInt64} (hw : w.toNat < base) (hr : r.toNat < width)
    (hc : c.toNat < 2 ^ r.toNat) :
    ((w.toUInt64 <<< r) ||| c).toNat = w.toNat * 2 ^ r.toNat + c.toNat := by
  unfold width at hr
  rw [← UInt32.toNat_toUInt64] at hw ⊢
  refine toNat_shiftLeft_or (by omega) hc ?_
  calc w.toUInt64.toNat * 2 ^ r.toNat ≤ base * 2 ^ 26 :=
        Nat.mul_le_mul hw.le (Nat.pow_le_pow_right (by decide) hr.le)
    _ < 2 ^ 64 := by decide

/-- What is carried out of a limb is below the power that the shift multiplies by. -/
theorem carry_lt {w : UInt32} {r c : UInt64} (hw : w.toNat < base) (hr : r.toNat < width)
    (hc : c.toNat < 2 ^ r.toNat) :
    (high ((w.toUInt64 <<< r) ||| c)).toNat < 2 ^ r.toNat := by
  rw [toNat_high, toNat_shiftedLimb hw hr hc]
  refine Nat.div_lt_of_lt_mul ?_
  calc w.toNat * 2 ^ r.toNat + c.toNat < (w.toNat + 1) * 2 ^ r.toNat := by
        rw [Nat.succ_mul]
        exact Nat.add_lt_add_left hc _
    _ ≤ base * 2 ^ r.toNat := Nat.mul_le_mul_right _ hw

/-- Shifting limbs up by an offset multiplies the number and adds the bits carried in. -/
theorem toNat_shlWith (h : Bounded ws) {r c : UInt64} (hr : r.toNat < width)
    (hc : c.toNat < 2 ^ r.toNat) :
    toNat (shlWith r ws c) = toNat ws * 2 ^ r.toNat + c.toNat := by
  fun_induction shlWith r ws c with
  | case1 => simp
  | case2 c hne =>
    have hlt : c.toNat < 2 ^ 26 := hc.trans (Nat.pow_lt_pow_right (by decide) hr)
    rw [toNat_cons, toNat_toUInt32 (by omega)]
    simp
  | case3 w ws c t ih =>
    obtain ⟨hw, hws⟩ := bounded_cons.mp h
    have ht : t.toNat = w.toNat * 2 ^ r.toNat + c.toNat := toNat_shiftedLimb hw hr hc
    rw [toNat_cons, toNat_cons, ih hws (carry_lt hw hr hc), toNat_low, toNat_high,
      mod_add_base_mul, ht]
    ring

/-- Limbs shifted up are limbs. -/
theorem bounded_shlWith (h : Bounded ws) {r c : UInt64} (hr : r.toNat < width)
    (hc : c.toNat < 2 ^ r.toNat) : Bounded (shlWith r ws c) := by
  fun_induction shlWith r ws c with
  | case1 => exact bounded_nil
  | case2 c hne =>
    have hlt : c.toNat < base := hc.trans (Nat.pow_lt_pow_right (by decide) hr)
    refine bounded_cons.mpr ⟨?_, bounded_nil⟩
    rwa [toNat_toUInt32 (hlt.trans (by decide))]
  | case3 w ws c t ih =>
    obtain ⟨hw, hws⟩ := bounded_cons.mp h
    exact bounded_cons.mpr ⟨low_lt t, ih hws (carry_lt hw hr hc)⟩

/-- Shifting limbs up by an offset takes at most one limb more. -/
theorem length_shlWith_le (r : UInt64) (ws : Limbs) (c : UInt64) :
    (shlWith r ws c).length ≤ ws.length + 1 := by
  fun_induction shlWith r ws c with
  | case1 => exact Nat.zero_le _
  | case2 => exact Nat.le_refl _
  | case3 w ws c t ih => exact Nat.succ_le_succ ih

/-- No leading zero limb arises when limbs are shifted up. -/
theorem trimmed_shlWith (h : Canonical ws) {r c : UInt64} (hr : r.toNat < width)
    (hc : c.toNat < 2 ^ r.toNat) : Trimmed (shlWith r ws c) := by
  fun_induction shlWith r ws c with
  | case1 => exact nofun
  | case2 c hne =>
    have hlt : c.toNat < 2 ^ 26 := hc.trans (Nat.pow_lt_pow_right (by decide) hr)
    refine Trimmed.cons nofun ?_
    rw [toNat_cons, toNat_toUInt32 (by omega)]
    exact fun hzero ↦ hne (UInt64.toNat_inj.mp (Nat.eq_zero_of_add_eq_zero_right hzero))
  | case3 w ws c t ih =>
    obtain ⟨hw, hws⟩ := bounded_cons.mp h.1
    refine (ih h.of_cons (carry_lt hw hr hc)).cons ?_
    have hvalue := toNat_shlWith h.1 hr hc
    rw [shlWith] at hvalue
    have hpos := h.2.toNat_ne_zero (List.cons_ne_nil w ws)
    have hscaled := Nat.mul_ne_zero hpos (Nat.pos_iff_ne_zero.mp (Nat.two_pow_pos r.toNat))
    change toNat (low t :: shlWith r ws (high t)) = _ at hvalue
    omega

/-- A left shift multiplies by a power of two. -/
theorem toNat_shl (h : Bounded a) (bits : Nat) : toNat (shl a bits) = toNat a * 2 ^ bits := by
  unfold shl
  split
  · next hnil => rw [hnil]; simp
  · rw [toNat_append, toNat_replicate_zero, List.length_replicate, Nat.zero_add, two_pow_eq bits]
    split
    · next hzero => rw [hzero, Nat.pow_zero, Nat.mul_one, Nat.mul_comm]
    · have hr : (UInt64.ofNat (bits % width)).toNat < width := by
        rw [toNat_ofNat_offset]
        exact Nat.mod_lt bits (by decide)
      rw [toNat_shlWith h hr (Nat.two_pow_pos _), toNat_ofNat_offset]
      simp only [UInt64.toNat_zero]
      ring

/-- Limbs shifted left are limbs. -/
theorem bounded_shl (h : Bounded a) (bits : Nat) : Bounded (shl a bits) := by
  unfold shl
  split
  · exact bounded_nil
  · refine bounded_append.mpr ⟨bounded_replicate_zero _, ?_⟩
    split
    · exact h
    · refine bounded_shlWith h ?_ (Nat.two_pow_pos _)
      rw [toNat_ofNat_offset]
      exact Nat.mod_lt bits (by decide)

/-- Limbs above zero limbs have no leading zero when they have none, and are not missing. -/
theorem trimmed_append (hne : ys ≠ []) (h : Trimmed ys) : Trimmed (xs ++ ys) := by
  induction xs with
  | nil => exact h
  | cons x xs ih =>
    exact trimmed_cons.mpr ⟨fun hnil ↦ absurd (List.append_eq_nil_iff.mp hnil).2 hne, ih⟩

/-- Only zero is shifted to zero. -/
theorem shlWith_ne_nil (hne : ws ≠ []) (r c : UInt64) : shlWith r ws c ≠ [] := by
  cases ws with
  | nil => exact absurd rfl hne
  | cons w ws => exact List.cons_ne_nil _ _

/-- A canonical magnitude shifted left is canonical. -/
theorem canonical_shl (h : Canonical a) (bits : Nat) : Canonical (shl a bits) := by
  refine ⟨bounded_shl h.1 bits, ?_⟩
  unfold shl
  split
  · exact nofun
  · next hne =>
    split
    · exact trimmed_append hne h.2
    · refine trimmed_append (shlWith_ne_nil hne _ _) (trimmed_shlWith h ?_ (Nat.two_pow_pos _))
      rw [toNat_ofNat_offset]
      exact Nat.mod_lt bits (by decide)

/-- A limb of a right shift: the upper bits of one limb below the low bits of the next. -/
theorem toNat_shiftedDown {w v : UInt32} {r : UInt64} (hw : w.toNat < base) (hv : v.toNat < base)
    (hr : r.toNat < width) :
    ((w.toUInt64 >>> r) ||| (v.toUInt64 <<< (26 - r))).toNat =
      w.toNat / 2 ^ r.toNat + 2 ^ (26 - r.toNat) * v.toNat := by
  unfold width at hr
  have hgap : (26 - r).toNat = 26 - r.toNat := UInt64.toNat_sub_of_le _ _ (by
    rw [UInt64.le_iff_toNat_le]
    exact hr.le)
  have hhigh : v.toUInt64.toNat * 2 ^ (26 - r).toNat < 2 ^ 64 := by
    rw [UInt32.toNat_toUInt64, hgap]
    calc v.toNat * 2 ^ (26 - r.toNat) ≤ base * 2 ^ 26 :=
          Nat.mul_le_mul hv.le (Nat.pow_le_pow_right (by decide) (Nat.sub_le _ _))
      _ < 2 ^ 64 := by decide
  have hlow : (w.toUInt64 >>> r).toNat = w.toNat / 2 ^ r.toNat := by
    rw [UInt64.toNat_shiftRight, Nat.mod_eq_of_lt (by omega), Nat.shiftRight_eq_div_pow,
      UInt32.toNat_toUInt64]
  have hfits : (w.toUInt64 >>> r).toNat < 2 ^ (26 - r).toNat := by
    rw [hlow, hgap]
    refine Nat.div_lt_of_lt_mul ?_
    rwa [← Nat.pow_add, Nat.add_sub_cancel' hr.le]
  rw [UInt64.or_comm, toNat_shiftLeft_or (by rw [hgap]; omega) hfits hhigh, hlow, hgap,
    UInt32.toNat_toUInt64]
  ring

/-- Limbs shifted down are limbs. -/
theorem bounded_shrWith (r : UInt64) (ws : Limbs) : Bounded (shrWith r ws) := by
  fun_induction shrWith r ws with
  | case1 => exact bounded_nil
  | case2 w ws ih => exact bounded_cons.mpr ⟨low_lt _, ih⟩

/-- Shifting limbs down by an offset divides the number. -/
theorem toNat_shrWith (h : Bounded ws) {r : UInt64} (hr : r.toNat < width) :
    toNat (shrWith r ws) = toNat ws / 2 ^ r.toNat := by
  fun_induction shrWith r ws with
  | case1 => exact (Nat.zero_div _).symm
  | case2 w ws ih =>
    obtain ⟨hw, hws⟩ := bounded_cons.mp h
    have hbase : base = 2 ^ r.toNat * 2 ^ (26 - r.toNat) := by
      unfold width at hr
      rw [← Nat.pow_add, Nat.add_sub_cancel' hr.le]
      rfl
    -- the limb that the shift makes is the lowest one of the quotient
    have hlow : toNat (w :: ws) / 2 ^ r.toNat =
        w.toNat / 2 ^ r.toNat + 2 ^ (26 - r.toNat) * toNat ws := by
      rw [toNat_cons, hbase, Nat.mul_assoc, Nat.add_mul_div_left _ _ (Nat.two_pow_pos _)]
    have hhigh : toNat (w :: ws) / 2 ^ r.toNat / base = toNat ws / 2 ^ r.toNat := by
      rw [Nat.div_div_eq_div_mul, Nat.mul_comm, ← Nat.div_div_eq_div_mul, toNat_cons,
        Nat.add_mul_div_left _ _ (by decide), Nat.div_eq_of_lt hw, Nat.zero_add]
    rw [toNat_cons, ih hws, toNat_low, toNat_shiftedDown hw hws.headD_lt hr, ← hhigh]
    conv_rhs => rw [← Nat.mod_add_div (toNat (w :: ws) / 2 ^ r.toNat) base]
    congr 1
    rw [hlow, toNat_headD_tail ws, Nat.mul_add, ← Nat.add_assoc, ← Nat.mul_assoc,
      Nat.mul_comm _ base, Nat.mul_assoc, Nat.add_mul_mod_self_left]

/-- A right shift divides by a power of two. -/
theorem toNat_shr (h : Bounded a) (bits : Nat) : toNat (shr a bits) = toNat a / 2 ^ bits := by
  unfold shr
  rw [two_pow_eq bits, ← Nat.div_div_eq_div_mul, ← toNat_drop h]
  split
  · next hzero => rw [hzero, Nat.pow_zero, Nat.div_one]
  · rw [toNat_trim, toNat_shrWith (h.drop _) (by
      rw [toNat_ofNat_offset]
      exact Nat.mod_lt bits (by decide)), toNat_ofNat_offset]

/-- The high limbs of a canonical magnitude are canonical. -/
theorem Canonical.drop (h : Canonical a) (count : Nat) : Canonical (a.drop count) := by
  induction count generalizing a with
  | zero => exact h
  | succ count ih =>
    cases a with
    | nil => exact canonical_nil
    | cons w ws => exact ih h.of_cons

/-- A canonical magnitude shifted right is canonical. -/
theorem canonical_shr (h : Canonical a) (bits : Nat) : Canonical (shr a bits) := by
  unfold shr
  split
  · exact h.drop _
  · exact (bounded_shrWith _ _).canonical_trim

/-- The word of one bit is a power of two. -/
theorem toNat_bitWord (bit : Nat) : (bitWord bit).toNat = 2 ^ (bit % width) := by
  have hlt : bit % width < 26 := Nat.mod_lt bit (by decide)
  have hpow : 2 ^ (bit % width) < 2 ^ 32 := Nat.pow_lt_pow_right (by decide) (by omega)
  rw [bitWord, UInt32.toNat_shiftLeft, UInt32.toNat_ofNat_of_lt' (by
    exact Nat.lt_trans hlt (by decide)), UInt32.toNat_one, Nat.one_shiftLeft,
    Nat.mod_eq_of_lt (Nat.lt_trans hlt (by decide)), Nat.mod_eq_of_lt hpow]

/-- The word of one bit is a limb. -/
theorem bitWord_lt (bit : Nat) : (bitWord bit).toNat < base := by
  rw [toNat_bitWord]
  exact Nat.pow_lt_pow_right (by decide) (Nat.mod_lt bit (by decide))

/-- The limbs of a power of two denote it. -/
theorem toNat_twoPow (bit : Nat) : toNat (twoPow bit) = 2 ^ bit := by
  rw [twoPow, toNat_append, toNat_replicate_zero, List.length_replicate, toNat_cons, toNat_nil,
    toNat_bitWord, Nat.mul_zero, Nat.add_zero, Nat.zero_add, ← two_pow_eq]

/-- The limbs of a power of two are limbs. -/
theorem bounded_twoPow (bit : Nat) : Bounded (twoPow bit) :=
  bounded_append.mpr
    ⟨bounded_replicate_zero _, bounded_cons.mpr ⟨bitWord_lt bit, bounded_nil⟩⟩

/-- The place of a bit within its limb is one within a word. -/
theorem offset_lt (bit : Nat) : bit % width < 32 :=
  Nat.lt_trans (Nat.mod_lt bit (by decide)) (by decide)

/-- A bit of a word, shifted down and masked. -/
theorem shiftRight_and_one_eq (w : UInt32) {offset : Nat} (h : offset < 32) :
    ((w >>> UInt32.ofNat offset) &&& 1 == 1) = w.toNat.testBit offset := by
  have hword : (UInt32.ofNat offset).toNat % 32 = offset := by
    rw [UInt32.toNat_ofNat_of_lt' (Nat.lt_trans h (by decide)), Nat.mod_eq_of_lt h]
  have hmod := Nat.toNat_testBit w.toNat offset
  have hiff : (w >>> UInt32.ofNat offset) &&& 1 = 1 ↔ w.toNat / 2 ^ offset % 2 = 1 := by
    rw [← UInt32.toNat_inj, UInt32.toNat_and, UInt32.toNat_shiftRight, hword,
      Nat.shiftRight_eq_div_pow]
    exact Eq.congr_left (Nat.and_two_pow_sub_one_eq_mod _ 1)
  rw [Bool.eq_iff_iff, beq_iff_eq, hiff, ← hmod]
  cases w.toNat.testBit offset <;> decide

/-- A bit of a magnitude is one of its lowest limb or one of the others. -/
theorem testBit_toNat_cons {w : UInt32} (hw : w.toNat < base) (ws : Limbs) (i : Nat) :
    (toNat (w :: ws)).testBit i =
      if i < width then w.toNat.testBit i else (toNat ws).testBit (i - width) := by
  rw [toNat_cons, Nat.add_comm, base]
  exact Nat.testBit_two_pow_mul_add _ hw i

/-- The bits of a magnitude are those of its number. -/
theorem testBit_eq (h : Bounded ws) (bit : Nat) : testBit ws bit = (toNat ws).testBit bit := by
  have hoffset := offset_lt bit
  rw [testBit, shiftRight_and_one_eq _ hoffset]
  induction ws generalizing bit with
  | nil => simp
  | cons w ws ih =>
    obtain ⟨hw, hws⟩ := bounded_cons.mp h
    rw [testBit_toNat_cons hw]
    rcases Nat.lt_or_ge bit width with hlow | hhigh
    · rw [Nat.div_eq_of_lt hlow, Nat.mod_eq_of_lt hlow]
      exact (if_pos hlow).symm
    · obtain ⟨rest, rfl⟩ := Nat.exists_eq_add_of_le hhigh
      rw [Nat.add_mod_left] at hoffset
      have hrest : (toNat ws).testBit (width + rest - width) = (toNat ws).testBit rest := by
        rw [Nat.add_sub_cancel_left]
      rw [Nat.add_div_left _ (by decide), Nat.add_mod_left, List.getD_cons_succ,
        ih hws rest hoffset]
      exact ((if_neg (Nat.not_lt.mpr hhigh)).trans hrest).symm

/-- Limbs stay limbs when one of them is changed into a limb. -/
theorem Bounded.modify (h : Bounded ws) {f : UInt32 → UInt32} (hf : ∀ w, w.toNat < base →
    (f w).toNat < base) (index : Nat) : Bounded (ws.modify index f) := by
  induction ws generalizing index with
  | nil => cases index <;> exact bounded_nil
  | cons w ws ih =>
    obtain ⟨hw, hws⟩ := bounded_cons.mp h
    cases index with
    | zero => exact bounded_cons.mpr ⟨hf w hw, hws⟩
    | succ index => exact bounded_cons.mpr ⟨hw, ih hws index⟩

/-- A word of no more bits than a limb is a limb. -/
theorem and_lt {x : UInt32} (hx : x.toNat < base) (y : UInt32) : (x &&& y).toNat < base := by
  rw [UInt32.toNat_and]
  exact Nat.lt_of_le_of_lt Nat.and_le_left hx

/-- The bits of two limbs together are a limb. -/
theorem or_lt {x y : UInt32} (hx : x.toNat < base) (hy : y.toNat < base) :
    (x ||| y).toNat < base := by
  rw [UInt32.toNat_or]
  exact Nat.or_lt_two_pow hx hy

/-- The bits of one of two limbs only are a limb. -/
theorem xor_lt {x y : UInt32} (hx : x.toNat < base) (hy : y.toNat < base) :
    (x ^^^ y).toNat < base := by
  rw [UInt32.toNat_xor]
  exact Nat.xor_lt_two_pow hx hy

/-- Limbs stay limbs when a bit is set. -/
theorem bounded_setBit (h : Bounded a) (bit : Nat) : Bounded (setBit a bit) :=
  (bounded_append.mpr ⟨h, bounded_replicate_zero _⟩).modify
    (fun _ hw ↦ or_lt hw (bitWord_lt bit)) _

/-- Limbs stay limbs when a bit is cleared. -/
theorem bounded_clearBit (h : Bounded a) (bit : Nat) : Bounded (clearBit a bit) :=
  (h.modify (fun _ hw ↦ and_lt hw _) _).trim

/-- The low bits of limbs are limbs. -/
theorem bounded_lowBits (h : Bounded a) (bits : Nat) : Bounded (lowBits a bits) := by
  refine (bounded_append.mpr ⟨h.take _, fun w hw ↦ ?_⟩).trim
  obtain ⟨v, hv, rfl⟩ := List.mem_map.mp hw
  exact and_lt ((h.drop _).take _ v hv) _

/-- The mask of an offset within a limb has the bits below the offset. -/
theorem toNat_offsetMask {offset : Nat} (h : offset < width) :
    (mask >>> UInt32.ofNat (width - offset)).toNat = 2 ^ offset - 1 := by
  have hall : ∀ r < 26, (mask >>> UInt32.ofNat (width - r)).toNat = 2 ^ r - 1 := by decide +kernel
  exact hall offset h

/-- The masked lowest limb is the remainder modulo the power of the offset. -/
theorem toNat_map_offsetMask (ws : Limbs) {offset : Nat} (h : offset < width) :
    toNat ((ws.take (if offset = 0 then 0 else 1)).map
      (· &&& (mask >>> UInt32.ofNat (width - offset)))) = toNat ws % 2 ^ offset := by
  cases ws with
  | nil => rw [List.take_nil, List.map_nil, toNat_nil, Nat.zero_mod]
  | cons w ws =>
    split
    · next hzero => rw [hzero, Nat.pow_zero, Nat.mod_one, List.take_zero, List.map_nil, toNat_nil]
    · have hbase : base = 2 ^ offset * 2 ^ (width - offset) := by
        rw [← Nat.pow_add, Nat.add_sub_cancel' (Nat.le_of_lt h)]
        rfl
      rw [List.take_succ_cons, List.take_zero, List.map_cons, List.map_nil, toNat_cons, toNat_nil,
        Nat.mul_zero, Nat.add_zero, UInt32.toNat_and, toNat_offsetMask h,
        Nat.and_two_pow_sub_one_eq_mod, toNat_cons, hbase, Nat.mul_assoc, Nat.add_mul_mod_self_left]

/-- The low bits of limbs denote the remainder modulo the power of two. -/
theorem toNat_lowBits (h : Bounded a) (bits : Nat) :
    toNat (lowBits a bits) = toNat a % 2 ^ bits := by
  have hoffset : bits % width < width := Nat.mod_lt bits (by decide)
  rw [lowBits, toNat_trim, toNat_append, toNat_map_offsetMask _ hoffset, toNat_take h,
    two_pow_eq bits, Nat.mod_mul, ← toNat_drop h]
  rcases Nat.le_total (bits / width) a.length with hle | hge
  · rw [List.length_take_of_le hle]
  · rw [List.drop_of_length_le hge, toNat_nil, Nat.zero_mod, Nat.mul_zero, Nat.mul_zero]

/-- Limbs combined at equal positions are limbs when the operation makes limbs of limbs. -/
theorem bounded_bitwise {op : UInt32 → UInt32 → UInt32}
    (hop : ∀ x y : UInt32, x.toNat < base → y.toNat < base → (op x y).toNat < base)
    (hxs : Bounded xs) (hys : Bounded ys) : Bounded (bitwise op xs ys) := by
  have hzero : (0 : UInt32).toNat < base := by decide
  fun_induction bitwise op xs ys with
  | case1 => exact bounded_nil
  | case2 x xs ih =>
    obtain ⟨hx, hxs⟩ := bounded_cons.mp hxs
    exact bounded_cons.mpr ⟨hop x 0 hx hzero, ih hxs hys⟩
  | case3 y ys ih =>
    obtain ⟨hy, hys⟩ := bounded_cons.mp hys
    exact bounded_cons.mpr ⟨hop 0 y hzero hy, ih hxs hys⟩
  | case4 x xs y ys ih =>
    obtain ⟨hx, hxs⟩ := bounded_cons.mp hxs
    obtain ⟨hy, hys⟩ := bounded_cons.mp hys
    exact bounded_cons.mpr ⟨hop x y hx hy, ih hxs hys⟩

/-- An operation on words that makes each bit from the bits at its position. -/
def ActsOnBits (op : UInt32 → UInt32 → UInt32) (f : Bool → Bool → Bool) : Prop :=
  ∀ x y i, (op x y).toNat.testBit i = f (x.toNat.testBit i) (y.toNat.testBit i)

/-- Conjunction of words is that of their bits. -/
theorem actsOnBits_and : ActsOnBits (· &&& ·) (· && ·) := fun x y i ↦ by
  rw [UInt32.toNat_and, Nat.testBit_and]

/-- Disjunction of words is that of their bits. -/
theorem actsOnBits_or : ActsOnBits (· ||| ·) (· || ·) := fun x y i ↦ by
  rw [UInt32.toNat_or, Nat.testBit_or]

/-- Exclusive disjunction of words is that of their bits. -/
theorem actsOnBits_xor : ActsOnBits (· ^^^ ·) (· ^^ ·) := fun x y i ↦ by
  rw [UInt32.toNat_xor, Nat.testBit_xor]

variable {op : UInt32 → UInt32 → UInt32} {f : Bool → Bool → Bool}

/-- No bit is made where there are none, since a word has none above its width. -/
theorem ActsOnBits.false_false (h : ActsOnBits op f) : f false false = false := by
  have hhigh := h 0 0 32
  rw [Nat.testBit_lt_two_pow (op 0 0).toNat_lt] at hhigh
  exact hhigh.symm

/-- Limbs are made of limbs. -/
theorem ActsOnBits.lt_base (h : ActsOnBits op f) (x y : UInt32) (hx : x.toNat < base)
    (hy : y.toNat < base) : (op x y).toNat < base := by
  refine Nat.lt_pow_two_of_testBit _ fun i hi ↦ ?_
  have hpow : base ≤ 2 ^ i := Nat.pow_le_pow_right (by decide) hi
  rw [h, Nat.testBit_lt_two_pow (hx.trans_le hpow), Nat.testBit_lt_two_pow (hy.trans_le hpow),
    h.false_false]

/-- Limbs combined at equal positions have the bits that the operation makes. -/
theorem testBit_bitwise (hop : ActsOnBits op f) (hxs : Bounded xs) (hys : Bounded ys) (i : Nat) :
    (toNat (bitwise op xs ys)).testBit i = f ((toNat xs).testBit i) ((toNat ys).testBit i) := by
  have hzero : (0 : UInt32).toNat < base := by decide
  have hnil (i : Nat) : (toNat []).testBit i =
      if i < width then (0 : UInt32).toNat.testBit i else (toNat []).testBit (i - width) := by
    simp
  fun_induction bitwise op xs ys generalizing i with
  | case1 => rw [toNat_nil, Nat.zero_testBit, hop.false_false]
  | case2 x xs ih =>
    obtain ⟨hx, hxs⟩ := bounded_cons.mp hxs
    rw [testBit_toNat_cons (hop.lt_base x 0 hx hzero), testBit_toNat_cons hx, hnil, hop, ih hxs hys]
    split <;> rfl
  | case3 y ys ih =>
    obtain ⟨hy, hys⟩ := bounded_cons.mp hys
    rw [testBit_toNat_cons (hop.lt_base 0 y hzero hy), testBit_toNat_cons hy, hnil, hop, ih hxs hys]
    split <;> rfl
  | case4 x xs y ys ih =>
    obtain ⟨hx, hxs⟩ := bounded_cons.mp hxs
    obtain ⟨hy, hys⟩ := bounded_cons.mp hys
    rw [testBit_toNat_cons (hop.lt_base x y hx hy), testBit_toNat_cons hx, testBit_toNat_cons hy,
      hop, ih hxs hys]
    split <;> rfl

end Secp.Limbs
