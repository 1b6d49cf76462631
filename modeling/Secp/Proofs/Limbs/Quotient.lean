import Secp.Proofs.Limbs.Shift
import Secp.Proofs.Limbs.Window

/-!
# Quotients of magnitudes are exact

Division by a word and long division give the quotient and the remainder below the divisor, both
canonical. Long division keeps a remainder below the divisor in front of the limbs still to be
brought down, so that every quotient limb is a limb. Shifting both operands up first scales the
remainder, and shifting that down again undoes it.
-/

namespace Secp.Limbs

variable {a b us v r : Limbs}

/-- The quotient of a remainder with one more limb brought down is a limb. -/
theorem extended_div_lt {d r w : Nat} (hw : w < base) (hr : r < d) : (r * base + w) / d < base := by
  rw [Nat.div_lt_iff_lt_mul (Nat.zero_lt_of_lt hr), Nat.mul_comm base]
  calc r * base + w < (r + 1) * base := by
        rw [Nat.succ_mul]
        exact Nat.add_lt_add_left hw _
    _ ≤ d * base := Nat.mul_le_mul_right _ hr

/-- The words of a division are its quotient and remainder. -/
theorem divWordWith_spec {d : UInt64} (ha : Bounded a) (hpos : 0 < d.toNat)
    (hd : d.toNat < 2 ^ 32) :
    toNat (divWordWith d a).1 * d.toNat + (divWordWith d a).2.toNat = toNat a ∧
      Bounded (divWordWith d a).1 ∧ (divWordWith d a).2.toNat < d.toNat := by
  induction a with
  | nil => exact ⟨by simp [divWordWith], bounded_nil, hpos⟩
  | cons w ws ih =>
    obtain ⟨hw, hws⟩ := bounded_cons.mp ha
    obtain ⟨hsum, hbounded, hlt⟩ := ih hws
    rcases hrest : divWordWith d ws with ⟨q, r⟩
    rw [hrest] at hsum hbounded hlt
    simp only [divWordWith, hrest]
    have ht : ((r <<< 26) ||| w.toUInt64).toNat = r.toNat * base + w.toNat :=
      toNat_shiftLimb (hlt.trans hd) hw
    have hdigit := extended_div_lt hw hlt
    have hword : (((r <<< 26) ||| w.toUInt64) / d).toUInt32.toNat =
        (r.toNat * base + w.toNat) / d.toNat := by
      rw [toNat_toUInt32, UInt64.toNat_div, ht]
      rw [UInt64.toNat_div, ht]
      exact hdigit.trans (by decide)
    refine ⟨?_, bounded_cons.mpr ⟨hword.trans_lt hdigit, hbounded⟩, ?_⟩
    · rw [toNat_cons, toNat_cons, hword, UInt64.toNat_mod, ht, ← hsum]
      have hsplit := Nat.div_add_mod' (r.toNat * base + w.toNat) d.toNat
      rw [Nat.add_mul, Nat.mul_assoc, Nat.add_right_comm, hsplit]
      ring
    · rw [UInt64.toNat_mod]
      exact Nat.mod_lt _ hpos

/-- Quotient and remainder of two magnitudes. -/
structure Division (a b q r : Limbs) : Prop where
  canonical_quotient : Canonical q
  canonical_remainder : Canonical r
  sum_eq : toNat q * toNat b + toNat r = toNat a
  remainder_lt : toNat r < toNat b

/-- Quotient and remainder of magnitudes are those of their numbers. -/
theorem Division.eq_div_mod (h : Division a b q r) :
    toNat q = toNat a / toNat b ∧ toNat r = toNat a % toNat b := by
  have hpos : 0 < toNat b := Nat.lt_of_le_of_lt (Nat.zero_le _) h.remainder_lt
  have hsum : toNat r + toNat b * toNat q = toNat a := by
    rw [← h.sum_eq, Nat.add_comm, Nat.mul_comm]
  obtain ⟨hquotient, hremainder⟩ := (Nat.div_mod_unique hpos).mpr ⟨hsum, h.remainder_lt⟩
  exact ⟨hquotient.symm, hremainder.symm⟩

/-- Division by a word gives the quotient in canonical form and the remainder. -/
theorem divWord_spec {d : UInt32} (ha : Bounded a) (hd : d ≠ 0) :
    toNat (divWord a d).1 * d.toNat + (divWord a d).2.toNat = toNat a ∧
      Canonical (divWord a d).1 ∧ (divWord a d).2.toNat < d.toNat := by
  have hpos : 0 < d.toUInt64.toNat := Nat.pos_of_ne_zero fun hzero ↦ hd (UInt32.toNat_inj.mp hzero)
  have hlt : d.toUInt64.toNat < 2 ^ 32 := d.toNat_lt
  obtain ⟨hsum, hbounded, hrest⟩ := divWordWith_spec ha hpos hlt
  rcases hdivision : divWordWith d.toUInt64 a with ⟨q, r⟩
  rw [hdivision] at hsum hbounded hrest
  simp only [divWord, hdivision]
  rw [toNat_trim, toNat_toUInt32 (hrest.trans hlt)]
  exact ⟨hsum, hbounded.canonical_trim, hrest⟩

/-- Division by a word gives the quotient and the remainder of the number. -/
theorem toNat_divWord {d : UInt32} (ha : Bounded a) (hd : d ≠ 0) :
    toNat (divWord a d).1 = toNat a / d.toNat ∧ (divWord a d).2.toNat = toNat a % d.toNat := by
  obtain ⟨hsum, -, hlt⟩ := divWord_spec ha hd
  rw [Nat.add_comm, Nat.mul_comm] at hsum
  obtain ⟨hquotient, hremainder⟩ :=
    (Nat.div_mod_unique (Nat.zero_lt_of_lt hlt)).mpr ⟨hsum, hlt⟩
  exact ⟨hquotient.symm, hremainder.symm⟩

/-- A remainder with one more limb brought down is a window whose quotient is a limb. -/
theorem IsRemainder.toNat_window_lt {u : UInt32} (h : IsRemainder v r) (hu : u.toNat < base) :
    toNat (u :: r) < base * toNat v := by
  have hmul := Nat.mul_le_mul_left base h.toNat_lt
  rw [Nat.mul_succ] at hmul
  rw [toNat_cons]
  omega

/-- Long division gives quotient limbs and a remainder. -/
theorem longDivide_spec (hv : Normalized v) (hus : Bounded us) (hr : IsRemainder v r) :
    toNat (longDivide v r us).1 * toNat v + toNat (longDivide v r us).2 =
        toNat us + base ^ us.length * toNat r ∧
      Bounded (longDivide v r us).1 ∧ IsRemainder v (longDivide v r us).2 := by
  induction us with
  | nil => exact ⟨by simp [longDivide], bounded_nil, hr⟩
  | cons u us ih =>
    obtain ⟨hu, hus⟩ := bounded_cons.mp hus
    obtain ⟨hsum, hbounded, hrest⟩ := ih hus
    rcases hbelow : longDivide v r us with ⟨q, rest⟩
    rw [hbelow] at hsum hbounded hrest
    dsimp only at hsum hbounded hrest
    obtain ⟨hstep, hdigit, hnext⟩ := divStep_spec hv (bounded_cons.mpr ⟨hu, hrest.bounded⟩)
      (congrArg Nat.succ hrest.length_eq) (hrest.toNat_window_lt hu)
    simp only [longDivide, hbelow]
    refine ⟨?_, bounded_cons.mpr ⟨hdigit, hbounded⟩, hnext⟩
    rw [toNat_cons] at hstep
    rw [toNat_cons, toNat_cons, List.length_cons, Nat.pow_succ']
    calc ((divStep v (u :: rest)).1.toNat + base * toNat q) * toNat v +
          toNat (divStep v (u :: rest)).2
        = (divStep v (u :: rest)).1.toNat * toNat v + toNat (divStep v (u :: rest)).2 +
            base * (toNat q * toNat v) := by ring
      _ = u.toNat + base * (toNat q * toNat v + toNat rest) := by rw [hstep]; ring
      _ = u.toNat + base * toNat us + base * base ^ us.length * toNat r := by rw [hsum]; ring

/-- A canonical magnitude with its top limb. -/
theorem Canonical.exists_top (h : Canonical b) {top : UInt32} (htop : b.getLast? = some top) :
    ∃ low, b = low ++ [top] ∧ Bounded low ∧ top.toNat < base ∧ 0 < top.toNat := by
  obtain ⟨low, rfl⟩ := List.getLast?_eq_some_iff.mp htop
  obtain ⟨hlow, hlead⟩ := bounded_append.mp h.1
  refine ⟨low, rfl, hlow, hlead top List.mem_cons_self, Nat.pos_of_ne_zero fun hzero ↦ h.2 ?_⟩
  rw [htop, show top = 0 from UInt32.toNat_inj.mp hzero]

/-- A limb has no more bits than the limbs' width. -/
theorem bitLength_le_width {w : UInt32} (h : w.toNat < base) :
    Number.bitLength w.toNat ≤ width := by
  by_contra hgt
  have hle := (Number.lt_bitLength_iff w.toNat width).mp (Nat.lt_of_not_le hgt)
  exact absurd h (Nat.not_lt.mpr hle)

/-- The shift that sets the top bit of a limb: it is less than a limb's width, and takes the limb
to at least half of the base without passing it. -/
theorem normalizing_shift {top : UInt32} (hpos : 0 < top.toNat) (hlt : top.toNat < base) :
    width - Number.bitLength top.toNat < width ∧
      (top.toNat + 1) * 2 ^ (width - Number.bitLength top.toNat) ≤ base ∧
      base ≤ 2 * (top.toNat * 2 ^ (width - Number.bitLength top.toNat)) := by
  have hbits : 0 < Number.bitLength top.toNat := (Number.lt_bitLength_iff _ 0).mpr hpos
  have hwidth : Number.bitLength top.toNat ≤ width := bitLength_le_width hlt
  have hupper : top.toNat + 1 ≤ 2 ^ Number.bitLength top.toNat := Number.lt_two_pow_bitLength _
  have hlower : 2 ^ (Number.bitLength top.toNat - 1) ≤ top.toNat :=
    (Number.lt_bitLength_iff _ _).mp (Nat.sub_lt hbits Nat.one_pos)
  have hpow : 2 ^ Number.bitLength top.toNat * 2 ^ (width - Number.bitLength top.toNat) = base := by
    rw [← Nat.pow_add, Nat.add_sub_cancel' hwidth]
    rfl
  refine ⟨Nat.sub_lt (by decide) hbits, ?_, ?_⟩
  · rw [← hpow]
    exact Nat.mul_le_mul_right _ hupper
  · rw [← hpow, ← Nat.sub_add_cancel hbits, Nat.pow_succ', Nat.sub_add_cancel hbits, Nat.mul_assoc]
    exact Nat.mul_le_mul_left 2 (Nat.mul_le_mul_right _ hlower)

/-- A divisor of two limbs or more is normalized by the shift that sets the top bit of its top
limb, in as many limbs. -/
theorem normalized_shl (hb : Canonical b) (htwo : 2 ≤ b.length) {top : UInt32}
    (htop : b.getLast? = some top) :
    Normalized (shl b (width - Number.bitLength top.toNat)) ∧
      (shl b (width - Number.bitLength top.toNat)).length = b.length := by
  obtain ⟨low, hlow, hbounded, hlt, hpos⟩ := hb.exists_top htop
  obtain ⟨-, hupper, hlower⟩ := normalizing_shift hpos hlt
  generalize width - Number.bitLength top.toNat = s at *
  have hvalue := toNat_shl hb.1 s
  have hcanonical := canonical_shl hb s
  have hlength : b.length = low.length + 1 := by rw [hlow, List.length_append]; rfl
  have hsplit : toNat b = toNat low + base ^ low.length * top.toNat := by
    rw [hlow, toNat_append, toNat_cons, toNat_nil, Nat.mul_zero, Nat.add_zero]
  have hpow : base ^ b.length ≤ 2 * toNat (shl b s) := by
    rw [hvalue, hsplit, hlength, Nat.pow_succ]
    calc base ^ low.length * base ≤ base ^ low.length * (2 * (top.toNat * 2 ^ s)) :=
          Nat.mul_le_mul_left _ hlower
      _ = 2 * (base ^ low.length * top.toNat * 2 ^ s) := by ring
      _ ≤ 2 * ((toNat low + base ^ low.length * top.toNat) * 2 ^ s) :=
          Nat.mul_le_mul_left 2 (Nat.mul_le_mul_right _ (Nat.le_add_left _ _))
  have hfits : toNat (shl b s) < base ^ b.length := by
    rw [hvalue, hsplit, hlength, Nat.pow_succ]
    calc (toNat low + base ^ low.length * top.toNat) * 2 ^ s
        < base ^ low.length * (top.toNat + 1) * 2 ^ s := by
          refine Nat.mul_lt_mul_of_pos_right ?_ (Nat.two_pow_pos s)
          rw [Nat.mul_succ, Nat.add_comm]
          exact Nat.add_lt_add_left hbounded.toNat_lt _
      _ ≤ base ^ low.length * base := by
          rw [Nat.mul_assoc]
          exact Nat.mul_le_mul_left _ hupper
  have hne : shl b s ≠ [] := fun hnil ↦ by
    rw [hnil, toNat_nil, Nat.mul_zero] at hpow
    exact absurd hpow (Nat.not_le.mpr (Nat.pow_pos (by decide)))
  have hshifted : (shl b s).length = b.length := by
    apply Nat.le_antisymm
    · have hlt := Nat.lt_of_le_of_lt (hcanonical.pow_le hne) hfits
      have := (Nat.pow_lt_pow_iff_right (by decide)).mp hlt
      omega
    · have hlt : base ^ b.length < base ^ ((shl b s).length + 1) := by
        rw [Nat.pow_succ']
        refine Nat.lt_of_le_of_lt hpow ?_
        exact Nat.mul_lt_mul_of_le_of_lt (by decide) hcanonical.1.toNat_lt (by decide)
      exact Nat.lt_succ_iff.mp ((Nat.pow_lt_pow_iff_right (by decide)).mp hlt)
  exact ⟨⟨hcanonical.1, hshifted ▸ htwo, hshifted ▸ hpow⟩, hshifted⟩

/-- A shift within a limb takes at most one limb more. -/
theorem length_shl_le (a : Limbs) {bits : Nat} (h : bits < width) :
    (shl a bits).length ≤ a.length + 1 := by
  unfold shl
  split
  · exact Nat.zero_le _
  · rw [Nat.div_eq_of_lt h, List.replicate_zero, List.nil_append]
    split
    · exact Nat.le_succ _
    · exact length_shlWith_le _ _ _

/-- Zero limbs above a magnitude do not change its number. -/
theorem toNat_append_replicate_zero (a : Limbs) (count : Nat) :
    toNat (a ++ List.replicate count 0) = toNat a := by
  rw [toNat_append, toNat_replicate_zero, Nat.mul_zero, Nat.add_zero]

/-- Dividend and divisor of a long division, shifted up alike: the divisor `v` is normalized, and
the dividend `u` has one limb of room. -/
structure Prepared (a b : Limbs) (s : Nat) (v u : Limbs) : Prop where
  shift_lt : s < width
  normalized : Normalized v
  length_divisor : v.length = b.length
  toNat_divisor : toNat v = toNat b * 2 ^ s
  bounded : Bounded u
  length_dividend : u.length = a.length + 1
  toNat_dividend : toNat u = toNat a * 2 ^ s
  length_le : v.length ≤ u.length

/-- The shift that sets the top bit of the divisor's top limb prepares a dividend that is no
smaller. -/
theorem prepared_shl (ha : Canonical a) (hb : Canonical b) (htwo : 2 ≤ b.length) {top : UInt32}
    (htop : b.getLast? = some top) {s : Nat} (hs : s = width - Number.bitLength top.toNat)
    (hle : toNat b ≤ toNat a) :
    Prepared a b s (shl b s)
      (shl a s ++ List.replicate (a.length + 1 - (shl a s).length) 0) := by
  subst hs
  obtain ⟨low, -, -, hlimb, hpos⟩ := hb.exists_top htop
  obtain ⟨hshift, -⟩ := normalizing_shift hpos hlimb
  obtain ⟨hnormalized, hshifted⟩ := normalized_shl hb htwo htop
  have hne : b ≠ [] := by
    rintro rfl
    exact absurd htop nofun
  have hlength : (shl a (width - Number.bitLength top.toNat) ++ List.replicate
      (a.length + 1 - (shl a (width - Number.bitLength top.toNat)).length) 0).length =
        a.length + 1 := by
    have hroom := length_shl_le a hshift
    rw [List.length_append, List.length_replicate]
    omega
  -- a divisor longer than the dividend would be larger
  have hpow := Nat.lt_of_le_of_lt ((hb.pow_le hne).trans hle) ha.1.toNat_lt
  have hlimbs := (Nat.pow_lt_pow_iff_right (by decide)).mp hpow
  exact {
    shift_lt := hshift
    normalized := hnormalized
    length_divisor := hshifted
    toNat_divisor := toNat_shl hb.1 _
    bounded := bounded_append.mpr ⟨bounded_shl ha.1 _, bounded_replicate_zero _⟩
    length_dividend := hlength
    toNat_dividend := by rw [toNat_append_replicate_zero, toNat_shl ha.1]
    length_le := by omega }

/-- The leading limbs of the prepared dividend are a remainder by the prepared divisor. -/
theorem Prepared.isRemainder_drop {u : Limbs} {s : Nat} (h : Prepared a b s v u) (ha : Bounded a) :
    IsRemainder v (u.drop (u.length - v.length)) := by
  have hle := h.length_le
  refine ⟨h.bounded.drop _, ?_, ?_⟩
  · rw [List.length_drop]
    omega
  · rw [toNat_drop h.bounded, Nat.div_lt_iff_lt_mul (Nat.pow_pos (by decide))]
    apply Nat.lt_of_mul_lt_mul_left (a := 2)
    calc 2 * toNat u = toNat a * 2 ^ (s + 1) := by rw [h.toNat_dividend, Nat.pow_succ]; ring
      _ < base ^ a.length * 2 ^ (s + 1) :=
          Nat.mul_lt_mul_of_pos_right ha.toNat_lt (Nat.two_pow_pos _)
      _ ≤ base ^ a.length * base :=
          Nat.mul_le_mul_left _ (Nat.pow_le_pow_right (by decide) h.shift_lt)
      _ = base ^ v.length * base ^ (u.length - v.length) := by
          rw [← Nat.pow_succ, ← Nat.pow_add, Nat.add_sub_cancel' hle, h.length_dividend]
      _ ≤ 2 * toNat v * base ^ (u.length - v.length) :=
          Nat.mul_le_mul_right _ h.normalized.pow_le
      _ = 2 * (toNat v * base ^ (u.length - v.length)) := Nat.mul_assoc _ _ _

/-- A division of two numbers scaled alike has the same quotient and the scaled remainder. -/
theorem scaled_division {A B q r c : Nat} (hc : 0 < c) (hsum : q * (B * c) + r = A * c)
    (hlt : r < B * c) : q * B + r / c = A ∧ r / c < B := by
  refine ⟨?_, (Nat.div_lt_iff_lt_mul hc).mpr hlt⟩
  rw [← Nat.mul_assoc] at hsum
  rw [← Nat.mul_add_div hc, Nat.mul_comm c, hsum, Nat.mul_div_cancel _ hc]

/-- Long division of the prepared operands, with the remainder shifted down again. -/
theorem Prepared.division {u : Limbs} {s : Nat} (h : Prepared a b s v u) (ha : Bounded a) :
    Division a b
      (trim (longDivide v (u.drop (u.length - v.length)) (u.take (u.length - v.length))).1)
      (shr (trim (longDivide v (u.drop (u.length - v.length))
        (u.take (u.length - v.length))).2) s) := by
  obtain ⟨hsum, hquotient, hremainder⟩ :=
    longDivide_spec h.normalized (h.bounded.take (u.length - v.length)) (h.isRemainder_drop ha)
  have htake : (u.take (u.length - v.length)).length = u.length - v.length := by
    rw [List.length_take]
    omega
  rw [htake, toNat_take_add_drop u _ (Nat.sub_le _ _), h.toNat_divisor, h.toNat_dividend] at hsum
  have hlt := hremainder.toNat_lt
  rw [h.toNat_divisor] at hlt
  obtain ⟨hexact, hbelow⟩ := scaled_division (Nat.two_pow_pos s) hsum hlt
  have hnumber := toNat_shr hremainder.bounded.trim s
  rw [toNat_trim] at hnumber
  refine ⟨hquotient.canonical_trim, canonical_shr hremainder.bounded.canonical_trim s, ?_, ?_⟩
  · rw [toNat_trim, hnumber]
    exact hexact
  · rw [hnumber]
    exact hbelow

/-- The quotient and the remainder of two canonical magnitudes are those of their numbers, and
canonical. -/
theorem divRem_spec (ha : Canonical a) (hb : Canonical b) (hne : b ≠ []) :
    Division a b (divRem a b).1 (divRem a b).2 := by
  have hcompare := compare_eq ha hb
  unfold divRem
  split
  · next hnone => exact absurd (List.getLast?_eq_none_iff.mp hnone) hne
  · next top htop =>
    obtain ⟨low, hlow, -, hlimb, hpos⟩ := hb.exists_top htop
    split
    · next hlt =>
      rw [hcompare] at hlt
      exact ⟨canonical_nil, ha, by simp, Nat.compare_eq_lt.mp hlt⟩
    · next hge =>
      split
      · next hone =>
        have hnil : low = [] := by
          rw [hlow, List.length_append] at hone
          exact List.eq_nil_of_length_eq_zero (Nat.succ.inj hone)
        have hvalue : toNat b = top.toNat := by
          rw [hlow, hnil]
          exact Nat.add_zero _
        obtain ⟨hsum, hquotient, hrest⟩ := divWord_spec (d := top) ha.1
          fun hzero ↦ Nat.ne_of_gt hpos (congrArg UInt32.toNat hzero)
        have hremainder : Canonical (trim [(divWord a top).2]) :=
          (bounded_cons.mpr ⟨hrest.trans hlimb, bounded_nil⟩).canonical_trim
        have hnumber : toNat (trim [(divWord a top).2]) = (divWord a top).2.toNat := by
          rw [toNat_trim]
          exact Nat.add_zero _
        refine ⟨hquotient, hremainder, ?_, ?_⟩
        · rw [hvalue]
          exact (congrArg (_ + ·) hnumber).trans hsum
        · rw [hvalue]
          exact hnumber.trans_lt hrest
      · next hone =>
        have hlength : b.length = low.length + 1 := by rw [hlow, List.length_append]; rfl
        have hle : toNat b ≤ toNat a := by
          rw [hcompare] at hge
          exact Nat.le_of_not_lt (mt Nat.compare_eq_lt.mpr hge)
        exact (prepared_shl ha hb (by omega) htop rfl hle).division ha.1

end Secp.Limbs
