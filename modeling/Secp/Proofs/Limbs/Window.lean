import Secp.Proofs.Limbs.Estimate

/-!
# One step of long division

Subtracting the estimated multiple from the window leaves a borrow exactly when the estimate is one
more than the true quotient limb, and adding the divisor back once mends it. So one step gives the
quotient limb, and the remainder of the window in as many limbs as the divisor has.
-/

namespace Secp.Limbs

variable {u v us vs : Limbs}

/-- A limb of a multiple, with its carry. -/
theorem toNat_scaledLimb {w : UInt32} {q c : UInt64} (hq : q.toNat < base) (hw : w.toNat < base)
    (hc : c.toNat < base) : (q * w.toUInt64 + c).toNat = q.toNat * w.toNat + c.toNat := by
  have hle := Nat.mul_le_mul hq.le hw.le
  rw [base_eq] at *
  rw [← UInt32.toNat_toUInt64 w] at *
  exact toNat_mul_add64 (by omega)

/-- The carry out of a limb of a multiple is a limb. -/
theorem scaledCarry_lt {w : UInt32} {q c : UInt64} (hq : q.toNat < base) (hw : w.toNat < base)
    (hc : c.toNat < base) : (high (q * w.toUInt64 + c)).toNat < base := by
  have hle : q.toNat * w.toNat ≤ (base - 1) * (base - 1) :=
    Nat.mul_le_mul (Nat.le_pred_of_lt hq) (Nat.le_pred_of_lt hw)
  rw [toNat_high, toNat_scaledLimb hq hw hc]
  rw [base_eq] at *
  omega

/-- A limb of a difference, with the base lent to it. -/
theorem toNat_differenceLimb {w : UInt32} {b : UInt64} (hw : w.toNat < base) (hb : b.toNat ≤ 1)
    (p : UInt64) : (w.toUInt64 + baseWord.toUInt64 - b - (low p).toUInt64).toNat =
      w.toNat + base - b.toNat - p.toNat % base := by
  have hbase : baseWord.toUInt64.toNat = base := rfl
  have hlow : (low p).toUInt64.toNat = p.toNat % base := by
    rw [UInt32.toNat_toUInt64, toNat_low]
  have hlt := Nat.mod_lt p.toNat (show 0 < base by decide)
  rw [UInt64.toNat_sub, UInt64.toNat_sub, UInt64.toNat_add, hlow, hbase, UInt32.toNat_toUInt64]
  rw [base_eq] at *
  omega

/-- Subtracting a multiple from a window leaves a borrow for what the window lacks. -/
theorem toNat_subScaled {q c b : UInt64} (hus : Bounded us) (hvs : Bounded vs)
    (hq : q.toNat < base) (hc : c.toNat < base) (hb : b.toNat ≤ 1)
    (hfits : q.toNat * toNat vs + c.toNat < base ^ us.length) :
    toNat (subScaled q us vs c b).1 + q.toNat * toNat vs + c.toNat + b.toNat =
      toNat us + (if (subScaled q us vs c b).2 then base ^ us.length else 0) := by
  fun_induction subScaled q us vs c b with
  | case1 vs c b =>
    have hzero : q.toNat * toNat vs + c.toNat = 0 := Nat.lt_one_iff.mp hfits
    rw [toNat_nil, Nat.zero_add, hzero, Nat.zero_add, Nat.zero_add, List.length_nil, Nat.pow_zero]
    rcases Nat.le_one_iff_eq_zero_or_eq_one.mp hb with hb | hb
    · rw [show b = 0 from UInt64.toNat_inj.mp hb]
      rfl
    · rw [show b = 1 from UInt64.toNat_inj.mp hb]
      rfl
  | case2 u us vs c b p t rest borrowed hrest ih =>
    obtain ⟨hu, hus⟩ := bounded_cons.mp hus
    have hv := hvs.headD_lt
    have hp : p.toNat = q.toNat * (vs.headD 0).toNat + c.toNat := toNat_scaledLimb hq hv hc
    have ht : t.toNat = u.toNat + base - b.toNat - p.toNat % base :=
      toNat_differenceLimb hu hb p
    have hborrow : (1 - high t).toNat = 1 - t.toNat / base := by
      rw [UInt64.toNat_sub_of_le, toNat_high, UInt64.toNat_one]
      rw [UInt64.le_iff_toNat_le, toNat_high, ht, UInt64.toNat_one]
      rw [base_eq] at *
      omega
    have hcarry : (high p).toNat < base := scaledCarry_lt hq hv hc
    -- the product is split like the window
    have hproduct : q.toNat * toNat vs + c.toNat =
        base * (q.toNat * toNat vs.tail) + p.toNat := by
      rw [toNat_headD_tail vs, hp]
      ring
    rw [List.length_cons, Nat.pow_succ'] at hfits ⊢
    have hfits' : q.toNat * toNat vs.tail + (high p).toNat < base ^ us.length := by
      refine Nat.lt_of_mul_lt_mul_left (a := base) (Nat.lt_of_le_of_lt ?_ hfits)
      rw [hproduct, toNat_high, Nat.mul_add]
      exact Nat.add_le_add_left (Nat.mul_div_le _ _) _
    have hstep := ih hus hvs.tail hcarry (hborrow.trans_le (Nat.sub_le _ _)) hfits'
    rw [hrest, toNat_high, hborrow] at hstep
    dsimp only at hstep ⊢
    have hscale : (if borrowed then base * base ^ us.length else 0) =
        base * (if borrowed then base ^ us.length else 0) := by
      split <;> rfl
    rw [Nat.add_assoc (toNat _), hproduct, toNat_cons, toNat_cons, toNat_low, hscale]
    generalize (if borrowed then base ^ us.length else 0) = lent at hstep ⊢
    generalize q.toNat * toNat vs.tail = x at hstep ⊢
    rw [base_eq] at *
    omega

/-- A difference of windows has as many limbs as the window. -/
theorem length_subScaled (q : UInt64) (us vs : Limbs) (c b : UInt64) :
    (subScaled q us vs c b).1.length = us.length := by
  fun_induction subScaled q us vs c b with
  | case1 => rfl
  | case2 u us vs c b p t rest borrowed hrest ih =>
    rw [hrest] at ih
    exact congrArg Nat.succ ih

/-- The words of a difference of windows are limbs. -/
theorem bounded_subScaled (q : UInt64) (us vs : Limbs) (c b : UInt64) :
    Bounded (subScaled q us vs c b).1 := by
  fun_induction subScaled q us vs c b with
  | case1 => exact bounded_nil
  | case2 u us vs c b p t rest borrowed hrest ih =>
    rw [hrest] at ih
    exact bounded_cons.mpr ⟨low_lt t, ih⟩

/-- Only a multiple that is not zero leaves a borrow. -/
theorem pos_of_borrowed {q : UInt64} (hus : Bounded us) (hvs : Bounded vs) (hq : q.toNat < base)
    (hfits : q.toNat * toNat vs < base ^ us.length) (h : (subScaled q us vs 0 0).2 = true) :
    0 < q.toNat := by
  have hdifference := toNat_subScaled (c := 0) (b := 0) hus hvs hq (by decide) (Nat.zero_le 1) hfits
  have hlt := (bounded_subScaled q us vs 0 0).toNat_lt
  rw [length_subScaled] at hlt
  simp only [h, if_true, UInt64.toNat_zero, Nat.add_zero] at hdifference
  apply Nat.pos_of_ne_zero
  intro hzero
  rw [hzero, Nat.zero_mul, Nat.add_zero] at hdifference
  omega

/-- Adding into a window is adding modulo the window's size. -/
theorem toNat_addInto {c : UInt32} (hus : Bounded us) (hvs : Bounded vs) (hc : c.toNat ≤ 1) :
    toNat (addInto us vs c) = (toNat us + toNat vs + c.toNat) % base ^ us.length := by
  fun_induction addInto us vs c with
  | case1 vs c => exact (Nat.mod_one _).symm
  | case2 u us vs c s ih =>
    obtain ⟨hu, hus⟩ := bounded_cons.mp hus
    have hs : s.toNat = u.toNat + (vs.headD 0).toNat + c.toNat :=
      toNat_sumLimb hu hvs.headD_lt hc
    have hcarry : (s >>> 26).toNat ≤ 1 := sumCarry_le hu hvs.headD_lt hc
    rw [toNat_cons, ih hus hvs.tail hcarry, toNat_and_mask, toNat_shiftRight,
      mod_add_base_mul_mod, hs, toNat_cons, toNat_headD_tail vs, List.length_cons]
    congr 1
    ring

/-- The words of a sum of windows are limbs. -/
theorem bounded_addInto (us vs : Limbs) (c : UInt32) : Bounded (addInto us vs c) := by
  fun_induction addInto us vs c with
  | case1 => exact bounded_nil
  | case2 u us vs c s ih => exact bounded_cons.mpr ⟨and_mask_lt s, ih⟩

/-- A sum of windows has as many limbs as the window. -/
theorem length_addInto (us vs : Limbs) (c : UInt32) : (addInto us vs c).length = us.length := by
  fun_induction addInto us vs c with
  | case1 => rfl
  | case2 u us vs c s ih => exact congrArg Nat.succ ih

/-- A remainder by a divisor, in as many limbs as the divisor. -/
structure IsRemainder (v r : Limbs) : Prop where
  bounded : Bounded r
  length_eq : r.length = v.length
  toNat_lt : toNat r < toNat v

/-- A window that holds a number below the divisor is a remainder without its top limb. -/
theorem isRemainder_take {rest : Limbs} (hv : Bounded v) (hrest : Bounded rest)
    (hlength : rest.length = v.length + 1) (hlt : toNat rest < toNat v) :
    IsRemainder v (rest.take v.length) ∧ toNat (rest.take v.length) = toNat rest := by
  have hvalue : toNat (rest.take v.length) = toNat rest := by
    rw [toNat_take hrest, Nat.mod_eq_of_lt (hlt.trans hv.toNat_lt)]
  refine ⟨⟨hrest.take _, ?_, by rwa [hvalue]⟩, hvalue⟩
  rw [List.length_take]
  omega

/-- Without a borrow a step keeps the estimate and the difference. -/
theorem divStep_of_kept (h : (subScaled (estimate v u) u v 0 0).2 = false) :
    divStep v u =
      ((estimate v u).toUInt32, (subScaled (estimate v u) u v 0 0).1.take v.length) := by
  rcases hdifference : subScaled (estimate v u) u v 0 0 with ⟨rest, borrowed⟩
  rw [hdifference] at h
  simp only [divStep, hdifference]
  exact if_neg (ne_true_of_eq_false h)

/-- With a borrow a step takes one off the estimate and adds the divisor back. -/
theorem divStep_of_borrowed (h : (subScaled (estimate v u) u v 0 0).2 = true) :
    divStep v u = ((estimate v u - 1).toUInt32,
      (addInto (subScaled (estimate v u) u v 0 0).1 v 0).take v.length) := by
  rcases hdifference : subScaled (estimate v u) u v 0 0 with ⟨rest, borrowed⟩
  rw [hdifference] at h
  simp only [divStep, hdifference]
  exact if_pos h

/-- One step of long division gives the quotient limb and the remainder of the window. -/
theorem divStep_spec (hv : Normalized v) (hu : Bounded u) (hlength : u.length = v.length + 1)
    (hlt : toNat u < base * toNat v) :
    (divStep v u).1.toNat * toNat v + toNat (divStep v u).2 = toNat u ∧
      (divStep v u).1.toNat < base ∧ IsRemainder v (divStep v u).2 := by
  obtain ⟨hlimb, hge, hle⟩ := estimate_bounds hv hu hlength hlt
  have hfits : (estimate v u).toNat * toNat v + (0 : UInt64).toNat < base ^ u.length := by
    rw [hlength, Nat.pow_succ']
    exact Nat.mul_lt_mul'' hlimb hv.bounded.toNat_lt
  have hpos : 0 < toNat v := Nat.pos_of_ne_zero fun hzero ↦ by
    rw [hzero] at hlt
    exact absurd hlt (Nat.not_lt_zero _)
  have hupper : toNat u < ((estimate v u).toNat + 1) * toNat v :=
    (Nat.div_lt_iff_lt_mul hpos).mp (Nat.lt_succ_of_le hge)
  have hlower : (estimate v u).toNat * toNat v ≤ toNat u + toNat v := by
    have hmul := Nat.mul_le_mul_right (toNat v) hle
    rw [Nat.succ_mul] at hmul
    exact hmul.trans (Nat.add_le_add_right (Nat.div_mul_le_self _ _) _)
  have hdifference := toNat_subScaled (c := 0) (b := 0) hu hv.bounded hlimb (by decide)
    (Nat.zero_le 1) hfits
  have hlengthRest := length_subScaled (estimate v u) u v 0 0
  have hbounded := bounded_subScaled (estimate v u) u v 0 0
  rw [Nat.succ_mul] at hupper
  have hsize := hbounded.toNat_lt
  rw [hlengthRest] at hsize
  have hword : (estimate v u).toNat < 2 ^ 32 := hlimb.trans (by decide)
  cases hborrowed : (subScaled (estimate v u) u v 0 0).2 with
  | false =>
    -- the estimate is the quotient limb
    rw [divStep_of_kept hborrowed]
    rw [hborrowed] at hdifference
    generalize (subScaled (estimate v u) u v 0 0).1 = rest at *
    generalize estimate v u = q at *
    have hvalue : toNat rest + q.toNat * toNat v = toNat u := hdifference
    obtain ⟨hremainder, htake⟩ := isRemainder_take hv.bounded hbounded
      (hlengthRest.trans hlength) (by omega)
    have hdigit : q.toUInt32.toNat = q.toNat := toNat_toUInt32 hword
    refine ⟨?_, hdigit.trans_lt hlimb, hremainder⟩
    rw [hdigit, htake, Nat.add_comm]
    exact hvalue
  | true =>
    -- the estimate is one too large, and adding the divisor back passes the window's size
    have hqpos : 1 ≤ (estimate v u).toNat := pos_of_borrowed hu hv.bounded hlimb hfits hborrowed
    rw [divStep_of_borrowed hborrowed]
    rw [hborrowed] at hdifference
    generalize (subScaled (estimate v u) u v 0 0).1 = rest at *
    generalize estimate v u = q at *
    have hvalue : toNat rest + q.toNat * toNat v = toNat u + base ^ u.length := hdifference
    have hpred : (q - 1).toNat = q.toNat - 1 :=
      UInt64.toNat_sub_of_le _ _ (UInt64.le_iff_toNat_le.mpr hqpos)
    have hdigit : (q - 1).toUInt32.toNat = q.toNat - 1 := by
      rw [toNat_toUInt32 (by rw [hpred]; omega), hpred]
    have hvlt : toNat v < base ^ u.length := by
      rw [hlength, Nat.pow_succ']
      exact Nat.lt_of_lt_of_le hv.bounded.toNat_lt (Nat.le_mul_of_pos_left _ (by decide))
    have hpassed : toNat rest + toNat v =
        toNat u + toNat v - q.toNat * toNat v + base ^ u.length := by
      omega
    have hmended : toNat (addInto rest v 0) = toNat u + toNat v - q.toNat * toNat v := by
      rw [toNat_addInto (c := 0) hbounded hv.bounded (Nat.zero_le 1), hlengthRest,
        UInt32.toNat_zero, Nat.add_zero, hpassed, Nat.add_mod_right, Nat.mod_eq_of_lt (by omega)]
    obtain ⟨hremainder, htake⟩ := isRemainder_take hv.bounded (bounded_addInto rest v 0)
      ((length_addInto rest v 0).trans (hlengthRest.trans hlength)) (by omega)
    refine ⟨?_, hdigit.trans_lt (Nat.lt_of_le_of_lt (Nat.sub_le _ _) hlimb), hremainder⟩
    have hmul := Nat.mul_le_mul_right (toNat v) hqpos
    rw [hdigit, htake, hmended, Nat.sub_mul, Nat.one_mul]
    omega

end Secp.Limbs
