import Mathlib.Data.List.Basic
import Secp.Limbs.Quotient
import Secp.Proofs.Limbs.Value

/-!
# The estimate of a quotient limb

Where the top bit of the divisor's top limb is set, the estimate from the leading limbs is the
quotient of the window's three leading limbs by the divisor's two, or the largest limb if that is
less. It is the true quotient limb or one more.
-/

namespace Secp.Limbs

variable {u v : Limbs}

/-- A limb behind a shifted word. -/
theorem toNat_shiftLimb {x y : UInt64} (hx : x.toNat < 2 ^ 32) (hy : y.toNat < base) :
    ((x <<< 26) ||| y).toNat = x.toNat * base + y.toNat := by
  have hle : x.toNat * 2 ^ 26 ≤ 2 ^ 32 * 2 ^ 26 := Nat.mul_le_mul_right _ hx.le
  exact toNat_shiftLeft_or (by decide) hy (Nat.lt_of_le_of_lt hle (by decide))

/-- The test that an estimate is too large, in numbers: it is no limb, or exceeds the quotient of
the leading limbs. -/
theorem tooLarge_iff (v₁ : UInt64) {v₂ u₂ q r : UInt64} (hv₂ : v₂.toNat < base)
    (hu₂ : u₂.toNat < base) (hr : r.toNat < base) (hq : q.toNat ≤ base + 1) :
    (mask.toUInt64 < q ∨ (r <<< 26 ||| u₂) < q * v₂) ↔
      base ≤ q.toNat ∨ (q.toNat * v₁.toNat + r.toNat) * base + u₂.toNat <
        q.toNat * (v₁.toNat * base + v₂.toNat) := by
  have hle : q.toNat * v₂.toNat ≤ (base + 1) * base := Nat.mul_le_mul hq hv₂.le
  have hmul : (q * v₂).toNat = q.toNat * v₂.toNat :=
    toNat_mul64 (Nat.lt_of_le_of_lt hle (by decide))
  have hmask : mask.toUInt64 < q ↔ base ≤ q.toNat := Iff.rfl
  rw [hmask, UInt64.lt_iff_toNat_lt, hmul, toNat_shiftLimb (hr.trans (by decide)) hu₂]
  have hleft : (q.toNat * v₁.toNat + r.toNat) * base + u₂.toNat =
      q.toNat * v₁.toNat * base + (r.toNat * base + u₂.toNat) := by ring
  have hright : q.toNat * (v₁.toNat * base + v₂.toNat) =
      q.toNat * v₁.toNat * base + q.toNat * v₂.toNat := by ring
  rw [hleft, hright, Nat.add_lt_add_iff_left]

/-- A limb that is not too large and not too small is the quotient, or the largest limb. -/
theorem eq_min_of_le {q D N : Nat} (hD : 0 < D) (hq : q < base) (hle : q * D ≤ N)
    (hge : min (base - 1) (N / D) ≤ q) : q = min (base - 1) (N / D) :=
  Nat.le_antisymm
    (Nat.le_min.mpr ⟨Nat.le_pred_of_lt hq, (Nat.le_div_iff_mul_le hD).mpr hle⟩) hge

/-- What is less than an estimate that is too large is at least the quotient. -/
theorem min_lt_of_tooLarge {q D N : Nat} (hD : 0 < D) (h : base ≤ q ∨ N < q * D) :
    min (base - 1) (N / D) < q := by
  rcases h with hbase | hlt
  · exact Nat.lt_of_le_of_lt (Nat.min_le_left _ _) (Nat.lt_of_lt_of_le (by decide) hbase)
  · exact Nat.lt_of_le_of_lt (Nat.min_le_right _ _) ((Nat.div_lt_iff_lt_mul hD).mpr hlt)

/-- Correction ends with the quotient `t * base + u₂` by `v₁ * base + v₂`, or with the largest limb
if that is less, when the estimate is at least that and the count allows for the corrections. -/
theorem toNat_correct {v₁ v₂ u₂ q r : UInt64} {t count : Nat} (hv₁ : v₁.toNat < base)
    (htop : base ≤ 2 * v₁.toNat) (hv₂ : v₂.toNat < base) (hu₂ : u₂.toNat < base)
    (ht : q.toNat * v₁.toNat + r.toNat = t) (htlt : t < (v₁.toNat + 1) * base)
    (hr : r.toNat < base) (hcount : base ≤ r.toNat + count * v₁.toNat)
    (hq : min (base - 1) ((t * base + u₂.toNat) / (v₁.toNat * base + v₂.toNat)) ≤ q.toNat) :
    (correct v₁ v₂ u₂ count q r).toNat =
      min (base - 1) ((t * base + u₂.toNat) / (v₁.toNat * base + v₂.toNat)) := by
  have hpos : 0 < v₁.toNat * base + v₂.toNat := by
    rw [base_eq] at *
    omega
  induction count generalizing q r with
  | zero => omega
  | succ count ih =>
    have hqle : q.toNat ≤ base + 1 := by
      by_contra hgt
      have hmul := Nat.mul_le_mul_right v₁.toNat (Nat.succ_le_of_lt (Nat.lt_of_not_le hgt))
      rw [base_eq] at *
      omega
    have htest := tooLarge_iff v₁ hv₂ hu₂ hr hqle
    rw [ht] at htest
    unfold correct
    split
    · next htoo =>
      have hlt := min_lt_of_tooLarge hpos (htest.mp htoo)
      have hpred : (q - 1).toNat = q.toNat - 1 :=
        UInt64.toNat_sub_of_le _ _ (UInt64.le_iff_toNat_le.mpr (Nat.succ_le_of_lt
          (Nat.lt_of_le_of_lt (Nat.zero_le _) hlt)))
      have hnext : (r + v₁).toNat = r.toNat + v₁.toNat := by
        rw [base_eq] at *
        exact toNat_add64 (by omega)
      have hsum : (q.toNat - 1) * v₁.toNat + (r.toNat + v₁.toNat) = t := by
        rw [Nat.sub_mul, Nat.one_mul]
        have hmul := Nat.mul_le_mul_right v₁.toNat (Nat.succ_le_of_lt
          (Nat.lt_of_le_of_lt (Nat.zero_le _) hlt))
        omega
      split
      · next hstop =>
        -- the remainder is no limb any more, so the quotient of the leading limbs is not exceeded
        have hlarge : base ≤ r.toNat + v₁.toNat := by
          rw [← hnext]
          exact hstop
        have hlimb : q.toNat - 1 < base := by
          by_contra hge
          have hmul := Nat.mul_le_mul_right v₁.toNat (Nat.le_of_not_lt hge)
          rw [Nat.add_mul, Nat.one_mul, Nat.mul_comm] at htlt
          omega
        rw [hpred]
        refine eq_min_of_le hpos hlimb ?_ (Nat.le_pred_of_lt hlt)
        calc (q.toNat - 1) * (v₁.toNat * base + v₂.toNat)
            = (q.toNat - 1) * v₁.toNat * base + (q.toNat - 1) * v₂.toNat := by ring
          _ ≤ (q.toNat - 1) * v₁.toNat * base + base * base :=
              Nat.add_le_add_left (Nat.mul_le_mul hlimb.le hv₂.le) _
          _ ≤ (q.toNat - 1) * v₁.toNat * base + (r.toNat + v₁.toNat) * base :=
              Nat.add_le_add_left (Nat.mul_le_mul_right _ hlarge) _
          _ = t * base := by rw [← hsum]; ring
          _ ≤ t * base + u₂.toNat := Nat.le_add_right _ _
      · next hgo =>
        have hsmall : (r + v₁).toNat < base := Nat.lt_of_not_le hgo
        refine ih ?_ hsmall ?_ ?_
        · rw [hpred, hnext, hsum]
        · rw [hnext, Nat.add_assoc, Nat.add_comm v₁.toNat, ← Nat.succ_mul]
          exact hcount
        · rw [hpred]
          exact Nat.le_pred_of_lt hlt
    · next hnot =>
      obtain ⟨hlimb, hle⟩ := not_or.mp (mt htest.mpr hnot)
      exact eq_min_of_le hpos (Nat.lt_of_not_le hlimb) (Nat.le_of_not_lt hle) hq

/-- Leaving the second limb of the divisor out of account only makes the quotient larger. -/
theorem leading_div_le {t v₁ v₂ u₂ : Nat} (hv₁ : 0 < v₁) (hu₂ : u₂ < base) :
    (t * base + u₂) / (v₁ * base + v₂) ≤ t / v₁ := by
  rw [Nat.le_div_iff_mul_le hv₁]
  apply Nat.le_of_lt_succ
  apply Nat.lt_of_mul_lt_mul_right (a := base)
  calc (t * base + u₂) / (v₁ * base + v₂) * v₁ * base
      ≤ (t * base + u₂) / (v₁ * base + v₂) * (v₁ * base + v₂) := by
        rw [Nat.mul_assoc]
        exact Nat.mul_le_mul_left _ (Nat.le_add_right _ _)
    _ ≤ t * base + u₂ := Nat.div_mul_le_self _ _
    _ < (t + 1) * base := by
        rw [Nat.succ_mul]
        exact Nat.add_lt_add_left hu₂ _

/-- The estimate from the leading limbs of the divisor and of the window. -/
theorem toNat_estimate {vs us : Limbs} {v₁ v₂ u₀ u₁ u₂ : UInt32} (hv₁ : v₁.toNat < base)
    (htop : base ≤ 2 * v₁.toNat) (hv₂ : v₂.toNat < base) (hu₀ : u₀.toNat ≤ v₁.toNat)
    (hu₁ : u₁.toNat < base) (hu₂ : u₂.toNat < base) :
    (estimate (vs ++ [v₂, v₁]) (us ++ [u₂, u₁, u₀])).toNat =
      min (base - 1) (((u₀.toNat * base + u₁.toNat) * base + u₂.toNat) /
        (v₁.toNat * base + v₂.toNat)) := by
  have hpos : 0 < v₁.toNat := by
    rw [base_eq] at htop
    omega
  have ht : ((u₀.toUInt64 <<< 26) ||| u₁.toUInt64).toNat = u₀.toNat * base + u₁.toNat :=
    toNat_shiftLimb u₀.toNat_lt hu₁
  have hquotient := UInt64.toNat_div ((u₀.toUInt64 <<< 26) ||| u₁.toUInt64) v₁.toUInt64
  have hremainder := UInt64.toNat_mod ((u₀.toUInt64 <<< 26) ||| u₁.toUInt64) v₁.toUInt64
  rw [ht, UInt32.toNat_toUInt64] at hquotient hremainder
  have hmod := Nat.mod_lt (u₀.toNat * base + u₁.toNat) hpos
  simp only [estimate, List.reverse_append, List.reverse_cons, List.reverse_nil, List.nil_append,
    List.cons_append]
  refine toNat_correct (t := u₀.toNat * base + u₁.toNat) hv₁ htop hv₂ hu₂ ?_ ?_ ?_ ?_ ?_
  · rw [hquotient, hremainder]
    exact Nat.div_add_mod' _ _
  · have hmul := Nat.mul_le_mul_right base hu₀
    rw [UInt32.toNat_toUInt64, Nat.add_mul, Nat.one_mul]
    omega
  · rw [hremainder]
    exact hmod.trans hv₁
  · rw [UInt32.toNat_toUInt64]
    omega
  · refine (Nat.min_le_right _ _).trans ?_
    rw [hquotient]
    exact leading_div_le hpos hu₂

/-- A divisor ready for long division: two limbs at least, the top one with its top bit set. -/
structure Normalized (v : Limbs) : Prop where
  bounded : Bounded v
  two_le : 2 ≤ v.length
  pow_le : base ^ v.length ≤ 2 * toNat v

/-- A magnitude of enough limbs is so many leading limbs above the others. -/
theorem exists_leading {ws : Limbs} {count : Nat} (h : count ≤ ws.length) :
    ∃ low lead, ws = low ++ lead ∧ low.length = ws.length - count ∧ lead.length = count := by
  refine ⟨ws.take (ws.length - count), ws.drop (ws.length - count),
    (List.take_append_drop _ _).symm, ?_, ?_⟩
  · rw [List.length_take]
    omega
  · rw [List.length_drop]
    omega

/-- The top bit of a normalized divisor's top limb is set. -/
theorem Normalized.base_le {vs : Limbs} {v₁ v₂ : UInt32} (h : Normalized (vs ++ [v₂, v₁])) :
    base ≤ 2 * v₁.toNat := by
  obtain ⟨hvs, hlead⟩ := bounded_append.mp h.bounded
  have hv₂ := hlead v₂ List.mem_cons_self
  have hlt : 2 * toNat (vs ++ [v₂, v₁]) < base ^ vs.length * (2 * (toNat [v₂, v₁] + 1)) := by
    rw [Nat.mul_left_comm]
    exact Nat.mul_lt_mul_of_pos_left (hvs.toNat_append_lt _) Nat.two_pos
  have hpow : base ^ vs.length * (base * base) < base ^ vs.length * (2 * (toNat [v₂, v₁] + 1)) := by
    refine Nat.lt_of_le_of_lt (Nat.le_of_eq ?_) (Nat.lt_of_le_of_lt h.pow_le hlt)
    rw [List.length_append, Nat.pow_add]
    rfl
  have hlead' := Nat.lt_of_mul_lt_mul_left hpow
  rw [toNat_cons, toNat_cons, toNat_nil] at hlead'
  rw [base_eq] at *
  omega

/-- The quotient limb, from the numbers that the leading limbs stand for: with `w` the weight of
the limbs below the leading ones, the quotient of the leading limbs is the true quotient limb or
one more. -/
theorem div_le_leading {w D N L M : Nat} (hL : L < w) (hM : M < w) (hD : base ≤ D)
    (hlt : M + w * N < base * (L + w * D)) :
    (M + w * N) / (L + w * D) ≤ min (base - 1) (N / D) ∧
      min (base - 1) (N / D) ≤ (M + w * N) / (L + w * D) + 1 := by
  have hpos : 0 < L + w * D := by
    have hw : 0 < w := Nat.lt_of_le_of_lt (Nat.zero_le _) hL
    have hwD := Nat.mul_pos hw (Nat.lt_of_lt_of_le (show 0 < base by decide) hD)
    omega
  have hDpos : 0 < D := Nat.lt_of_lt_of_le (by decide) hD
  constructor
  · refine Nat.le_min.mpr ⟨Nat.le_pred_of_lt ((Nat.div_lt_iff_lt_mul hpos).mpr hlt), ?_⟩
    rw [Nat.le_div_iff_mul_le hDpos]
    apply Nat.le_of_lt_succ
    apply Nat.lt_of_mul_lt_mul_left (a := w)
    calc w * ((M + w * N) / (L + w * D) * D)
        ≤ (M + w * N) / (L + w * D) * (L + w * D) := by
          rw [Nat.mul_left_comm]
          exact Nat.mul_le_mul_left _ (Nat.le_add_left _ _)
      _ ≤ M + w * N := Nat.div_mul_le_self _ _
      _ < w * (N + 1) := by
          rw [Nat.mul_succ, Nat.add_comm]
          exact Nat.add_lt_add_left hM _
  · have hq : min (base - 1) (N / D) ≤ base := (Nat.min_le_left _ _).trans (Nat.sub_le _ _)
    have hqD : min (base - 1) (N / D) * D ≤ N :=
      (Nat.mul_le_mul_right _ (Nat.min_le_right _ _)).trans (Nat.div_mul_le_self _ _)
    generalize min (base - 1) (N / D) = q at hq hqD
    rw [← Nat.sub_le_iff_le_add, Nat.le_div_iff_mul_le hpos, Nat.sub_mul, Nat.one_mul,
      Nat.sub_le_iff_le_add]
    calc q * (L + w * D) = q * L + w * (q * D) := by ring
      _ ≤ base * w + w * N := Nat.add_le_add (Nat.mul_le_mul hq hL.le) (Nat.mul_le_mul_left _ hqD)
      _ ≤ M + w * N + (L + w * D) := by
          have hw := Nat.mul_le_mul_left w hD
          rw [Nat.mul_comm base w]
          omega

/-- The estimate is a limb: the true quotient limb or one more. -/
theorem estimate_bounds (hv : Normalized v) (hu : Bounded u) (hlength : u.length = v.length + 1)
    (hlt : toNat u < base * toNat v) :
    (estimate v u).toNat < base ∧ toNat u / toNat v ≤ (estimate v u).toNat ∧
      (estimate v u).toNat ≤ toNat u / toNat v + 1 := by
  have htwo := hv.two_le
  obtain ⟨vs, lead, rfl, hvs, hlead⟩ := exists_leading htwo
  obtain ⟨v₂, v₁, rfl⟩ := List.length_eq_two.mp hlead
  obtain ⟨us, window, rfl, hus, hwindow⟩ := exists_leading (show 3 ≤ u.length by omega)
  obtain ⟨u₂, u₁, u₀, rfl⟩ := List.length_eq_three.mp hwindow
  obtain ⟨hbvs, hbv⟩ := bounded_append.mp hv.bounded
  obtain ⟨hbus, hbu⟩ := bounded_append.mp hu
  simp only [bounded_cons] at hbv hbu
  obtain ⟨hv₂, hv₁, -⟩ := hbv
  obtain ⟨hu₂, hu₁, hu₀, -⟩ := hbu
  have htop := hv.base_le
  have hbelow : us.length = vs.length := by omega
  -- the leading limbs of both, as numbers
  have hD : toNat [v₂, v₁] = v₁.toNat * base + v₂.toNat := by
    rw [toNat_cons, toNat_cons, toNat_nil]
    ring
  have hN : toNat [u₂, u₁, u₀] = (u₀.toNat * base + u₁.toNat) * base + u₂.toNat := by
    rw [toNat_cons, toNat_cons, toNat_cons, toNat_nil]
    ring
  have hU := hbus.toNat_lt
  have hV := hbvs.toNat_lt
  rw [toNat_append, toNat_append, hbelow, hD, hN] at hlt ⊢
  rw [hbelow] at hU
  have hu₀v₁ : u₀.toNat ≤ v₁.toNat := by
    have hscaled : base ^ vs.length * ((u₀.toNat * base + u₁.toNat) * base + u₂.toNat) <
        base ^ vs.length * (base * (v₁.toNat * base + v₂.toNat + 1)) := by
      refine Nat.lt_of_le_of_lt (Nat.le_add_left _ _) (hlt.trans ?_)
      rw [Nat.mul_left_comm, Nat.mul_succ, Nat.add_comm (base ^ _ * _)]
      exact Nat.mul_lt_mul_of_pos_left (Nat.add_lt_add_right hV _) (by decide)
    have hlead := Nat.lt_of_mul_lt_mul_left hscaled
    rw [base_eq] at *
    omega
  have hbounds := div_le_leading hV hU (by rw [base_eq] at *; omega) hlt
  rw [toNat_estimate hv₁ htop hv₂ hu₀v₁ hu₁ hu₂]
  refine ⟨?_, hbounds⟩
  exact Nat.lt_of_le_of_lt (Nat.min_le_left _ _) (by decide)

end Secp.Limbs
