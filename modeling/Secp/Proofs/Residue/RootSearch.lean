import Mathlib.NumberTheory.LegendreSymbol.Basic
import Mathlib.Tactic.NormNum.Prime
import Secp.Proofs.Loops
import Secp.Proofs.Residue.SquareRoot

/-!
# Square roots modulo a prime are found

Modulo a prime, a root of every square is found, and nothing is found for other residues. Where the
prime leaves one when divided by four, a guess `r` of a root of `a` has an error `t` with
`r ^ 2 = a * t`, whose order is a power of two below that of the corrector `c`. Each correction
halves the order of the error at least, and takes the power of the corrector that has the same order
along as the next one, so that the error is one in the end.

The searches are given bounds where they are defined. Here they are run without: a run that never
ends gives nothing, and neither does one that takes more from a count than it holds. For a prime
modulus the runs end, and with what the bounded searches give.
-/

namespace Secp.Residue

variable {m : Modulus}

namespace Unbounded

/-- Count up from a number to one whose power `half` is minus one. -/
noncomputable def findNonResidue (half : Nat) : Nat → Part (Residue m) :=
  PFun.fix fun z ↦
    let r : Residue m := ofNat z
    Part.some (if r.pow half = -one then .inl r else .inr (z + 1))

/-- Square a residue until it is one, counting; there is no count when the limit is reached. -/
noncomputable def orderExponent (limit : Nat) : Nat × Residue m → Part (Option Nat) :=
  PFun.fix fun (i, t) ↦
    Part.some (if t = one then .inl (some i)
      else if i + 1 = limit then .inl none
      else .inr (i + 1, t.sqr))

/-- The exponent of the corrector's order, the corrector, the guess and its error. -/
abbrev Correction (m : Modulus) : Type := Nat × Residue m × Residue m × Residue m

/-- Give the guess when its error is one, or correct it; without a count there is no root. -/
noncomputable def correctStep : Correction m → Part (Option (Residue m) ⊕ Correction m)
  | (s, c, r, t) =>
    if t = one then Part.some (.inl (some r))
    else do
      match ← orderExponent s (0, t) with
      | none => return .inl none
      | some i =>
        if i < s then
          let b := sqrTimes (s - i - 1) c
          return .inr (i, b.sqr, r * b, t * b.sqr)
        else Part.none

/-- Correct a guess until its error is one. -/
noncomputable def correctRoot : Correction m → Part (Option (Residue m)) := PFun.fix correctStep

/-- Tonelli's and Shanks's way. -/
noncomputable def tonelliShanks (a : Residue m) : Part (Option (Residue m)) :=
  let half := (m.value - 1) / 2
  if a.pow half = one then do
    let s := Number.trailingZeros (m.value - 1)
    let q := (m.value - 1) / 2 ^ s
    let z ← findNonResidue half 2
    correctRoot (s, z.pow q, a.pow ((q + 1) / 2), a.pow q)
  else Part.some none

/-- The search for a square root. -/
noncomputable def sqrt (a : Residue m) : Part (Option (Residue m)) :=
  if a.isZero then Part.some (some a)
  else do
    let guess ←
      if m.value % 4 = 3 then Part.some (some (a.pow ((m.value + 1) / 4))) else tonelliShanks a
    return guess.filter (·.sqr = a)

/-- What a bounded search finds, the search without a bound finds. -/
theorem findNonResidue_eq {half count z : Nat} {r : Residue m}
    (h : Residue.findNonResidue half count z = some r) : findNonResidue half z = Part.some r := by
  induction count generalizing z with
  | zero => cases h
  | succ count ih =>
    rw [Residue.findNonResidue] at h
    split at h
    · next hminus =>
      obtain rfl := Option.some.inj h
      exact fix_stop (congrArg Part.some (if_pos hminus))
    · next hminus => exact (fix_next (congrArg Part.some (if_neg hminus))).trans (ih h)

/-- A bounded count is the count without a bound. -/
theorem orderExponent_eq {limit count i k : Nat} {t : Residue m}
    (h : Residue.orderExponent limit count i t = some k) :
    orderExponent limit (i, t) = Part.some (some k) := by
  induction count generalizing i t with
  | zero => cases h
  | succ count ih =>
    rw [Residue.orderExponent] at h
    split at h
    · next hone =>
      obtain rfl := Option.some.inj h
      exact fix_stop (congrArg Part.some (if_pos hone))
    · next hone =>
      split at h
      · cases h
      · next hlimit =>
        refine (fix_next (congrArg Part.some ?_)).trans (ih h)
        exact (if_neg hone).trans (if_neg hlimit)

/-- A guess that is corrected to a root is so in a run without bounds. -/
theorem correctRoot_eq {s : Nat} {c r t root : Residue m}
    (h : Residue.correctRoot s c r t = some root) :
    correctRoot (s, c, r, t) = Part.some (some root) := by
  fun_induction Residue.correctRoot s c r t with
  | case1 s c r =>
    obtain rfl := Option.some.inj h
    exact fix_stop (if_pos rfl)
  | case2 | case4 => cases h
  | case3 s c r t hone i hi hlt b ih =>
    have hstep : correctStep (s, c, r, t) = Part.some (.inr (i, b.sqr, r * b, t * b.sqr)) := by
      rw [correctStep, if_neg hone, orderExponent_eq hi, Part.bind_eq_bind, Part.bind_some]
      exact if_pos hlt
    exact (fix_next hstep).trans (ih h)

end Unbounded

/-- The power of a unit by half of their number is one for the squares. -/
theorem pow_half_eq_one_iff (hprime : m.value.Prime) {a : ZMod m.value} (ha : a ≠ 0) :
    a ^ ((m.value - 1) / 2) = 1 ↔ IsSquare a := by
  have : Fact m.value.Prime := ⟨hprime⟩
  rcases hprime.eq_two_or_odd with htwo | hodd
  · have hself : a ^ 2 = a := (congrArg (a ^ ·) htwo.symm).trans (ZMod.pow_card a)
    rw [show (m.value - 1) / 2 = 0 by omega, pow_zero]
    exact ⟨fun _ ↦ ⟨a, by rw [← pow_two, hself]⟩, fun _ ↦ rfl⟩
  · rw [show (m.value - 1) / 2 = m.value / 2 by omega]
    exact (ZMod.euler_criterion m.value ha).symm

/-- Modulo an odd prime, that power is minus one for all others. -/
theorem pow_half_of_not_isSquare (hprime : m.value.Prime) (hodd : m.value % 2 = 1)
    {a : ZMod m.value} (ha : ¬ IsSquare a) : a ^ ((m.value - 1) / 2) = -1 := by
  have : Fact m.value.Prime := ⟨hprime⟩
  have hne : a ≠ 0 := by
    rintro rfl
    exact ha IsSquare.zero
  have hhalf : (m.value - 1) / 2 = m.value / 2 := by omega
  have hone := mt (pow_half_eq_one_iff hprime hne).mp ha
  rw [hhalf] at hone ⊢
  exact (ZMod.pow_div_two_eq_neg_one_or_one m.value hne).resolve_left hone

/-- The search finds a number, when there is one among those that it goes through. -/
theorem exists_findNonResidue {half count z z' : Nat} (hz : z ≤ z') (hz' : z' < z + count)
    (h : (z' : ZMod m.value) ^ half = -1) :
    ∃ r : Residue m, findNonResidue half count z = some r ∧ r.toZMod ^ half = -1 := by
  induction count generalizing z with
  | zero => omega
  | succ count ih =>
    have htest : (ofNat z : Residue m).pow half = -one ↔ (z : ZMod m.value) ^ half = -1 := by
      rw [← toZMod_inj, toZMod_pow, toZMod_ofNat, toZMod_neg, toZMod_one]
    rw [findNonResidue]
    by_cases hminus : (z : ZMod m.value) ^ half = -1
    · exact ⟨ofNat z, if_pos (htest.mpr hminus), by rwa [toZMod_ofNat]⟩
    · have hne : z ≠ z' := by
        rintro rfl
        exact hminus h
      rw [if_neg (mt htest.mp hminus)]
      exact ih (by omega) (by omega)

/-- Modulo a prime the search ends with a number whose power by half of the units is minus one. For
the prime two this is its first number, as minus one is one; an odd prime has a non-residue. -/
theorem exists_nonResidue (hprime : m.value.Prime) :
    ∃ z : Residue m, findNonResidue ((m.value - 1) / 2) m.value 2 = some z ∧
      z.toZMod ^ ((m.value - 1) / 2) = -1 := by
  have : Fact m.value.Prime := ⟨hprime⟩
  rcases hprime.eq_two_or_odd with htwo | hodd
  · have hzero : ((2 : Nat) : ZMod m.value) = 0 := by
      rw [← htwo]
      exact ZMod.natCast_self m.value
    have hminus : ((2 : Nat) : ZMod m.value) ^ ((m.value - 1) / 2) = -1 := by
      rw [show (m.value - 1) / 2 = 0 by omega, pow_zero, eq_neg_iff_add_eq_zero,
        one_add_one_eq_two]
      exact hzero
    exact exists_findNonResidue le_rfl (by omega) hminus
  · obtain ⟨w, hw⟩ := FiniteField.exists_nonsquare (F := ZMod m.value) (by
      rw [ZMod.ringChar_zmod_n]
      omega)
    have hcast : ((w.val : Nat) : ZMod m.value) = w := ZMod.natCast_zmod_val w
    have hlt : w.val < m.value := ZMod.val_lt w
    have htwo : 2 ≤ w.val := by
      by_contra hsmall
      apply hw
      rw [← hcast]
      obtain h | h : w.val = 0 ∨ w.val = 1 := by omega
      · rw [h, Nat.cast_zero]
        exact IsSquare.zero
      · rw [h, Nat.cast_one]
        exact IsSquare.one
    refine exists_findNonResidue htwo (by omega) ?_
    rw [hcast]
    exact pow_half_of_not_isSquare hprime hodd hw

/-- A guess `r` of a root of `a` with its error `t`, whose order divides `2 ^ (s - 1)`, and with a
corrector `c` of order `2 ^ s`, which there need not be where the error has to be one. -/
structure Approaches (a : ZMod m.value) (s : Nat) (c r t : Residue m) : Prop where
  sq_eq : r.toZMod ^ 2 = a * t.toZMod
  error : t.toZMod ^ 2 ^ (s - 1) = 1
  corrector : s ≠ 0 → c.toZMod ^ 2 ^ (s - 1) = -1

/-- The exponent of an order is counted, when it is below the limit. -/
theorem orderExponent_eq {limit count i k : Nat} {t : Residue m} (hone : t.toZMod ^ 2 ^ k = 1)
    (hleast : ∀ j < k, t.toZMod ^ 2 ^ j ≠ 1) (hlimit : i + k < limit) (hcount : k < count) :
    orderExponent limit count i t = some (i + k) := by
  induction k generalizing i t count with
  | zero =>
    obtain ⟨count, rfl⟩ := Nat.exists_eq_succ_of_ne_zero (Nat.ne_of_gt hcount)
    rw [Nat.pow_zero, pow_one, ← toZMod_one, toZMod_inj] at hone
    exact if_pos hone
  | succ k ih =>
    obtain ⟨count, rfl⟩ := Nat.exists_eq_succ_of_ne_zero (Nat.ne_zero_of_lt hcount)
    have hne : t ≠ one := by
      have h := hleast 0 (Nat.zero_lt_succ k)
      rwa [Nat.pow_zero, pow_one, ← toZMod_one, ne_eq, toZMod_inj] at h
    have hsqr (j : Nat) : t.sqr.toZMod ^ 2 ^ j = t.toZMod ^ 2 ^ (j + 1) := by
      rw [toZMod_sqr, ← pow_mul, Nat.pow_succ']
    have hrest : ∀ j < k, t.sqr.toZMod ^ 2 ^ j ≠ 1 := by
      intro j hj
      rw [hsqr]
      exact hleast (j + 1) (Nat.succ_lt_succ hj)
    rw [orderExponent, if_neg hne, if_neg (by omega),
      ih ((hsqr k).trans hone) hrest (by omega) (Nat.lt_of_succ_lt_succ hcount)]
    rw [Nat.add_assoc, Nat.add_comm 1]

namespace Approaches

variable {a : ZMod m.value} {s i : Nat} {c r t : Residue m}

/-- The exponent of the order of an error that is not one is found below the limit. -/
theorem exists_order (h : Approaches a s c r t) (ht : t ≠ one) :
    ∃ i, 0 < i ∧ i < s ∧ orderExponent s s 0 t = some i ∧ t.toZMod ^ 2 ^ i = 1 ∧
      t.toZMod ^ 2 ^ (i - 1) ≠ 1 := by
  classical
  have hex : ∃ i, t.toZMod ^ 2 ^ i = 1 := ⟨_, h.error⟩
  have hle : Nat.find hex ≤ s - 1 := Nat.find_min' hex h.error
  have hone := Nat.find_spec hex
  have hleast (j : Nat) (hj : j < Nat.find hex) : t.toZMod ^ 2 ^ j ≠ 1 := Nat.find_min hex hj
  generalize Nat.find hex = i at *
  have hpos : 0 < i := by
    rw [Nat.pos_iff_ne_zero]
    rintro rfl
    rw [Nat.pow_zero, pow_one, ← toZMod_one, toZMod_inj] at hone
    exact ht hone
  have hlt : i < s := by omega
  refine ⟨i, hpos, hlt, ?_, hone, hleast (i - 1) (Nat.sub_lt hpos Nat.one_pos)⟩
  rw [orderExponent_eq hone hleast (by rwa [Nat.zero_add]) hlt, Nat.zero_add]

/-- A correction leaves an error of smaller order: where the power of the error that has order two
is minus one, so is that of the corrector, and their product is one. -/
theorem step (h : Approaches a s c r t) (hprime : m.value.Prime) (hpos : 0 < i) (hlt : i < s)
    (hone : t.toZMod ^ 2 ^ i = 1) (hne : t.toZMod ^ 2 ^ (i - 1) ≠ 1) :
    Approaches a i (sqrTimes (s - i - 1) c).sqr (r * sqrTimes (s - i - 1) c)
      (t * (sqrTimes (s - i - 1) c).sqr) := by
  have : Fact m.value.Prime := ⟨hprime⟩
  have hc : (sqrTimes (s - i - 1) c).sqr.toZMod ^ 2 ^ (i - 1) = -1 := by
    have hexponent : 2 ^ (s - i - 1) * (2 * 2 ^ (i - 1)) = 2 ^ (s - 1) := by
      rw [← Nat.pow_succ', ← pow_add]
      congr 1
      omega
    rw [toZMod_sqr, toZMod_sqrTimes, ← pow_mul, ← pow_mul, hexponent]
    exact h.corrector (Nat.ne_zero_of_lt hlt)
  have ht : t.toZMod ^ 2 ^ (i - 1) = -1 := by
    have hsquare : (t.toZMod ^ 2 ^ (i - 1)) ^ 2 = 1 := by
      rw [← pow_mul, ← Nat.pow_succ, Nat.succ_eq_add_one, Nat.sub_add_cancel hpos, hone]
    exact (sq_eq_one_iff.mp hsquare).resolve_left hne
  refine ⟨?_, ?_, fun _ ↦ hc⟩
  · rw [toZMod_mul, toZMod_mul, toZMod_sqr, mul_pow, h.sq_eq]
    ring
  · rw [toZMod_mul, mul_pow, ht, hc, neg_one_mul, neg_neg]

/-- The corrections end with a root. -/
theorem exists_root (h : Approaches a s c r t) (hprime : m.value.Prime) :
    ∃ root, correctRoot s c r t = some root ∧ root.toZMod ^ 2 = a := by
  induction s using Nat.strong_induction_on generalizing c r t with
  | h s ih =>
    rw [correctRoot]
    by_cases ht : t = one
    · refine ⟨r, if_pos ht, ?_⟩
      rw [h.sq_eq, ht, toZMod_one, mul_one]
    · obtain ⟨i, hpos, hlt, horder, hone, hne⟩ := h.exists_order ht
      obtain ⟨root, hrun, hroot⟩ := ih i hlt (h.step hprime hpos hlt hone hne)
      rw [if_neg ht, horder]
      exact ⟨root, (dif_pos hlt).trans hrun, hroot⟩

end Approaches

/-- The first guess of a root of a square, with its error, and the power of a non-residue. -/
theorem approaches_first (hprime : m.value.Prime) {a z : Residue m} (hne : a.toZMod ≠ 0)
    (ha : a.toZMod ^ ((m.value - 1) / 2) = 1) (hz : z.toZMod ^ ((m.value - 1) / 2) = -1) {s q : Nat}
    (hs : s = Number.trailingZeros (m.value - 1)) (hq : q = (m.value - 1) / 2 ^ s) :
    Approaches a.toZMod s (z.pow q) (a.pow ((q + 1) / 2)) (a.pow q) := by
  have hpos := hprime.two_le
  have hproduct : 2 ^ s * q = m.value - 1 := by
    rw [hq, hs, Number.two_pow_trailingZeros_mul]
  have hodd : q % 2 = 1 := by
    rw [hq, hs]
    exact Number.div_two_pow_trailingZeros_odd (by omega)
  have hhalf (heven : s ≠ 0) : q * 2 ^ (s - 1) = (m.value - 1) / 2 := by
    obtain ⟨s, rfl⟩ := Nat.exists_eq_succ_of_ne_zero heven
    rw [← hproduct, Nat.pow_succ, Nat.mul_right_comm, Nat.mul_div_cancel _ (by decide),
      Nat.succ_sub_one, Nat.mul_comm]
  refine ⟨?_, ?_, fun heven ↦ ?_⟩
  · rw [toZMod_pow, toZMod_pow, ← pow_mul, ← pow_succ']
    congr 1
    omega
  · by_cases hzero : s = 0
    · -- where the number of units is odd, the error is Fermat's power
      have : Fact m.value.Prime := ⟨hprime⟩
      rw [hzero, Nat.pow_zero, Nat.one_mul] at hproduct
      rw [hzero, Nat.pow_zero, pow_one, toZMod_pow, hproduct]
      exact ZMod.pow_card_sub_one_eq_one hne
    · rw [toZMod_pow, ← pow_mul, hhalf hzero, ha]
  · rw [toZMod_pow, ← pow_mul, hhalf heven, hz]

/-- Tonelli's and Shanks's way ends for every unit, and with a root of every square. -/
theorem tonelliShanks_spec (hprime : m.value.Prime) {a : Residue m} (hne : a.toZMod ≠ 0) :
    Unbounded.tonelliShanks a = Part.some (tonelliShanks a) ∧
      (IsSquare a.toZMod → ∃ root, tonelliShanks a = some root ∧ root.toZMod ^ 2 = a.toZMod) := by
  have htest : a.pow ((m.value - 1) / 2) = one ↔ a.toZMod ^ ((m.value - 1) / 2) = 1 := by
    rw [← toZMod_inj, toZMod_pow, toZMod_one]
  have hsquare := pow_half_eq_one_iff hprime hne
  unfold Unbounded.tonelliShanks tonelliShanks
  by_cases hone : a.toZMod ^ ((m.value - 1) / 2) = 1
  · obtain ⟨z, hfind, hz⟩ := exists_nonResidue hprime
    obtain ⟨root, hrun, hroot⟩ := (approaches_first hprime hne hone hz rfl rfl).exists_root hprime
    dsimp only
    rw [if_pos (htest.mpr hone), if_pos (htest.mpr hone), hfind, Unbounded.findNonResidue_eq hfind,
      Option.bind_some, Part.bind_eq_bind, Part.bind_some, Unbounded.correctRoot_eq hrun, hrun]
    exact ⟨rfl, fun _ ↦ ⟨root, rfl, hroot⟩⟩
  · dsimp only
    rw [if_neg (mt htest.mp hone), if_neg (mt htest.mp hone)]
    exact ⟨rfl, fun h ↦ absurd (hsquare.mpr h) hone⟩

/-- The search for a root ends. -/
theorem Unbounded.sqrt_eq (hprime : m.value.Prime) (a : Residue m) :
    Unbounded.sqrt a = Part.some a.sqrt? := by
  unfold Unbounded.sqrt sqrt?
  by_cases hzero : a.isZero = true
  · rw [if_pos hzero, if_pos hzero]
  · have hne : a.toZMod ≠ 0 := mt (isZero_iff a).mpr hzero
    rw [if_neg hzero, if_neg hzero, (tonelliShanks_spec hprime hne).1]
    split <;> exact Part.bind_some _ _

/-- A root of every square is found. -/
theorem exists_sqrt?_of_isSquare (hprime : m.value.Prime) {a : Residue m}
    (h : IsSquare a.toZMod) : ∃ root, a.sqrt? = some root := by
  by_cases hmod : m.value % 4 = 3
  · obtain ⟨b, hb⟩ := h
    exact exists_sqrt?_eq_some hprime hmod (hb.trans (pow_two b).symm).symm
  · unfold sqrt?
    by_cases hzero : a.isZero = true
    · exact ⟨a, if_pos hzero⟩
    · have hne : a.toZMod ≠ 0 := mt (isZero_iff a).mpr hzero
      obtain ⟨root, hfound, hroot⟩ := (tonelliShanks_spec hprime hne).2 h
      have hsqr : root.sqr = a := by
        rw [← toZMod_inj, toZMod_sqr, hroot]
      rw [if_neg hzero, if_neg hmod, hfound]
      exact ⟨root, Option.filter_eq_some_iff.mpr ⟨rfl, decide_eq_true hsqr⟩⟩

/-- A residue is a square when it is the remainder of one. -/
theorem isSquare_iff_exists_mod {a : Residue m} :
    IsSquare a.toZMod ↔ ∃ b : Nat, b ^ 2 % m.value = a.val := by
  have hval (b : Nat) : ((b : ZMod m.value) * b).val = b ^ 2 % m.value := by
    rw [← Nat.cast_mul, ZMod.val_natCast, pow_two]
  constructor
  · rintro ⟨w, hw⟩
    refine ⟨w.val, ?_⟩
    rw [← hval, ZMod.natCast_zmod_val, ← hw, val_toZMod]
  · rintro ⟨b, hb⟩
    refine ⟨b, ZMod.val_injective m.value ?_⟩
    rw [val_toZMod, hval, hb]

/-- Modulo a prime, the search for a root ends without any bound on its loops. It finds a root, a
residue whose square leaves the residue, when there is a number whose square does, and otherwise
nothing. -/
theorem roots_found (hprime : m.value.Prime) (a : Residue m) :
    Unbounded.sqrt a = Part.some a.sqrt? ∧
      ((∃ b : Nat, b ^ 2 % m.value = a.val) →
        ∃ r, a.sqrt? = some r ∧ r.val ^ 2 % m.value = a.val) ∧
      ((¬ ∃ b : Nat, b ^ 2 % m.value = a.val) → a.sqrt? = none) := by
  have hroot {r : Residue m} (h : a.sqrt? = some r) : r.val ^ 2 % m.value = a.val := by
    rw [← val_toZMod a, ← sq_of_sqrt? h, toZMod, ← Nat.cast_pow, ZMod.val_natCast]
  refine ⟨Unbounded.sqrt_eq hprime a, ?_, ?_⟩
  · intro h
    obtain ⟨r, hr⟩ := exists_sqrt?_of_isSquare hprime (isSquare_iff_exists_mod.mpr h)
    exact ⟨r, hr, hroot hr⟩
  · intro h
    cases hsqrt : a.sqrt? with
    | none => rfl
    | some r => exact absurd ⟨r.val, hroot hsqrt⟩ h

/-- The error of the first guess of a root of two, modulo 257, has order 16, below the order 256 of
the corrector. -/
theorem roots_found_two :
    Nat.Prime 257 ∧
      Unbounded.sqrt (ofNat 2 : Residue (.barrett 257 (by decide))) =
        Part.some (some (ofNat 60)) := by
  have hprime : (Modulus.barrett 257 (by decide)).value.Prime := by
    change Nat.Prime 257
    norm_num
  have hroot : (ofNat 2 : Residue (.barrett 257 (by decide))).sqrt? = some (ofNat 60) := by
    decide +kernel
  exact ⟨hprime, (roots_found hprime (ofNat 2)).1.trans (congrArg Part.some hroot)⟩

end Secp.Residue
