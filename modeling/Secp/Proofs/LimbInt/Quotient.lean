import Secp.LimbInt.Quotient
import Secp.Number.Euclid
import Secp.Number.Rounding
import Secp.Proofs.LimbInt.Arithmetic
import Secp.Proofs.Limbs.Quotient
import Secp.Proofs.Limbs.Shift
import Secp.Proofs.Outcome

/-!
# Division of integers is exact

Dividing magnitudes and setting the signs gives the quotient truncated toward zero and the
remainder with the sign of the dividend. What follows from them in integers follows in numbers:
the least remainder that is not negative, the rounded quotient, and Euclid's loops, which end since
every remainder is smaller than its divisor.
-/

namespace Secp.LimbInt

variable {a b q r m s t : LimbInt} {x y u v : Int} {k n : Nat}

/-- The quotient of two magnitudes under the sign of two signs is the truncated quotient. -/
theorem signed_tdiv (s t : Bool) (m n : Nat) :
    (if (s != t) = true then -((m / n : Nat) : Int) else ((m / n : Nat) : Int)) =
      (if s then -(m : Int) else m).tdiv (if t then -(n : Int) else n) := by
  cases s <;> cases t <;> simp [Int.neg_tdiv, Int.tdiv_neg]

/-- The remainder of two magnitudes under the sign of the dividend is the truncated remainder. -/
theorem signed_tmod (s t : Bool) (m n : Nat) :
    (if s then -((m % n : Nat) : Int) else ((m % n : Nat) : Int)) =
      (if s then -(m : Int) else m).tmod (if t then -(n : Int) else n) := by
  rw [Int.ofNat_tmod]
  cases s <;> cases t <;> simp [Int.neg_tmod, Int.tmod_neg]

/-- Division gives the truncated quotient and its remainder, unless the divisor is zero. -/
theorem Denotes.divRem_eq_ok_iff (ha : Denotes a x) (hb : Denotes b y) :
    a.divRem b = .ok (q, r) ↔ y ≠ 0 ∧ Denotes q (x.tdiv y) ∧ Denotes r (x.tmod y) := by
  unfold LimbInt.divRem
  split
  · next hzero => exact ⟨nofun, fun h ↦ absurd (hb.isZero_iff.mp hzero) h.1⟩
  · next hzero =>
    have hne : b.limbs ≠ [] := fun hnil ↦ hzero (List.isEmpty_iff.mpr hnil)
    have hdivision := Limbs.divRem_spec ha.canonical.1 hb.canonical.1 hne
    obtain ⟨hquotient, hremainder⟩ := hdivision.eq_div_mod
    have hq : Denotes (ofParts (a.negative != b.negative) (a.limbs.divRem b.limbs).1)
        (x.tdiv y) := by
      refine ⟨canonical_ofParts _ hdivision.canonical_quotient.1, ?_⟩
      rw [toInt_ofParts, hquotient, signed_tdiv, ← ha.toInt_eq, ← hb.toInt_eq, toInt, toInt]
    have hr : Denotes (ofParts a.negative (a.limbs.divRem b.limbs).2) (x.tmod y) := by
      refine ⟨canonical_ofParts _ hdivision.canonical_remainder.1, ?_⟩
      rw [toInt_ofParts, hremainder, signed_tmod _ b.negative, ← ha.toInt_eq, ← hb.toInt_eq,
        toInt, toInt]
    rw [Except.ok.injEq, Prod.mk.injEq]
    constructor
    · rintro ⟨rfl, rfl⟩
      exact ⟨mt hb.isZero_iff.mpr hzero, hq, hr⟩
    · rintro ⟨-, hq', hr'⟩
      exact ⟨(hq.eq_iff hq').mpr rfl, (hr.eq_iff hr').mpr rfl⟩

/-- The quotient alone. -/
theorem Denotes.div_eq_ok_iff (ha : Denotes a x) (hb : Denotes b y) :
    a.div b = .ok q ↔ y ≠ 0 ∧ Denotes q (x.tdiv y) := by
  rw [LimbInt.div, map_eq_ok_iff]
  constructor
  · rintro ⟨⟨q, r⟩, h, rfl⟩
    obtain ⟨hy, hq, -⟩ := (ha.divRem_eq_ok_iff hb).mp h
    exact ⟨hy, hq⟩
  · rintro ⟨hy, hq⟩
    exact ⟨(q, ofInt (x.tmod y)), (ha.divRem_eq_ok_iff hb).mpr ⟨hy, hq, denotes_ofInt _⟩, rfl⟩

/-- The remainder alone. -/
theorem Denotes.rem_eq_ok_iff (ha : Denotes a x) (hb : Denotes b y) :
    a.rem b = .ok r ↔ y ≠ 0 ∧ Denotes r (x.tmod y) := by
  rw [LimbInt.rem, map_eq_ok_iff]
  constructor
  · rintro ⟨⟨q, r⟩, h, rfl⟩
    obtain ⟨hy, -, hr⟩ := (ha.divRem_eq_ok_iff hb).mp h
    exact ⟨hy, hr⟩
  · rintro ⟨hy, hr⟩
    exact ⟨(ofInt (x.tdiv y), r), (ha.divRem_eq_ok_iff hb).mpr ⟨hy, denotes_ofInt _, hr⟩, rfl⟩

/-- A quotient by a word is canonical. -/
theorem Canonical.divWord (ha : a.Canonical) {d rest : UInt32}
    (h : a.divWord d = .ok (q, rest)) : q.Canonical := by
  unfold LimbInt.divWord at h
  split at h
  · exact nomatch h
  · next hd =>
    cases h
    exact canonical_ofParts _ (Limbs.divWord_spec ha.1.1 hd).2.1.1

/-- A negative truncated remainder is the divisor's magnitude below the least remainder that is not
negative. -/
theorem emod_eq_of_tmod (x : Int) (hy : y ≠ 0) :
    x % y = if x.tmod y < 0 then x.tmod y + |y| else x.tmod y := by
  have hnonneg := Int.emod_nonneg x hy
  have hlt := Int.emod_lt_abs x hy
  have hsplit := Int.tmod_eq_emod (a := x) (b := y)
  rw [Int.abs_eq_natAbs] at *
  split at hsplit
  · rw [if_neg (by omega)]
    omega
  · rw [if_pos (by omega)]
    omega

/-- Adding the divisor to a negative remainder gives the least one that is not negative. -/
theorem Denotes.umod_eq_ok_iff (ha : Denotes a x) (hb : Denotes b y) :
    a.umod b = .ok r ↔ y ≠ 0 ∧ Denotes r (x % y) := by
  have hleast : ∀ {r : LimbInt}, y ≠ 0 → Denotes r (x.tmod y) →
      Denotes (if r.negative then r.add b.abs else r) (x % y) := by
    intro r hy hr
    rw [emod_eq_of_tmod x hy, hr.negative_eq]
    simp only [decide_eq_true_iff]
    split
    · exact hr.add hb.abs
    · exact hr
  rw [LimbInt.umod, map_eq_ok_iff]
  constructor
  · rintro ⟨r, h, rfl⟩
    obtain ⟨hy, hr⟩ := (ha.rem_eq_ok_iff hb).mp h
    exact ⟨hy, hleast hy hr⟩
  · rintro ⟨hy, hr⟩
    have hrest := denotes_ofInt (x.tmod y)
    exact ⟨_, (ha.rem_eq_ok_iff hb).mpr ⟨hy, hrest⟩, ((hleast hy hrest).eq_iff hr).mpr rfl⟩

/-- The left shift multiplies by a power of two. -/
theorem Denotes.shl (ha : Denotes a x) (bits : Nat) : Denotes (a.shl bits) (x * 2 ^ bits) := by
  refine ⟨canonical_ofParts _ (Limbs.bounded_shl ha.canonical.1.1 bits), ?_⟩
  rw [LimbInt.shl, toInt_ofParts, Limbs.toNat_shl ha.canonical.1.1, ← ha.toInt_eq, toInt]
  cases a.negative <;> simp

/-- Comparing the double of a magnitude. -/
theorem Denotes.compare_twice (ha : Denotes a n) (hb : Denotes b y) :
    (a.shl 1).compareMagnitude b.abs = .lt ↔ 2 * n < y.natAbs := by
  rw [(ha.shl 1).compareMagnitude_eq hb.abs, Nat.compare_eq_lt, Int.natAbs_abs]
  omega

/-- Rounding the truncated quotient in integers rounds it in numbers. -/
theorem Denotes.roundQuotient (ha : Denotes a x) (hb : Denotes b y) (hy : y ≠ 0)
    (hq : Denotes q (x.tdiv y)) (hr : Denotes r (x.tmod y)) :
    Denotes (a.roundQuotient b q r) (Number.divRound x y) := by
  have hlt : (x.tmod y).natAbs < y.natAbs := by
    rw [Int.natAbs_tmod]
    exact Nat.mod_lt _ (Int.natAbs_pos.mpr hy)
  unfold LimbInt.roundQuotient Number.divRound
  simp only [hr.isZero_iff, ha.negative_eq, hb.negative_eq]
  generalize (decide (x < 0) != decide (y < 0)) = opposite
  split
  · exact hq
  · have hfloor : Denotes (if opposite then q.subWord 1 else q)
        (if opposite then x.tdiv y - 1 else x.tdiv y) := by
      split
      · exact hq.subWord 1
      · exact hq
    have hrest : Denotes (if opposite then b.abs.sub r.abs else r.abs)
        (if opposite then y.natAbs - (x.tmod y).natAbs else (x.tmod y).natAbs : Nat) := by
      split
      · rw [Int.ofNat_sub hlt.le]
        exact hb.natAbs.sub hr.natAbs
      · exact hr.natAbs
    simp only [hrest.compare_twice hb]
    by_cases hlow : 2 * (if opposite then y.natAbs - (x.tmod y).natAbs else (x.tmod y).natAbs) <
        y.natAbs
    · rw [if_pos hlow, if_pos hlow]
      exact hfloor
    · rw [if_neg hlow, if_neg hlow]
      exact hfloor.addWord 1

/-- The rounded quotient, unless the divisor is zero. -/
theorem Denotes.divRound_eq_ok_iff (ha : Denotes a x) (hb : Denotes b y) :
    a.divRound b = .ok q ↔ y ≠ 0 ∧ Denotes q (Number.divRound x y) := by
  rw [LimbInt.divRound, map_eq_ok_iff]
  constructor
  · rintro ⟨⟨q, r⟩, h, rfl⟩
    obtain ⟨hy, hq, hr⟩ := (ha.divRem_eq_ok_iff hb).mp h
    exact ⟨hy, ha.roundQuotient hb hy hq hr⟩
  · rintro ⟨hy, hq⟩
    have hdivRem := (ha.divRem_eq_ok_iff hb).mpr ⟨hy, denotes_ofInt _, denotes_ofInt _⟩
    have hround := ha.roundQuotient hb hy (denotes_ofInt _) (denotes_ofInt _)
    exact ⟨_, hdivRem, (hround.eq_iff hq).mpr rfl⟩

/-- A pair that denotes two numbers is divided in one step of Euclid's loops, which go on then. -/
theorem Denotes.exists_step (ha : Denotes a k) (hb : Denotes b n) (hn : n ≠ 0) :
    ∃ q r, a.divRem b = .ok (q, r) ∧ Denotes q (k / n : Nat) ∧ Denotes r (k % n : Nat) ∧
      r.limbs.toNat < b.limbs.toNat := by
  have hq := denotes_ofInt (k / n : Nat)
  have hr := denotes_ofInt (k % n : Nat)
  refine ⟨ofInt (k / n : Nat), ofInt (k % n : Nat), ?_, hq, hr, ?_⟩
  · rw [ha.divRem_eq_ok_iff hb, ← Int.ofNat_tdiv, ← Int.ofNat_tmod]
    exact ⟨Int.natCast_ne_zero.mpr hn, hq, hr⟩
  · rw [hr.toNat_limbs, hb.toNat_limbs]
    exact Nat.mod_lt k (Nat.pos_of_ne_zero hn)

/-- The loop of repeated remainders ends, with the greatest common divisor. -/
theorem exists_gcdFrom (ha : Denotes a k) (hb : Denotes b n) :
    ∃ g, gcdFrom a b = some g ∧ Denotes g (Nat.gcd k n) := by
  induction n using Nat.strongRecOn generalizing a b k with
  | ind n ih =>
    rw [gcdFrom]
    split
    · next hzero =>
      rw [Int.natCast_eq_zero.mp (hb.isZero_iff.mp hzero), Nat.gcd_zero_right]
      exact ⟨a, rfl, ha⟩
    · next hzero =>
      have hn : n ≠ 0 := fun h ↦ hzero (hb.isZero_iff.mpr (Int.natCast_eq_zero.mpr h))
      obtain ⟨q, r, hdivRem, -, hr, hlt⟩ := ha.exists_step hb hn
      obtain ⟨g, hend, hg⟩ := ih (k % n) (Nat.mod_lt _ (Nat.pos_of_ne_zero hn)) hb hr
      refine ⟨g, ?_, ?_⟩
      · rw [LimbInt.rem, hdivRem]
        exact (dif_pos hlt).trans hend
      · rwa [Nat.gcd_comm, Nat.gcd_rec, Nat.gcd_comm]

/-- The greatest common divisor denotes the greatest common divisor. -/
theorem Denotes.gcd (ha : Denotes a x) (hb : Denotes b y) : Denotes (a.gcd b) (Int.gcd x y) := by
  obtain ⟨g, hend, hg⟩ := exists_gcdFrom ha.natAbs hb.natAbs
  rw [LimbInt.gcd, hend]
  exact hg

/-- The extended loop ends, with what it ends with in numbers. -/
theorem exists_cofactorFrom (ha : Denotes a k) (hb : Denotes b n) (hs : Denotes s u)
    (ht : Denotes t v) :
    ∃ g f, cofactorFrom a b s t = some (g, f) ∧
      Denotes g (Number.cofactorFrom k n u v).1 ∧ Denotes f (Number.cofactorFrom k n u v).2 := by
  induction n using Nat.strongRecOn generalizing a b s t k u v with
  | ind n ih =>
    rw [cofactorFrom, Number.cofactorFrom]
    split
    · next hzero =>
      rw [dif_pos (Int.natCast_eq_zero.mp (hb.isZero_iff.mp hzero))]
      exact ⟨a, s, rfl, ha, hs⟩
    · next hzero =>
      have hn : n ≠ 0 := fun h ↦ hzero (hb.isZero_iff.mpr (Int.natCast_eq_zero.mpr h))
      obtain ⟨q, r, hdivRem, hq, hr, hlt⟩ := ha.exists_step hb hn
      obtain ⟨g, f, hend, hg, hf⟩ :=
        ih (k % n) (Nat.mod_lt _ (Nat.pos_of_ne_zero hn)) hb hr ht (hs.sub (hq.mul ht))
      rw [dif_neg hn, hdivRem]
      exact ⟨g, f, (dif_pos hlt).trans hend, hg, hf⟩

/-- The least remainder where the divisor is not zero. -/
theorem Denotes.toOption_umod (ha : Denotes a x) (hb : Denotes b y) :
    (a.umod b).toOption = if y = 0 then none else some (ofInt (x % y)) := by
  split
  · next hy =>
    cases h : a.umod b with
    | error e => rfl
    | ok r => exact absurd hy ((ha.umod_eq_ok_iff hb).mp h).1
  · next hy => rw [(ha.umod_eq_ok_iff hb).mpr ⟨hy, denotes_ofInt _⟩]; rfl

/-- The form of a least remainder denotes a natural number. -/
theorem denotes_emod (x : Int) (hy : y ≠ 0) : Denotes (ofInt (x % y)) ((x % y).toNat : Nat) := by
  rw [Int.toNat_of_nonneg (Int.emod_nonneg x hy)]
  exact denotes_ofInt _

/-- There is an inverse exactly where there is one of the numbers, and it is the form of that. -/
theorem Denotes.inverse?_eq (ha : Denotes a x) (hm : Denotes m y) :
    a.inverse? m = (Number.inverse? x y).map ofInt := by
  rw [LimbInt.inverse?, Number.inverse?, ha.toOption_umod hm.abs]
  split
  · next hy => rw [if_pos (abs_eq_zero.mp hy)]; rfl
  · next hy =>
    rw [if_neg (mt abs_eq_zero.mpr hy), Int.emod_abs]
    have hrest := denotes_emod x (mt abs_eq_zero.mpr hy)
    obtain ⟨g, f, hend, hg, hf⟩ := exists_cofactorFrom hrest hm.natAbs denotes_one denotes_zero
    have hone : g = one ↔ (Number.cofactor (x % y).toNat y.natAbs).1 = 1 :=
      (hg.eq_iff denotes_one).trans Int.ofNat_inj
    change ((cofactorFrom (ofInt (x % y)) m.abs one zero).bind fun p ↦
        if p.1 = one then (p.2.umod m.abs).toOption else none) =
      Option.map ofInt (if (Number.cofactor (x % y).toNat y.natAbs).1 = 1 then
        some ((Number.cofactor (x % y).toNat y.natAbs).2 % y) else none)
    rw [hend, Option.bind_some]
    by_cases h : g = one
    · rw [if_pos h, if_pos (hone.mp h), hf.toOption_umod hm.abs, if_neg hy, Int.emod_abs]
      rfl
    · rw [if_neg h, if_neg (mt hone.mpr h)]
      rfl

end Secp.LimbInt
