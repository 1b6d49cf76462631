import Mathlib.Algebra.Order.Ring.Int
import Secp.LimbInt.Basic
import Secp.Proofs.Limbs.Product
import Secp.Proofs.Limbs.Sum

/-!
# Integers as a sign and limbs are exact

A canonical integer is negative exactly when its sign says so, so it is the only one of its
number, and comparing canonical integers compares numbers. Sums, differences, products, opposites,
magnitudes and powers denote those of the numbers, for every combination of signs, and are
canonical again.
-/

namespace Secp.LimbInt

variable {a b : LimbInt} {x y z : Int}

/-- The integer of a sign and limbs, whether or not they are in canonical form. -/
theorem toInt_mk (negative : Bool) (limbs : Limbs) :
    toInt ⟨negative, limbs⟩ = if negative then -(limbs.toNat : Int) else limbs.toNat := rfl

/-- Bringing a sign and limbs into canonical form keeps the integer. -/
@[simp] theorem toInt_ofParts (negative : Bool) (limbs : Limbs) :
    toInt (ofParts negative limbs) =
      if negative then -(limbs.toNat : Int) else limbs.toNat := by
  rw [ofParts, toInt_mk, Limbs.toNat_trim]
  cases negative with
  | false => rfl
  | true =>
    cases htrim : limbs.trim with
    | nil =>
      have hzero : limbs.toNat = 0 := by rw [← Limbs.toNat_trim, htrim, Limbs.toNat_nil]
      simp [hzero]
    | cons w ws => rfl

/-- A sign and limbs are in canonical form once they are brought into it. -/
theorem canonical_ofParts (negative : Bool) {limbs : Limbs} (h : limbs.Bounded) :
    Canonical (ofParts negative limbs) := by
  refine ⟨h.canonical_trim, fun hnil ↦ ?_⟩
  change (negative && !(limbs.trim).isEmpty) = false
  rw [show limbs.trim = [] from hnil]
  exact Bool.and_false _

/-- The magnitude is the absolute value. -/
theorem natAbs_toInt (a : LimbInt) : a.toInt.natAbs = a.limbs.toNat := by
  unfold toInt
  split
  · rw [Int.natAbs_neg, Int.natAbs_natCast]
  · rw [Int.natAbs_natCast]

/-- A canonical integer is negative when its sign says so. -/
theorem Canonical.negative_iff (h : a.Canonical) : a.negative = true ↔ a.toInt < 0 := by
  have hzero := h.1.2.toNat_eq_zero_iff
  unfold toInt
  split
  · next hneg =>
    have hne : a.limbs ≠ [] := fun hnil ↦ Bool.false_ne_true ((h.2 hnil).symm.trans hneg)
    have := mt hzero.mp hne
    exact iff_of_true hneg (by omega)
  · next hneg => exact iff_of_false hneg (by omega)

/-- A canonical integer is the only one of its number. -/
theorem Canonical.ext (ha : a.Canonical) (hb : b.Canonical) (h : a.toInt = b.toInt) : a = b := by
  have hlimbs : a.limbs = b.limbs := ha.1.ext hb.1 (by rw [← natAbs_toInt, ← natAbs_toInt, h])
  have hsign : a.negative = b.negative :=
    Bool.eq_iff_iff.mpr (by rw [ha.negative_iff, hb.negative_iff, h])
  cases a
  cases b
  cases hlimbs
  cases hsign
  rfl

/-- Comparing numbers as integers compares them. -/
theorem compare_natCast (m n : Nat) : Ord.compare (m : Int) n = Ord.compare m n := by
  simp only [Nat.compare_eq_ite_lt, Int.compare_eq_ite_lt]
  grind

/-- Comparing opposites compares the other way round. -/
theorem compare_neg_neg (m n : Int) : Ord.compare (-m) (-n) = Ord.compare n m := by
  simp only [Int.compare_eq_ite_lt]
  grind

/-- Comparing canonical integers compares their numbers. -/
theorem Canonical.compare_eq (ha : a.Canonical) (hb : b.Canonical) :
    a.compare b = Ord.compare a.toInt b.toInt := by
  have hnega := ha.negative_iff
  have hnegb := hb.negative_iff
  unfold compare compareMagnitude
  split
  · next hsa hsb =>
    have hlt := hnegb.mp hsb
    have hle := mt hnega.mpr (ne_true_of_eq_false hsa)
    exact (Int.compare_eq_gt.mpr (by omega)).symm
  · next hsa hsb =>
    have hlt := hnega.mp hsa
    have hle := mt hnegb.mpr (ne_true_of_eq_false hsb)
    exact (Int.compare_eq_lt.mpr (by omega)).symm
  · next hsa hsb =>
    rw [toInt, toInt, hsa, hsb, Limbs.compare_eq ha.1 hb.1]
    exact (compare_natCast _ _).symm
  · next hsa hsb =>
    rw [toInt, toInt, hsa, hsb, Limbs.compare_eq hb.1 ha.1, if_pos rfl, if_pos rfl,
      compare_neg_neg]
    exact (compare_natCast _ _).symm

/-- The canonical form of an integer. -/
structure Denotes (a : LimbInt) (z : Int) : Prop where
  canonical : a.Canonical
  toInt_eq : a.toInt = z

/-- A canonical integer denotes its number. -/
theorem Canonical.denotes (h : a.Canonical) : Denotes a a.toInt := ⟨h, rfl⟩

/-- An integer is negative when its sign says so. -/
theorem Denotes.negative_eq (ha : Denotes a x) : a.negative = decide (x < 0) := by
  rw [Bool.eq_iff_iff, decide_eq_true_iff, ← ha.toInt_eq]
  exact ha.canonical.negative_iff

/-- The magnitude of an integer is its absolute value. -/
theorem Denotes.toNat_limbs (ha : Denotes a x) : a.limbs.toNat = x.natAbs := by
  rw [← ha.toInt_eq, natAbs_toInt]

/-- An integer is zero when its magnitude is empty. -/
theorem Denotes.isZero_iff (ha : Denotes a x) : a.isZero = true ↔ x = 0 := by
  rw [isZero, List.isEmpty_iff, ← ha.canonical.1.2.toNat_eq_zero_iff, ha.toNat_limbs,
    Int.natAbs_eq_zero]

/-- Integers are equal when their numbers are. -/
theorem Denotes.eq_iff (ha : Denotes a x) (hb : Denotes b y) : a = b ↔ x = y := by
  rw [← ha.toInt_eq, ← hb.toInt_eq]
  exact ⟨fun h ↦ h ▸ rfl, ha.canonical.ext hb.canonical⟩

/-- Comparing magnitudes compares absolute values. -/
theorem Denotes.compareMagnitude_eq (ha : Denotes a x) (hb : Denotes b y) :
    a.compareMagnitude b = Ord.compare x.natAbs y.natAbs := by
  rw [compareMagnitude, Limbs.compare_eq ha.canonical.1 hb.canonical.1, ha.toNat_limbs,
    hb.toNat_limbs]

/-- The form of an integer denotes it. -/
theorem denotes_ofInt (n : Int) : Denotes (ofInt n) n := by
  refine ⟨canonical_ofParts _ (Limbs.canonical_ofNat _).1, ?_⟩
  rw [ofInt, toInt_ofParts, Limbs.toNat_ofNat]
  simp only [decide_eq_true_eq]
  split <;> omega

/-- What denotes an integer is its form. -/
theorem Denotes.eq_ofInt (ha : Denotes a x) : a = ofInt x := (ha.eq_iff (denotes_ofInt x)).mpr rfl

/-- Zero denotes zero. -/
theorem denotes_zero : Denotes zero 0 := ⟨⟨Limbs.canonical_nil, fun _ ↦ rfl⟩, rfl⟩

/-- The limbs of a wide word denote an integer of that magnitude once its sign is set. -/
theorem denotes_ofWord_of_natAbs {t : UInt64} (h : t.toNat = z.natAbs) :
    Denotes { ofWord t with negative := decide (z < 0) } z := by
  have hlimbs : (ofWord t).limbs.toNat = z.natAbs := (Limbs.toNat_ofWord t).trans h
  refine ⟨⟨Limbs.canonical_ofWord t, ?_⟩, ?_⟩
  · intro hnil
    -- Without limbs the integer is zero, which is not negative.
    dsimp only at hnil
    rw [hnil, Limbs.toNat_nil] at hlimbs
    exact decide_eq_false (by omega)
  · rw [toInt_mk, hlimbs]
    simp only [decide_eq_true_eq]
    split <;> omega

/-- A wide word denotes its number. -/
theorem denotes_ofWord (t : UInt64) : Denotes (ofWord t) t.toNat := by
  have hword := denotes_ofWord_of_natAbs (Int.natAbs_natCast t.toNat).symm
  rwa [decide_eq_false (Int.not_lt.mpr (Int.natCast_nonneg t.toNat))] at hword

/-- A signed word denotes its number. -/
theorem denotes_ofInt32 (n : Int32) : Denotes (ofInt32 n) n.toInt := by
  have hfits : n.toInt.natAbs < 2 ^ 32 := by
    have hle := n.le_toInt
    have hlt := n.toInt_lt
    omega
  have hword : (UInt32.ofNat n.toInt.natAbs).toUInt64.toNat = n.toInt.natAbs := by
    rw [UInt32.toNat_toUInt64, UInt32.toNat_ofNat_of_lt' hfits]
  have hsign : decide (n < 0) = decide (n.toInt < 0) :=
    decide_eq_decide.mpr Int32.lt_iff_toInt_lt
  rw [ofInt32, hsign]
  exact denotes_ofWord_of_natAbs hword

/-- One denotes one. -/
theorem denotes_one : Denotes one 1 := denotes_ofWord 1

/-- The magnitude denotes the absolute value. -/
theorem Denotes.abs (ha : Denotes a x) : Denotes a.abs |x| := by
  refine ⟨⟨ha.canonical.1, fun _ ↦ rfl⟩, ?_⟩
  rw [← ha.toInt_eq, Int.abs_eq_natAbs, natAbs_toInt]
  rfl

/-- The absolute value is a natural number. -/
theorem Denotes.natAbs (ha : Denotes a x) : Denotes a.abs (x.natAbs : Nat) :=
  Int.abs_eq_natAbs x ▸ ha.abs

/-- The opposite denotes the opposite. -/
theorem Denotes.neg (ha : Denotes a x) : Denotes a.neg (-x) := by
  refine ⟨canonical_ofParts _ ha.canonical.1.1, ?_⟩
  rw [LimbInt.neg, toInt_ofParts, ← ha.toInt_eq, toInt]
  cases a.negative <;> simp

/-- The sum denotes the sum. -/
theorem Denotes.add (ha : Denotes a x) (hb : Denotes b y) : Denotes (a.add b) (x + y) := by
  have hla := ha.canonical.1.1
  have hlb := hb.canonical.1.1
  have hcompare := Limbs.compare_eq ha.canonical.1 hb.canonical.1
  rw [← ha.toInt_eq, ← hb.toInt_eq]
  unfold LimbInt.add compareMagnitude
  split
  · next hsign =>
    refine ⟨canonical_ofParts _ (Limbs.bounded_add _ _), ?_⟩
    rw [toInt_ofParts, Limbs.toNat_add hla hlb, toInt, toInt, ← hsign]
    split <;> omega
  · next hsign =>
    split
    · next heq =>
      rw [hcompare, Nat.compare_eq_eq] at heq
      refine ⟨denotes_zero.canonical, denotes_zero.toInt_eq.trans ?_⟩
      rw [toInt, toInt, heq]
      grind
    · next hgt =>
      rw [hcompare, Nat.compare_eq_gt] at hgt
      refine ⟨canonical_ofParts _ (Limbs.bounded_sub _ _), ?_⟩
      rw [toInt_ofParts, Limbs.toNat_sub hla hlb hgt.le, toInt, toInt]
      grind
    · next hlt =>
      rw [hcompare, Nat.compare_eq_lt] at hlt
      refine ⟨canonical_ofParts _ (Limbs.bounded_sub _ _), ?_⟩
      rw [toInt_ofParts, Limbs.toNat_sub hlb hla hlt.le, toInt, toInt]
      grind

/-- The difference denotes the difference. -/
theorem Denotes.sub (ha : Denotes a x) (hb : Denotes b y) : Denotes (a.sub b) (x - y) := by
  rw [Int.sub_eq_add_neg]
  exact ha.add hb.neg

/-- The product of two magnitudes under the sign of two signs is the product. -/
theorem signed_mul (s t : Bool) (m n : Nat) :
    (if (s != t) = true then -((m * n : Nat) : Int) else ((m * n : Nat) : Int)) =
      (if s then -(m : Int) else m) * (if t then -(n : Int) else n) := by
  cases s <;> cases t <;> simp

/-- The product denotes the product. -/
theorem Denotes.mul (ha : Denotes a x) (hb : Denotes b y) : Denotes (a.mul b) (x * y) := by
  refine ⟨canonical_ofParts _ (Limbs.canonical_mul ha.canonical.1 hb.canonical.1).1, ?_⟩
  rw [LimbInt.mul, toInt_ofParts, Limbs.toNat_mul ha.canonical.1.1 hb.canonical.1.1, signed_mul,
    ← ha.toInt_eq, ← hb.toInt_eq, toInt, toInt]

/-- The square denotes the square. -/
theorem Denotes.sqr (ha : Denotes a x) : Denotes a.sqr (x * x) := by
  refine ⟨canonical_ofParts _ (Limbs.canonical_sqr ha.canonical.1.1).1, ?_⟩
  rw [LimbInt.sqr, toInt_ofParts, Limbs.toNat_sqr ha.canonical.1.1, ← ha.toInt_eq,
    ← Int.natAbs_mul_self (a := a.toInt), natAbs_toInt]
  rfl

/-- The sum with a word denotes the sum. -/
theorem Denotes.addWord (ha : Denotes a x) (n : UInt32) : Denotes (a.addWord n) (x + n.toNat) :=
  ha.add (denotes_ofWord n.toUInt64)

/-- The difference with a word denotes the difference. -/
theorem Denotes.subWord (ha : Denotes a x) (n : UInt32) : Denotes (a.subWord n) (x - n.toNat) :=
  ha.sub (denotes_ofWord n.toUInt64)

/-- The product with a word denotes the product. -/
theorem Denotes.mulWord (ha : Denotes a x) (n : UInt32) : Denotes (a.mulWord n) (x * n.toNat) := by
  refine ⟨canonical_ofParts _ (Limbs.bounded_mulWord _ _), ?_⟩
  rw [LimbInt.mulWord, toInt_ofParts, Limbs.toNat_mulWord ha.canonical.1.1, ← ha.toInt_eq, toInt]
  cases a.negative <;> simp

/-- Adding a word to the magnitude of an integer that is not negative adds it to the integer. -/
theorem Denotes.growBy (ha : Denotes a x) (hsign : a.negative = false) (n : UInt32) :
    Denotes (a.growBy n) (x + n.toNat) := by
  refine ⟨⟨Limbs.canonical_addWord ha.canonical.1 n, fun _ ↦ hsign⟩, ?_⟩
  rw [LimbInt.growBy, toInt_mk, Limbs.toNat_addWord ha.canonical.1.1, ← ha.toInt_eq, toInt, hsign]
  exact Int.natCast_add _ _

/-- Subtracting a word from the magnitude of an integer that is no smaller subtracts it from the
integer. -/
theorem Denotes.shrinkBy (ha : Denotes a x) {n : UInt32} (hle : (n.toNat : Int) ≤ x) :
    Denotes (a.shrinkBy n) (x - n.toNat) := by
  have hsign : a.negative = false := Bool.eq_false_iff.mpr fun hneg ↦ by
    have hlt := ha.canonical.negative_iff.mp hneg
    rw [ha.toInt_eq] at hlt
    omega
  have hvalue : (a.limbs.toNat : Int) = x := by
    rw [← ha.toInt_eq, toInt, hsign]
    rfl
  refine ⟨⟨Limbs.canonical_subWord ha.canonical.1.1 n, fun _ ↦ hsign⟩, ?_⟩
  rw [LimbInt.shrinkBy, toInt_mk, Limbs.toNat_subWord ha.canonical.1.1 (by omega), hsign]
  simp only [Bool.false_eq_true, if_false]
  omega

/-- An integer that is not refused for its width is denoted. -/
theorem denotes_of_ofSafe {n : Int} (h : ofSafe n = .ok a) : Denotes a n := by
  unfold ofSafe at h
  split at h
  · exact nomatch h
  · next hle =>
    cases h
    have hfits : n.natAbs < 2 ^ 64 := Nat.lt_of_le_of_lt (Nat.le_of_not_lt hle) (by decide)
    exact denotes_ofWord_of_natAbs (UInt64.toNat_ofNat_of_lt' hfits)

/-- Squaring and multiplying over the bits of the exponent multiplies by the power. -/
theorem Denotes.powFrom (ha : Denotes a x) (hb : Denotes b y) (exponent : Nat) :
    Denotes (powFrom a b exponent) (x * y ^ exponent) := by
  induction exponent using Nat.strongRecOn generalizing a b x y with
  | ind exponent ih =>
    unfold LimbInt.powFrom
    split
    · next hzero =>
      rw [hzero, pow_zero, mul_one]
      exact ha
    · next hne =>
      have hhalf : exponent / 2 < exponent := Nat.div_lt_self (by omega) (by decide)
      -- the lowest bit of the exponent goes into the result
      have hresult :
          Denotes (if exponent % 2 = 1 then a.mul b else a) (x * y ^ (exponent % 2)) := by
        rcases Nat.mod_two_eq_zero_or_one exponent with hbit | hbit
        · rw [hbit, if_neg (by decide), pow_zero, mul_one]
          exact ha
        · rw [hbit, if_pos rfl, pow_one]
          exact ha.mul hb
      dsimp only
      by_cases hlast : exponent / 2 = 0
      · have h := ih _ hhalf hresult hb
        rw [if_pos hlast]
        rwa [mul_assoc, ← pow_add, show exponent % 2 + exponent / 2 = exponent by omega] at h
      · have h := ih _ hhalf hresult hb.sqr
        rw [if_neg hlast]
        rwa [← pow_two, ← pow_mul, mul_assoc, ← pow_add, Nat.mod_add_div] at h

/-- A power denotes the power. -/
theorem Denotes.pow (ha : Denotes a x) (exponent : Nat) :
    Denotes (a.pow exponent) (x ^ exponent) := by
  have h := denotes_one.powFrom ha exponent
  rwa [one_mul] at h

end Secp.LimbInt
