import Secp.Proofs.Residue.Power
import Secp.Residue.SquareRoot

/-!
# Representatives, and moduli of equal value

The representative that an operation gives is the remainder of what the operation on integers gives.
It depends on the value of the modulus only, not on the way in which the modulus reduces: a residue
of one modulus is recast as one of another modulus of equal value, and every operation, root search
included, takes recast residues to the recast result.
-/

namespace Secp.Residue

section Representatives

variable {m : Modulus}

/-- The representative of the class of an integer is its remainder. -/
theorem val_eq_emod {a : Residue m} {x : Int} (h : a.toZMod = x) : (a.val : Int) = x % m.value := by
  have ha : ofInt x = a := by rw [← toZMod_inj, toZMod_ofInt, h]
  rw [← ha]
  exact m.reduceInt_eq_emod x

/-- The class of a residue is that of its representative as an integer. -/
theorem intCast_val (a : Residue m) : ((a.val : Int) : ZMod m.value) = a.toZMod :=
  Int.cast_natCast a.val

/-- Sums are remainders of sums. -/
theorem val_add (a b : Residue m) : ((a + b).val : Int) = (a.val + b.val : Int) % m.value :=
  val_eq_emod <| by rw [toZMod_add, Int.cast_add, intCast_val, intCast_val]

/-- Differences are remainders of differences. -/
theorem val_sub (a b : Residue m) : ((a - b).val : Int) = (a.val - b.val : Int) % m.value :=
  val_eq_emod <| by rw [toZMod_sub, Int.cast_sub, intCast_val, intCast_val]

/-- Opposites are remainders of opposites. -/
theorem val_neg (a : Residue m) : ((-a).val : Int) = (-a.val : Int) % m.value :=
  val_eq_emod <| by rw [toZMod_neg, Int.cast_neg, intCast_val]

/-- Products are remainders of products. -/
theorem val_mul (a b : Residue m) : ((a * b).val : Int) = (a.val * b.val : Int) % m.value :=
  val_eq_emod <| by rw [toZMod_mul, Int.cast_mul, intCast_val, intCast_val]

/-- Squares are remainders of squares. -/
theorem val_sqr (a : Residue m) : (a.sqr.val : Int) = (a.val ^ 2 : Int) % m.value :=
  val_eq_emod <| by rw [toZMod_sqr, Int.cast_pow, intCast_val]

/-- Small products are remainders of small products. -/
theorem val_mulSmall (a : Residue m) (n : Nat) :
    ((a.mulSmall n).val : Int) = (a.val * n : Int) % m.value :=
  val_eq_emod <| by rw [toZMod_mulSmall, Int.cast_mul, intCast_val, Int.cast_natCast]

/-- Powers are remainders of powers. -/
theorem val_pow (a : Residue m) (exponent : Nat) :
    ((a.pow exponent).val : Int) = (a.val ^ exponent : Int) % m.value :=
  val_eq_emod <| by rw [toZMod_pow, Int.cast_pow, intCast_val]

end Representatives

section Recast

variable {m m' : Modulus} (hvalue : m.value = m'.value)

/-- The residue of another modulus of equal value that has the same representative. -/
def recast (a : Residue m) : Residue m' := ⟨a.val, hvalue ▸ a.val_lt⟩

/-- Recast residues are equal when the residues are. -/
theorem recast_inj {a b : Residue m} : recast hvalue a = recast hvalue b ↔ a = b :=
  ⟨fun h ↦ ext (congrArg Residue.val h :), congrArg _⟩

/-- Residues of moduli of equal value whose representatives are remainders of one integer are the
same but for the modulus. -/
theorem recast_eq {a : Residue m} {b : Residue m'} {x : Int} (ha : (a.val : Int) = x % m.value)
    (hb : (b.val : Int) = x % m'.value) : recast hvalue a = b :=
  ext <| Int.ofNat_inj.mp <| by rw [hb, ← hvalue, ← ha]; rfl

/-! The operations take recast residues to the recast result. -/

theorem recast_ofInt (x : Int) : recast hvalue (ofInt x : Residue m) = ofInt x :=
  recast_eq hvalue (val_eq_emod (toZMod_ofInt x)) (val_eq_emod (toZMod_ofInt x))

theorem recast_ofNat (x : Nat) : recast hvalue (ofNat x : Residue m) = ofNat x := by
  have hclass (m : Modulus) : ((ofNat x : Residue m).val : Int) = (x : Int) % m.value :=
    val_eq_emod <| by rw [toZMod_ofNat, Int.cast_natCast]
  exact recast_eq hvalue (hclass m) (hclass m')

theorem recast_zero : recast hvalue (zero : Residue m) = zero := rfl

theorem recast_one : recast hvalue (one : Residue m) = one := recast_ofNat hvalue 1

/-- A recast residue is one when the residue is. -/
theorem recast_eq_one_iff {a : Residue m} : recast hvalue a = one ↔ a = one := by
  rw [← recast_one hvalue, recast_inj]

theorem recast_add (a b : Residue m) : recast hvalue (a + b) = recast hvalue a + recast hvalue b :=
  recast_eq hvalue (val_add a b) (val_add _ _)

theorem recast_sub (a b : Residue m) : recast hvalue (a - b) = recast hvalue a - recast hvalue b :=
  recast_eq hvalue (val_sub a b) (val_sub _ _)

theorem recast_neg (a : Residue m) : recast hvalue (-a) = -recast hvalue a :=
  recast_eq hvalue (val_neg a) (val_neg _)

theorem recast_mul (a b : Residue m) : recast hvalue (a * b) = recast hvalue a * recast hvalue b :=
  recast_eq hvalue (val_mul a b) (val_mul _ _)

theorem recast_sqr (a : Residue m) : recast hvalue a.sqr = (recast hvalue a).sqr :=
  recast_eq hvalue (val_sqr a) (val_sqr _)

theorem recast_mulSmall (a : Residue m) (n : Nat) :
    recast hvalue (a.mulSmall n) = (recast hvalue a).mulSmall n :=
  recast_eq hvalue (val_mulSmall a n) (val_mulSmall _ n)

theorem recast_pow (a : Residue m) (exponent : Nat) :
    recast hvalue (a.pow exponent) = (recast hvalue a).pow exponent :=
  recast_eq hvalue (val_pow a exponent) (val_pow _ exponent)

/-- The inverse is found from the representative and the value of the modulus alone. -/
theorem recast_inverse? (a : Residue m) :
    a.inverse?.map (recast hvalue) = (recast hvalue a).inverse? := by
  obtain ⟨value, _, _⟩ := m
  obtain ⟨value', _, _⟩ := m'
  obtain rfl : value = value' := hvalue
  unfold inverse?
  dsimp only [recast]
  split
  · rfl
  · rfl

theorem recast_sqrTimes (count : Nat) (a : Residue m) :
    recast hvalue (sqrTimes count a) = sqrTimes count (recast hvalue a) := by
  induction count generalizing a with
  | zero => rfl
  | succ count ih => rw [sqrTimes, ih, recast_sqr, sqrTimes]

/-- The search for a non-residue ends at the same number. -/
theorem recast_findNonResidue (half count z : Nat) :
    (findNonResidue half count z : Option (Residue m)).map (recast hvalue) =
      findNonResidue half count z := by
  induction count generalizing z with
  | zero => rfl
  | succ count ih =>
    have htest : (ofNat z : Residue m').pow half = -one ↔
        (ofNat z : Residue m).pow half = -one := by
      rw [← recast_ofNat hvalue, ← recast_pow, ← recast_one hvalue, ← recast_neg, recast_inj]
    rw [findNonResidue, findNonResidue]
    by_cases hminus : (ofNat z : Residue m).pow half = -one
    · rw [if_pos hminus, if_pos (htest.mpr hminus), Option.map_some, recast_ofNat]
    · rw [if_neg hminus, if_neg (mt htest.mp hminus), ih]

/-- The exponent of an error's order is the same. -/
theorem orderExponent_recast (limit count i : Nat) (t : Residue m) :
    orderExponent limit count i (recast hvalue t) = orderExponent limit count i t := by
  induction count generalizing i t with
  | zero => rfl
  | succ count ih =>
    rw [orderExponent, orderExponent, ← recast_sqr, ih]
    simp only [recast_eq_one_iff]

/-- A guess is corrected in the same steps. -/
theorem recast_correctRoot (s : Nat) (c r t : Residue m) :
    (correctRoot s c r t).map (recast hvalue) =
      correctRoot s (recast hvalue c) (recast hvalue r) (recast hvalue t) := by
  fun_induction correctRoot s c r t with
  | case1 s c r => rw [correctRoot, if_pos (recast_one hvalue), Option.map_some]
  | case2 s c r t hone hnone =>
    rw [correctRoot, if_neg (mt (recast_eq_one_iff hvalue).mp hone), orderExponent_recast, hnone,
      Option.map_none]
  | case3 s c r t hone i hi hlt b ih =>
    rw [correctRoot.eq_def s, if_neg (mt (recast_eq_one_iff hvalue).mp hone),
      orderExponent_recast, hi]
    dsimp only
    rw [dif_pos hlt, ih, ← recast_sqrTimes, ← recast_sqr, ← recast_mul, ← recast_mul]
  | case4 s c r t hone i hi hlt =>
    rw [correctRoot, if_neg (mt (recast_eq_one_iff hvalue).mp hone), orderExponent_recast, hi]
    dsimp only
    rw [dif_neg hlt, Option.map_none]

/-- Tonelli's and Shanks's way takes the same steps. -/
theorem recast_tonelliShanks (a : Residue m) :
    (tonelliShanks a).map (recast hvalue) = tonelliShanks (recast hvalue a) := by
  unfold tonelliShanks
  dsimp only
  rw [← hvalue, ← recast_pow]
  by_cases hone : a.pow ((m.value - 1) / 2) = one
  · rw [if_pos hone, if_pos ((recast_eq_one_iff hvalue).mpr hone), ← recast_findNonResidue hvalue,
      Option.map_bind, Option.bind_map]
    congr 1
    funext z
    simp only [Function.comp_apply, recast_correctRoot, recast_pow]
  · rw [if_neg hone, if_neg (mt (recast_eq_one_iff hvalue).mp hone), Option.map_none]

/-- Keeping a guess that is a root recasts with it. -/
private theorem recast_filter (a : Residue m) (guess : Option (Residue m)) :
    (guess.filter (·.sqr = a)).map (recast hvalue) =
      (guess.map (recast hvalue)).filter (·.sqr = recast hvalue a) := by
  cases guess with
  | none => rfl
  | some r =>
    have htest : (recast hvalue r).sqr = recast hvalue a ↔ r.sqr = a := by
      rw [← recast_sqr, recast_inj]
    rw [Option.map_some, Option.filter_some, Option.filter_some]
    simp only [htest]
    split
    · rfl
    · rfl

/-- The same root is found. -/
theorem recast_sqrt? (a : Residue m) : a.sqrt?.map (recast hvalue) = (recast hvalue a).sqrt? := by
  by_cases hzero : a.isZero = true
  · have hzero' : (recast hvalue a).isZero = true := hzero
    rw [sqrt?, sqrt?, if_pos hzero, if_pos hzero', Option.map_some]
  · have hzero' : ¬ (recast hvalue a).isZero = true := hzero
    rw [sqrt?, sqrt?, if_neg hzero, if_neg hzero']
    dsimp only
    rw [recast_filter, ← recast_tonelliShanks hvalue, ← recast_pow, ← hvalue]
    split
    · rfl
    · rfl

end Recast

end Secp.Residue
