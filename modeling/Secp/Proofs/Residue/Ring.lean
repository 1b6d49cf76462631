import Mathlib.Data.ZMod.Basic
import Secp.Proofs.Number.Euclid
import Secp.Proofs.Residue.Reduction
import Secp.Residue.Basic

/-!
# Residues as elements of the ring of integers modulo a number

`toZMod` reads a residue in the ring `ZMod m.value`, and `ofZMod` takes the representative of an
element. The two are inverse to each other, and every operation on residues is that of the ring.
-/

namespace Secp

instance (m : Modulus) : NeZero m.value := ⟨Nat.ne_of_gt m.value_pos⟩

namespace Residue

variable {m : Modulus}

/-- The residue as an element of the ring of integers modulo `m`. -/
def toZMod (a : Residue m) : ZMod m.value := a.val

/-- The residue of an element of the ring. -/
def ofZMod (x : ZMod m.value) : Residue m := ⟨x.val, x.val_lt⟩

/-- The representative of the element is that of the residue. -/
@[simp] theorem val_toZMod (a : Residue m) : a.toZMod.val = a.val := ZMod.val_cast_of_lt a.val_lt

/-- The representative of the residue is that of the element. -/
@[simp] theorem val_ofZMod (x : ZMod m.value) : (ofZMod x).val = x.val := rfl

/-- A residue is that of its element. -/
@[simp] theorem ofZMod_toZMod (a : Residue m) : ofZMod a.toZMod = a := ext (val_toZMod a)

/-- An element is that of its residue. -/
@[simp] theorem toZMod_ofZMod (x : ZMod m.value) : (ofZMod x).toZMod = x := ZMod.natCast_zmod_val x

/-- Residues with the same element are the same. -/
theorem toZMod_inj {a b : Residue m} : a.toZMod = b.toZMod ↔ a = b :=
  ⟨fun h ↦ by rw [← ofZMod_toZMod a, h, ofZMod_toZMod], fun h ↦ congrArg toZMod h⟩

/-- Different elements have different residues. -/
theorem ofZMod_inj {x y : ZMod m.value} : (ofZMod x : Residue m) = ofZMod y ↔ x = y := by
  rw [← toZMod_inj, toZMod_ofZMod, toZMod_ofZMod]

/-- The residue of a number is its class. -/
@[simp] theorem toZMod_ofNat (x : Nat) : (ofNat x : Residue m).toZMod = x := by
  change ((m.reduceNat x : Nat) : ZMod m.value) = x
  rw [Modulus.reduceNat_eq_mod, ZMod.natCast_mod]

/-- The residue of an integer is its class. -/
@[simp] theorem toZMod_ofInt (x : Int) : (ofInt x : Residue m).toZMod = x := by
  have h : ((m.reduceInt x : Int) : ZMod m.value) = x := by
    rw [Modulus.reduceInt_eq_emod, ZMod.intCast_mod]
  rw [← h, Int.cast_natCast]
  rfl

/-- The residue of zero is zero. -/
@[simp] theorem toZMod_zero : (zero : Residue m).toZMod = 0 := Nat.cast_zero

/-- Zero is the only residue of zero. -/
theorem toZMod_eq_zero_iff {a : Residue m} : a.toZMod = 0 ↔ a = zero := by
  rw [← toZMod_inj, toZMod_zero]

/-- The residue of one is one. -/
@[simp] theorem toZMod_one : (one : Residue m).toZMod = 1 := by
  rw [one, toZMod_ofNat, Nat.cast_one]

/-- The test for zero decides whether the element is zero. -/
@[simp] theorem isZero_iff (a : Residue m) : a.isZero = true ↔ a.toZMod = 0 := by
  rw [isZero, beq_iff_eq, ← ZMod.val_eq_zero, val_toZMod]

/-- Sums are those of the ring. -/
@[simp] theorem toZMod_add (a b : Residue m) : (a + b).toZMod = a.toZMod + b.toZMod := by
  have hsum : (a + b).val = (a.val + b.val) % m.value := by
    apply Modulus.subtractOnce_eq_mod
    have := a.val_lt
    have := b.val_lt
    omega
  rw [toZMod, hsum, ZMod.natCast_mod, Nat.cast_add]
  rfl

/-- Opposites are those of the ring. -/
@[simp] theorem toZMod_neg (a : Residue m) : (-a).toZMod = -a.toZMod := by
  have ha := a.val_lt
  have hsum : ((-a).val + a.val : Nat) % m.value = 0 := by
    change ((if a.val = 0 then 0 else m.value - a.val) + a.val) % m.value = 0
    split
    · next h => rw [h, Nat.add_zero, Nat.zero_mod]
    · rw [Nat.sub_add_cancel (Nat.le_of_lt ha), Nat.mod_self]
  rw [eq_neg_iff_add_eq_zero, toZMod, toZMod, ← Nat.cast_add, ← ZMod.natCast_mod, hsum,
    Nat.cast_zero]

/-- Differences are those of the ring. -/
@[simp] theorem toZMod_sub (a b : Residue m) : (a - b).toZMod = a.toZMod - b.toZMod := by
  have ha := a.val_lt
  have hb := b.val_lt
  have hsum : ((a - b).val + b.val : Nat) % m.value = a.val := by
    change ((if b.val ≤ a.val then a.val - b.val else a.val + m.value - b.val) + b.val) %
      m.value = a.val
    split
    · next h => rw [Nat.sub_add_cancel h, Nat.mod_eq_of_lt ha]
    · rw [Nat.sub_add_cancel (by omega), Nat.add_mod_right, Nat.mod_eq_of_lt ha]
  have hcast : (a - b).toZMod + b.toZMod = a.toZMod := by
    rw [toZMod, toZMod, toZMod, ← Nat.cast_add, ← ZMod.natCast_mod, hsum]
  rw [← hcast, add_sub_cancel_right]

/-- Products are those of the ring. -/
@[simp] theorem toZMod_mul (a b : Residue m) : (a * b).toZMod = a.toZMod * b.toZMod := by
  change (ofNat (a.val * b.val)).toZMod = _
  rw [toZMod_ofNat, Nat.cast_mul]
  rfl

/-- Squares are those of the ring. -/
@[simp] theorem toZMod_sqr (a : Residue m) : a.sqr.toZMod = a.toZMod ^ 2 := by
  rw [sqr, toZMod_ofNat, Nat.cast_mul, pow_two]
  rfl

/-- Small products are those of the ring. -/
@[simp] theorem toZMod_mulSmall (a : Residue m) (n : Nat) :
    (a.mulSmall n).toZMod = a.toZMod * n := by
  rw [mulSmall, toZMod_ofNat, Nat.cast_mul]
  rfl

/-- The product of a residue with its inverse is one. -/
theorem mul_of_inverse? {a b : Residue m} (h : a.inverse? = some b) :
    a.toZMod * b.toZMod = 1 := by
  have hfactor := Number.dvd_cofactor a.val m.value
  unfold inverse? at h
  dsimp only at h
  split at h
  · next hone =>
    cases h
    have hm : (m.value : Int) ≠ 0 := Int.ofNat_ne_zero.mpr (Nat.ne_of_gt m.value_pos)
    rw [hone, ← ZMod.intCast_zmod_eq_zero_iff_dvd] at hfactor
    generalize (Number.cofactor a.val m.value).2 = x at hfactor ⊢
    have hcast : (((x % m.value).toNat : Nat) : ZMod m.value) = x := by
      rw [← Int.cast_natCast, Int.toNat_of_nonneg (Int.emod_nonneg x hm), ZMod.intCast_mod]
    change (a.val : ZMod m.value) * (((x % m.value).toNat : Nat) : ZMod m.value) = 1
    push_cast at hfactor
    rw [hcast, eq_comm, ← sub_eq_zero, hfactor]
  · contradiction

/-- A residue without an inverse shares a factor with the modulus. -/
theorem gcd_of_inverse?_eq_none {a : Residue m} (h : a.inverse? = none) :
    Nat.gcd a.val m.value ≠ 1 := by
  unfold inverse? at h
  dsimp only at h
  split at h
  · contradiction
  · next hone => rwa [Number.cofactor_fst] at hone

end Residue

end Secp
