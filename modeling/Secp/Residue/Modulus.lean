import Secp.Error
import Secp.Number.Bits

/-!
# Moduli and their reductions

A modulus is a number of at least two with a way to reduce by it. Barrett's way works for every
modulus: with `k` its bit length, a number of up to `2 k` bits is divided by multiplying its
leading bits with the reciprocal `4 ^ k / m`, which gives at most the true quotient, and the
rest is subtracted off. Folding works for the sparse prime `2 ^ 256 - 2 ^ 32 - 977`, where the
bits above 256 are multiplied by `2 ^ 32 + 977` and added to those below.

`Modulus.reduce_lt` says that both end below the modulus.
-/

namespace Secp

-- Powers of numbers are core's, whichever others are in scope.
attribute [local instance(2000)] instPowNat

/-- `2 ^ 256` minus the sparse prime. -/
def foldConstant : Nat := 2 ^ (32 : Nat) + 977

/-- The sparse prime. -/
def sparsePrime : Nat := 2 ^ (256 : Nat) - foldConstant

/-- A way to reduce modulo `m`. -/
inductive Reduction (m : Nat) where
  /-- Barrett's way, with the bit length of the modulus and the reciprocal. -/
  | barrett (bits reciprocal : Nat) (bits_eq : bits = Number.bitLength m)
    (reciprocal_eq : reciprocal = 4 ^ bits / m)
  /-- Folding, for the sparse prime alone. -/
  | folding (sparse : m = sparsePrime)
  deriving DecidableEq

/-- A number of at least two with a way to reduce by it. -/
structure Modulus where
  value : Nat
  two_le : 2 ≤ value
  reduction : Reduction value
  deriving DecidableEq

namespace Modulus

/-- A modulus reduced by in Barrett's way. -/
def barrett (m : Nat) (two_le : 2 ≤ m) : Modulus :=
  ⟨m, two_le, .barrett (Number.bitLength m) (4 ^ Number.bitLength m / m) rfl rfl⟩

/-- A modulus for an integer; one below two is refused. -/
def ofInt (m : Int) : Except Error Modulus :=
  if h : 2 ≤ m.toNat then .ok (barrett m.toNat h) else .error .modulusTooSmall

/-- The sparse prime, reduced by in its own way. -/
def sparse : Modulus := ⟨sparsePrime, by decide, .folding rfl⟩

/-- A modulus is positive. -/
theorem value_pos (m : Modulus) : 0 < m.value := Nat.lt_of_lt_of_le (by decide) m.two_le

/-- The remainder of an integer is below the modulus. -/
theorem toNat_emod_lt (m : Modulus) (x : Int) : (x % m.value).toNat < m.value := by
  have hm := m.value_pos
  have := Int.emod_lt_of_pos x (Int.ofNat_lt.mpr hm)
  have := Int.emod_nonneg x (Int.ofNat_ne_zero.mpr (Nat.ne_of_gt hm))
  omega

/-- Fold the bits above 256 down until there are none. -/
def fold (x : Nat) : Nat :=
  if _h : x < 2 ^ (256 : Nat) then x
  else fold (x % 2 ^ (256 : Nat) + x / 2 ^ (256 : Nat) * foldConstant)
termination_by x
decreasing_by
  have : 1 ≤ x / 2 ^ (256 : Nat) := (Nat.le_div_iff_mul_le (by decide)).mpr (by omega)
  have := Nat.div_add_mod x (2 ^ (256 : Nat))
  unfold foldConstant
  omega

/-- Subtract a modulus once if that is possible. -/
def subtractOnce (m x : Nat) : Nat := if m ≤ x then x - m else x

/-- Barrett's quotient, from the leading bits and the reciprocal. -/
def quotient (bits reciprocal x : Nat) : Nat :=
  x / 2 ^ (bits - 1) * reciprocal / 2 ^ (bits + 1)

/-- Subtract a modulus as often as possible. -/
def subtractAll (m x : Nat) : Nat :=
  if _h : 0 < m ∧ m ≤ x then subtractAll m (x - m) else x
termination_by x
decreasing_by omega

/-- Reduce a number. -/
def reduceNat (m : Modulus) (x : Nat) : Nat :=
  match m.reduction with
  | .folding _ => subtractOnce m.value (fold x)
  | .barrett bits reciprocal _ _ =>
    if 2 * bits < Number.bitLength x then x % m.value
    else subtractAll m.value (x - quotient bits reciprocal x * m.value)

/-- Reduce an integer; a negative one by division. -/
def reduceInt (m : Modulus) (x : Int) : Nat :=
  if x < 0 then (x % m.value).toNat else m.reduceNat x.toNat

/-- Folding ends below `2 ^ 256`. -/
theorem fold_lt (x : Nat) : fold x < 2 ^ (256 : Nat) := by
  fun_induction fold x with
  | case1 x h => exact h
  | case2 x h ih => exact ih

/-- Repeated subtraction ends below the modulus. -/
theorem subtractAll_lt {m : Nat} (hm : 0 < m) (x : Nat) : subtractAll m x < m := by
  fun_induction subtractAll m x with
  | case1 x h ih => exact ih
  | case2 x h => omega

/-- A reduced number is below the modulus. -/
theorem reduceNat_lt (m : Modulus) (x : Nat) : m.reduceNat x < m.value := by
  have hm := m.value_pos
  unfold reduceNat
  split
  · next h _ =>
    have hx := fold_lt x
    rw [h] at hm ⊢
    unfold subtractOnce
    have : 2 ^ (256 : Nat) < 2 * sparsePrime := by decide
    split <;> omega
  · split
    · exact Nat.mod_lt _ hm
    · exact subtractAll_lt hm _

/-- A reduced integer is below the modulus. -/
theorem reduceInt_lt (m : Modulus) (x : Int) : m.reduceInt x < m.value := by
  unfold reduceInt
  split
  · exact toNat_emod_lt m x
  · exact reduceNat_lt m _

end Modulus

end Secp
