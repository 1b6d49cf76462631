import Secp.Number.Euclid
import Secp.Residue.Modulus

/-!
# Residues

A residue of a modulus is its representative below the modulus. Residues of two moduli have
different types, so that they cannot be mixed.
-/

namespace Secp

/-- A number below the modulus. -/
structure Residue (m : Modulus) where
  val : Nat
  val_lt : val < m.value
  deriving DecidableEq

namespace Residue

variable {m : Modulus}

/-- Residues are equal when their representatives are. -/
@[ext] theorem ext {a b : Residue m} (h : a.val = b.val) : a = b := by
  cases a
  cases b
  cases h
  rfl

/-- The residue of a number. -/
def ofNat (x : Nat) : Residue m := ⟨m.reduceNat x, m.reduceNat_lt x⟩

/-- The residue of an integer. -/
def ofInt (x : Int) : Residue m := ⟨m.reduceInt x, m.reduceInt_lt x⟩

/-- The residue of zero. -/
def zero : Residue m := ⟨0, m.value_pos⟩

/-- The residue of one. -/
def one : Residue m := ofNat 1

/-- Whether the representative is zero. -/
def isZero (a : Residue m) : Bool := a.val == 0

/-- Whether the representative is odd. -/
def isOdd (a : Residue m) : Bool := a.val % 2 == 1

/-- The sum, with the modulus taken off where it is reached. -/
def add (a b : Residue m) : Residue m :=
  ⟨Modulus.subtractOnce m.value (a.val + b.val), by
    have := a.val_lt
    have := b.val_lt
    unfold Modulus.subtractOnce
    split <;> omega⟩

/-- The difference, with the modulus added where it is negative. -/
def sub (a b : Residue m) : Residue m :=
  ⟨if b.val ≤ a.val then a.val - b.val else a.val + m.value - b.val, by
    have := a.val_lt
    have := b.val_lt
    split <;> omega⟩

/-- The opposite. -/
def neg (a : Residue m) : Residue m :=
  ⟨if a.val = 0 then 0 else m.value - a.val, by
    have := m.value_pos
    split <;> omega⟩

/-- The product. -/
def mul (a b : Residue m) : Residue m := ofNat (a.val * b.val)

/-- The square. -/
def sqr (a : Residue m) : Residue m := ofNat (a.val * a.val)

/-- The product with a small number. -/
def mulSmall (a : Residue m) (n : Nat) : Residue m := ofNat (a.val * n)

instance : Add (Residue m) where add := add
instance : Sub (Residue m) where sub := sub
instance : Neg (Residue m) where neg := neg
instance : Mul (Residue m) where mul := mul

/-- The inverse, if the representative shares no factor with the modulus. -/
def inverse? (a : Residue m) : Option (Residue m) :=
  let (g, x) := Number.cofactor a.val m.value
  if g = 1 then
    some ⟨(x % m.value).toNat, m.toNat_emod_lt x⟩
  else none

end Residue

end Secp
