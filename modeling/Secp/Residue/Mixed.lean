import Secp.Residue.SquareRoot

/-!
# Residues of moduli set up apart

Where moduli are set up while a computation runs, a residue carries its own. Two moduli set up
apart are different even if their values agree: each has a label. Sums, differences and products
of residues of different moduli are refused; comparing them is not.
-/

namespace Secp

/-- A modulus set up while a computation runs, told apart from others by its label. -/
structure Setting where
  label : Nat
  modulus : Modulus
  deriving DecidableEq

/-- A residue together with the modulus it belongs to. -/
structure MixedResidue where
  setting : Setting
  residue : Residue setting.modulus

namespace MixedResidue

/-- The residue of an integer. -/
def ofInt (setting : Setting) (x : Int) : MixedResidue := ⟨setting, Residue.ofInt x⟩

/-- The representative. -/
def val (a : MixedResidue) : Nat := a.residue.val

/-- Apply an operation of one modulus to two residues, if they belong to the same one. -/
def combine (op : {m : Modulus} → Residue m → Residue m → Residue m) (a b : MixedResidue) :
    Except Error MixedResidue :=
  if h : b.setting = a.setting then .ok ⟨a.setting, op a.residue (h ▸ b.residue)⟩
  else .error .mixedModuli

/-- The sum. -/
def add (a b : MixedResidue) : Except Error MixedResidue := combine Residue.add a b

/-- The difference. -/
def sub (a b : MixedResidue) : Except Error MixedResidue := combine Residue.sub a b

/-- The product. -/
def mul (a b : MixedResidue) : Except Error MixedResidue := combine Residue.mul a b

/-- Apply an operation to the residue alone. -/
def map (op : {m : Modulus} → Residue m → Residue m) (a : MixedResidue) : MixedResidue :=
  ⟨a.setting, op a.residue⟩

/-- Apply an operation that may have no result to the residue alone. -/
def map? (op : {m : Modulus} → Residue m → Option (Residue m)) (a : MixedResidue) :
    Option MixedResidue :=
  (op a.residue).map fun r ↦ ⟨a.setting, r⟩

/-- Whether values and moduli agree, whatever the labels. -/
def agrees (a b : MixedResidue) : Bool :=
  a.val == b.val && a.setting.modulus.value == b.setting.modulus.value

/-- The form shown for inspection. -/
def describe (a : MixedResidue) : String := "RedBigInt(" ++ Text.hex a.val ++ ")"

end MixedResidue

end Secp
