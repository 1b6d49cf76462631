import Secp.Residue.Basic

/-!
# Parameters of the curve

The curve is `y ^ 2 = x ^ 3 + 7` over the sparse prime field. Its points form a group whose order
is the prime `order`, with a fixed generator. The field has a cube root of one, `beta`, and
multiplying the abscissa of a point by it multiplies the point by `lambda`.
-/

namespace Secp

/-- An element of the field of the curve. -/
abbrev Fp := Residue Modulus.sparse

namespace Curve

/-- The number of points. -/
def order : Nat := 0xFFFFFFFFFFFFFFFFFFFFFFFFFFFFFFFEBAAEDCE6AF48A03BBFD25E8CD0364141

/-- Half the number of points, rounded down. -/
def halfOrder : Nat := order / 2

/-- The coefficient of `x` in the equation. -/
def linearCoefficient : Fp := Residue.zero

/-- The constant term of the equation. -/
def constantTerm : Fp := Residue.ofNat 7

/-- The abscissa of the generator. -/
def generatorX : Fp :=
  Residue.ofNat 0x79BE667EF9DCBBAC55A06295CE870B07029BFCDB2DCE28D959F2815B16F81798

/-- The ordinate of the generator. -/
def generatorY : Fp :=
  Residue.ofNat 0x483ADA7726A3C4655DA4FBFC0E1108A8FD17B448A68554199C47D08FFB10D4B8

/-- A cube root of one in the field. -/
def beta : Fp :=
  Residue.ofNat 0x7AE96A2B657C07106E64479EAC3434E99CF0497512F58995C1396C28719501EE

/-- The cube root of one modulo the order that belongs to `beta`. -/
def lambda : Nat := 0x5363AD4CC05C30E0A5261C028812645A122E22EA20816678DF02967C1B23BD72

end Curve

end Secp
