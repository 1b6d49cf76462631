/-!
# Euclid's algorithm, extended

`cofactor a b` divides with remainder until the second number is zero. It carries along the two
numbers by which `a` would have to be multiplied to give the current pair modulo the second
operand, and ends with the greatest common divisor and the factor that gives it.
-/

namespace Secp.Number

/-- The loop of `cofactor`: `x` and `y` are the factors of the current pair `a`, `b`. -/
def cofactorFrom (a b : Nat) (x y : Int) : Nat × Int :=
  if _h : b = 0 then (a, x) else cofactorFrom b (a % b) y (x - (a / b : Nat) * y)
termination_by b
decreasing_by exact Nat.mod_lt a (Nat.pos_of_ne_zero (by assumption))

/-- The greatest common divisor of `a` and `b`, and a factor of `a` that gives it modulo `b`. -/
def cofactor (a b : Nat) : Nat × Int := cofactorFrom a b 1 0

/-- The inverse of `a` modulo `m` in `[0, |m|)`, if `m` is not zero and shares no factor with
`a`. -/
def inverse? (a m : Int) : Option Int :=
  if m = 0 then none
  else
    let (g, x) := cofactor (a % m).toNat m.natAbs
    if g = 1 then some (x % m) else none

end Secp.Number
