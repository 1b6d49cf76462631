/-!
# Rounded quotients

The quotient of two integers rounded to the nearest integer, an exact half upwards. It is
rebuilt from the truncated quotient: first the floor and its remainder in `[0, |d|)`, then one
more if twice the remainder reaches `|d|`.
-/

namespace Secp.Number

/-- `n / d` rounded to the nearest integer, exact halves upwards; `d` is not zero. -/
def divRound (n d : Int) : Int :=
  let q := n.tdiv d
  let r := n.tmod d
  if r = 0 then q
  else
    let opposite := decide (n < 0) != decide (d < 0)
    let floor := if opposite then q - 1 else q
    let rest := if opposite then d.natAbs - r.natAbs else r.natAbs
    if 2 * rest < d.natAbs then floor else floor + 1

end Secp.Number
