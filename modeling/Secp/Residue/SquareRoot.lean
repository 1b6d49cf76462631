import Secp.Residue.Power

/-!
# Square roots

Modulo a prime that leaves three when divided by four a root is a power. Otherwise the root is
found by Tonelli's and Shanks's way: with `p - 1 = 2 ^ s * q`, a non-residue found by counting up
gives an element of order `2 ^ s`, by whose powers a first guess is corrected until its error is
one. What is found is squared to see whether it is a root.
-/

namespace Secp.Residue

-- Powers of numbers are core's, whichever others are in scope.
attribute [local instance(2000)] instPowNat

variable {m : Modulus}

/-- The first number, counting up from `z`, whose power `half` is minus one. The count bounds the
search; as many numbers as the modulus has residues are enough. -/
def findNonResidue (half : Nat) : Nat → Nat → Option (Residue m)
  | 0, _ => none
  | count + 1, z =>
    let r : Residue m := ofNat z
    if r.pow half = -one then some r else findNonResidue half count (z + 1)

/-- How often `t` must be squared to give one, if fewer than `limit` times. -/
def orderExponent (limit : Nat) : Nat → Nat → Residue m → Option Nat
  | 0, _, _ => none
  | count + 1, i, t =>
    if t = one then some i
    else if i + 1 = limit then none
    else orderExponent limit count (i + 1) t.sqr

/-- Correct the guess `r` until its error `t` is one; `c` has order `2 ^ s`, and the exponent of
the error's order falls with every step. -/
def correctRoot (s : Nat) (c r t : Residue m) : Option (Residue m) :=
  if t = one then some r
  else
    match orderExponent s s 0 t with
    | none => none
    | some i =>
      if _h : i < s then
        let b := sqrTimes (s - i - 1) c
        correctRoot i b.sqr (r * b) (t * b.sqr)
      else none
termination_by s

/-- Tonelli's and Shanks's way. -/
def tonelliShanks (a : Residue m) : Option (Residue m) :=
  let half := (m.value - 1) / 2
  if a.pow half = one then
    let s := Number.trailingZeros (m.value - 1)
    let q := (m.value - 1) / 2 ^ s
    (findNonResidue half m.value 2).bind fun z ↦
      correctRoot s (z.pow q) (a.pow ((q + 1) / 2)) (a.pow q)
  else none

/-- A square root for a prime modulus, if there is one. -/
def sqrt? (a : Residue m) : Option (Residue m) :=
  if a.isZero then some a
  else
    let guess := if m.value % 4 = 3 then some (a.pow ((m.value + 1) / 4)) else tonelliShanks a
    guess.filter (·.sqr = a)

end Secp.Residue
