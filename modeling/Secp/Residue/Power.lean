import Secp.Residue.Basic

/-!
# Powers by a sliding window

The exponent is read from its top bit. A zero bit squares. At a one bit a window of bits is taken
that ends in a one bit too: the result is squared once for each of its bits and multiplied by
the power that the window names, which is odd and stands in a table.
-/

namespace Secp.Residue

-- Powers of numbers are core's, whichever others are in scope.
attribute [local instance(2000)] instPowNat

variable {m : Modulus}

/-- The width of the window for an exponent of that many bits. -/
def windowWidth (bits : Nat) : Nat :=
  if bits ≤ 8 then 1 else if bits ≤ 64 then 3 else if bits ≤ 256 then 4 else 5

/-- The next odd powers, each the product of the one before with the square. -/
def oddPowersFrom (square : Residue m) : Nat → Residue m → List (Residue m)
  | 0, _ => []
  | count + 1, a => a :: oddPowersFrom square count (a * square)

/-- The first, third, fifth and further odd powers. -/
def oddPowers (a : Residue m) (count : Nat) : List (Residue m) := oddPowersFrom a.sqr count a

/-- Square again and again. -/
def sqrTimes : Nat → Residue m → Residue m
  | 0, a => a
  | count + 1, a => sqrTimes count a.sqr

/-- The bits of a number, most significant first. -/
def bitsOf (n : Nat) : List Bool := ((List.range (Number.bitLength n)).map n.testBit).reverse

/-- The bits of a list up to its last one bit. -/
def upToLastOne (bits : List Bool) : List Bool := (bits.reverse.dropWhile (· = false)).reverse

/-- The number that bits denote, most significant first. -/
def bitsValue (bits : List Bool) : Nat := bits.foldl (fun n b ↦ 2 * n + b.toNat) 0

/-- A list of bits has no more of them up to its last one bit. -/
theorem length_upToLastOne_le (bits : List Bool) : (upToLastOne bits).length ≤ bits.length := by
  unfold upToLastOne
  rw [List.length_reverse]
  exact Nat.le_trans (List.dropWhile_sublist _).length_le (by simp)

/-- Run through the bits of an exponent with the table of odd powers. -/
def powBits (table : List (Residue m)) (width : Nat) (acc : Residue m) : List Bool → Residue m
  | [] => acc
  | false :: rest => powBits table width acc.sqr rest
  | true :: rest =>
    let more := upToLastOne (rest.take (width - 1))
    let squared := sqrTimes (1 + more.length) acc
    powBits table width (squared * table.getD (bitsValue (true :: more) / 2) one)
      (rest.drop more.length)
termination_by bits => bits.length
decreasing_by
  · simp
  · simp only [List.length_drop, List.length_cons]
    omega

/-- A power. -/
def pow (a : Residue m) (exponent : Nat) : Residue m :=
  let bits := Number.bitLength exponent
  if bits = 0 then one
  else
    let width := windowWidth bits
    powBits (oddPowers a (2 ^ (width - 1))) width one (bitsOf exponent)

end Secp.Residue
