import Secp.Curve.Parameters
import Secp.LimbInt.Armour
import Secp.Text.Quoted

/-!
# Points of a sharing polynomial

A share of a secret is a point of a polynomial over the field of the curve. It is written as its
two coordinates in base 58 with a full stop between them.
-/

namespace Secp

/-- A pair of integers, read modulo the prime. -/
structure SharePoint where
  x : Int
  y : Int
  deriving DecidableEq, Repr

namespace SharePoint

/-- The point with both coordinates reduced. -/
def reduced (x y : Int) : SharePoint := ⟨x % sparsePrime, y % sparsePrime⟩

/-- The coordinates in base 58. -/
def render (p : SharePoint) : String :=
  (LimbInt.ofInt p.x).toBase58 ++ "." ++ (LimbInt.ofInt p.y).toBase58

/-- Read the coordinates, which the first full stop divides. -/
def parse (s : String) : Except Error SharePoint :=
  match s.toList.dropWhile (· ≠ '.') with
  | [] => .error (.invalidEncoding (.shareSeparator s))
  | _ :: tail => do
    let x ← LimbInt.ofBase58 (String.ofList (s.toList.takeWhile (· ≠ '.')))
    let y ← LimbInt.ofBase58 (String.ofList tail)
    .ok (reduced x.toInt y.toInt)

/-- The form shown for inspection. -/
def describe (p : SharePoint) : String := "PointInFiniteField(" ++ p.render ++ ")"

end SharePoint

end Secp
