import Secp.Bytes
import Secp.Curve.Affine

/-!
# Points as byte strings

A finite point is a lead byte and its coordinates in 32 bytes each, most significant first: two or
three and the abscissa, by the parity of the ordinate; four and both coordinates; or six or seven
and both coordinates, again by parity. Infinity is a zero byte.
-/

namespace Secp.Curve.Affine

/-- A coordinate in 32 bytes. -/
def coordinateBytes (v : Fp) : Bytes := Bytes.bigEndian 32 v.val

/-- The encoding with the abscissa alone, or with both coordinates. -/
def encode (compressed : Bool) : Affine → Bytes
  | infinity => [0x00]
  | finite x y =>
    if compressed then (if y.isOdd then 0x03 else 0x02) :: coordinateBytes x
    else 0x04 :: (coordinateBytes x ++ coordinateBytes y)

/-- The encoding with both coordinates and the parity. -/
def encodeHybrid : Affine → Bytes
  | infinity => [0x00]
  | finite x y => (if y.isOdd then 0x07 else 0x06) :: (coordinateBytes x ++ coordinateBytes y)

/-- Read an encoded point. -/
def decode : Bytes → Except Error Affine
  | [] => .error (.invalidEncoding .emptyPoint)
  | lead :: rest =>
    if lead = 0x00 ∧ rest.length = 0 then .ok infinity
    else if (lead = 0x02 ∨ lead = 0x03) ∧ rest.length = 32 then
      ofAbscissa (Bytes.toNat rest) (lead = 0x03)
    else if (lead = 0x04 ∨ lead = 0x06 ∨ lead = 0x07) ∧ rest.length = 64 then
      let x := Bytes.toNat (rest.take 32)
      let y := Bytes.toNat (rest.drop 32)
      if lead ≠ 0x04 ∧ decide (y % 2 = 1) ≠ decide (lead = 0x07) then
        .error (.invalidEncoding .hybridParity)
      else ofCoordinates x y
    else .error (.invalidEncoding (.pointForm lead (rest.length + 1)))

end Secp.Curve.Affine
