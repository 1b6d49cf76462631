import Secp.LimbInt.Octets

/-!
# Signed bytes and script numbers

A signed byte string holds a magnitude, with the sign in the top bit of its most significant
byte; zero is the empty string. Script numbers are the signed byte strings with the least
significant byte first. Each integer has one minimal script number: a top byte that carries the
sign alone is there only where the magnitude fills the byte below it.
-/

namespace Secp.LimbInt

/-- Which byte of a signed byte string comes first. -/
inductive Endian where
  | big
  | little
  deriving DecidableEq, Repr

/-- Put a byte string into, or out of, big-endian order. -/
def Endian.order (e : Endian) (b : Bytes) : Bytes :=
  match e with
  | .big => b
  | .little => b.reverse

/-- Read a signed byte string; the empty one is zero. -/
def ofSigned (b : Bytes) (e : Endian) : LimbInt :=
  match e.order b with
  | [] => zero
  | top :: rest =>
    let magnitude := ofBytesBE ((top &&& 0x7f) :: rest)
    if top &&& 0x80 ≠ 0 then magnitude.neg else magnitude

/-- Write a signed byte string; zero is empty, and a byte is added where the sign needs it. -/
def toSigned (a : LimbInt) (e : Endian) : Bytes :=
  if a.isZero then []
  else
    let bytes := a.toBytesBE
    let bytes := if bytes.headD 0 &&& 0x80 ≠ 0 then 0 :: bytes else bytes
    e.order (if a.negative then bytes.modifyHead (· ||| 0x80) else bytes)

/-- Whether the top byte of a script number carries more than the sign, or carries it alone
because the byte below is full. -/
def minimalScript (b : Bytes) : Bool :=
  match b.reverse with
  | [] => true
  | [top] => top &&& 0x7f != 0
  | top :: next :: _ => top &&& 0x7f != 0 || next &&& 0x80 != 0

/-- Read a script number: first its length is checked, where there is a limit, and then, where
it is required, that it is minimal. -/
def ofScript (b : Bytes) (requireMinimal : Bool) (limit : Option Nat) : Except Error LimbInt :=
  if limit.any (· < b.length) then .error (.scriptOverflow b.length (limit.getD 0))
  else if requireMinimal && !minimalScript b then .error .nonMinimal
  else .ok (ofSigned b .little)

/-- Write the minimal script number. -/
def toScript (a : LimbInt) : Bytes := a.toSigned .little

end Secp.LimbInt
