import Secp.LimbInt.Basic
import Secp.Pieces
import Secp.Text.Digits

/-!
# Integers as text

An integer is written as an optional minus sign and digits of a radix from 2 to 36. Reading and
writing go by chunks: as many digits as fit one limb are turned into a word at a time, so that a
chunk costs one multiplication or division of the magnitude by a word. When reading, the first
chunk takes what is left over, and all others are full.
-/

namespace Secp.LimbInt

/-- Whether digits exist for a radix. -/
def validRadix (radix : Nat) : Bool := 2 ≤ radix && radix ≤ 36

/-- Extend a chunk while its power stays within one limb; 26 digits are the most there can be. -/
def chunkFrom (radix : Nat) : Nat → Nat × Nat → Nat × Nat
  | 0, chunk => chunk
  | count + 1, (size, power) =>
    if power * radix ≤ Limbs.base then chunkFrom radix count (size + 1, power * radix)
    else (size, power)

/-- Digits in a chunk, and the radix to that power. -/
def chunk (radix : Nat) : Nat × Nat := chunkFrom radix 26 (1, radix)

/-- Cut digits into chunks of which only the first may be shorter. -/
def leadingPieces {α : Type} (size : Nat) (xs : List α) : List (List α) :=
  let rest := xs.length % size
  if rest = 0 then pieces size xs else xs.take rest :: pieces size (xs.drop rest)

/-- The value of the digits of a chunk. -/
def chunkValue (radix : Nat) (ds : List Nat) : Nat := ds.foldl (fun n d ↦ n * radix + d) 0

/-- The magnitude of digits, chunk by chunk. -/
def ofDigits (radix : Nat) (ds : List Nat) : Limbs :=
  let (size, power) := chunk radix
  (leadingPieces size ds).foldl
    (fun limbs piece ↦
      (limbs.mulWord (UInt32.ofNat power)).addWord (UInt32.ofNat (chunkValue radix piece))) []

/-- The value of one digit, or the refusal that names it. -/
def readDigit (radix : Nat) (c : Char) : Except Error Nat :=
  match Text.digitValue radix c with
  | some d => .ok d
  | none => .error (.invalidCharacter c radix)

/-- Read an optional minus sign and one or more digits of either case. -/
def ofText (s : String) (radix : Nat) : Except Error LimbInt :=
  if validRadix radix then
    let (negative, chars) :=
      match s.toList with
      | '-' :: rest => (true, rest)
      | chars => (false, chars)
    if chars = [] then .error (.invalidEncoding .emptyNumber)
    else (chars.mapM (readDigit radix)).map fun ds ↦ ofParts negative (ofDigits radix ds)
  else .error (.invalidRadix radix)

/-- Read hexadecimal. -/
def ofHex (s : String) : Except Error LimbInt := ofText s 16

/-- The chunks of a magnitude, least significant first. The count bounds the divisions; one for
each bit is enough, since every chunk holds at least one. -/
def chunksFrom (power : UInt32) : Nat → Limbs → List Nat
  | 0, _ => []
  | count + 1, limbs =>
    if limbs = [] then []
    else
      let (q, r) := limbs.divWord power
      r.toNat :: chunksFrom power count q

/-- The digits of a magnitude: the top chunk without leading zeros, all others in full width. -/
def toDigits (radix : Nat) (limbs : Limbs) : List Char :=
  let (size, power) := chunk radix
  match (chunksFrom (UInt32.ofNat power) limbs.bitLength limbs).reverse with
  | [] => ['0']
  | top :: rest => Text.digits radix top ++ rest.flatMap (Text.fixedDigits radix size)

/-- The integer in a radix from 2 to 36. -/
def render (radix : Nat) (a : LimbInt) : String :=
  String.ofList ((if a.negative then ['-'] else []) ++ toDigits radix a.limbs)

/-- The integer in a radix, which is refused outside 2 to 36. -/
def toText (a : LimbInt) (radix : Nat) : Except Error String :=
  if validRadix radix then .ok (a.render radix) else .error .radixOutOfRange

/-- Lowercase hexadecimal. -/
def toHex (a : LimbInt) : String := a.render 16

/-- Decimal. -/
def toDecimal (a : LimbInt) : String := a.render 10

/-- The form shown for inspection. -/
def describe (a : LimbInt) : String := "BigInt(" ++ a.toHex ++ ")"

end Secp.LimbInt
