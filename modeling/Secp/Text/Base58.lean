import Secp.Bytes
import Secp.Error

/-!
# Base 58

A byte string is written as the base-58 digits of its number, behind one `1` for each leading
zero byte; the alphabet leaves out the figure `0` and the letters `I`, `O` and `l`. Both
directions keep the digits of the other base in a buffer of fixed size, most significant first,
and push one digit after another into it from the right.
-/

namespace Secp.Base58

/-- The digits in order of their values. -/
def alphabet : List Char :=
  "123456789ABCDEFGHJKLMNPQRSTUVWXYZabcdefghijkmnopqrstuvwxyz".toList

/-- Multiply a buffer of digits by `scale` and add `carry`: the new digits, and what does not fit
in front of them. -/
def pushDigit (scale base carry : Nat) : List Nat → List Nat × Nat
  | [] => ([], carry)
  | d :: ds =>
    let (rest, carry) := pushDigit scale base carry ds
    let t := d * scale + carry
    (t % base :: rest, t / base)

/-- Digits in one base of a number given by its digits in another, in a buffer of fixed size. -/
def convert (scale base size : Nat) (ds : List Nat) : List Nat :=
  ds.foldl (fun buffer d ↦ (pushDigit scale base d buffer).1) (List.replicate size 0)

/-- The digit of a value. -/
def digit (value : Nat) : Char := alphabet.getD value '1'

/-- The value of a digit, or the refusal that names the character. -/
def valueOf (c : Char) : Except Error Nat :=
  match alphabet.idxOf? c with
  | some value => .ok value
  | none => .error (.invalidCharacter c 58)

/-- Write a byte string. -/
def encode (data : Bytes) : String :=
  if data = [] then ""
  else
    let zeros := data.takeWhile (· = 0)
    let buffer := convert 256 58 (data.length * 138 / 100 + 1) (data.map UInt8.toNat)
    String.ofList (zeros.map (fun _ ↦ '1') ++ (buffer.dropWhile (· = 0)).map digit)

/-- Read a text; the first character outside the alphabet is refused. The buffer is sized by the
bytes of the text, of which a character outside the alphabet may have several. -/
def decode (s : String) : Except Error Bytes :=
  (s.toList.mapM valueOf).map fun values ↦
    let ones := s.toList.takeWhile (· = '1')
    let buffer := convert 58 256 (s.utf8ByteSize * 733 / 1000 + 1) values
    ones.map (fun _ ↦ 0) ++ (buffer.dropWhile (· = 0)).map UInt8.ofNat

end Secp.Base58
