import Secp.Text.Digits

/-!
# Tokens of a JSON text

A JSON text is a sequence of punctuation marks, literal words, numbers
and strings, with blanks between them. A number is kept as it is written. A string is kept as the
text it denotes: a character above the basic plane may be written as two escaped halves, and a
string with a half that has no partner denotes none.
-/

namespace Secp.Text.Json

/-- The smallest piece of a JSON text. -/
inductive Token where
  | openArray
  | closeArray
  | openObject
  | closeObject
  | comma
  | colon
  | null
  | bool (value : Bool)
  | number (lexeme : String)
  | string (text : Option String)
  deriving DecidableEq, Repr

/-- Blanks between tokens. -/
def isBlank (c : Char) : Bool := c = ' ' || c = '\t' || c = '\n' || c = '\r'

/-- A decimal digit. -/
def isFigure (c : Char) : Bool := '0' ≤ c && c ≤ '9'

/-- Digits from the front, of which there must be one. -/
def readFigures (cs : List Char) : Option (List Char × List Char) :=
  if cs.takeWhile isFigure = [] then none
  else some (cs.takeWhile isFigure, cs.dropWhile isFigure)

/-- The whole part of a number, which has no leading zero. -/
def readWhole : List Char → Option (List Char × List Char)
  | '0' :: cs => some (['0'], cs)
  | cs => readFigures cs

/-- The fraction of a number, if it has one. -/
def readFraction : List Char → Option (List Char × List Char)
  | '.' :: cs => (readFigures cs).map fun (ds, rest) ↦ ('.' :: ds, rest)
  | cs => some ([], cs)

/-- A sign from the front, if there is one. -/
def readSign : List Char → List Char × List Char
  | '+' :: cs => (['+'], cs)
  | '-' :: cs => (['-'], cs)
  | cs => ([], cs)

/-- The exponent of a number, if it has one. -/
def readExponent : List Char → Option (List Char × List Char)
  | [] => some ([], [])
  | c :: cs =>
    if c = 'e' ∨ c = 'E' then
      let (sign, rest) := readSign cs
      (readFigures rest).map fun (ds, rest) ↦ (c :: sign ++ ds, rest)
    else some ([], c :: cs)

/-- A number from the front. -/
def readNumber (cs : List Char) : Option (Token × List Char) := do
  let (sign, rest) := if cs.head? = some '-' then (['-'], cs.drop 1) else ([], cs)
  let (whole, rest) ← readWhole rest
  let (fraction, rest) ← readFraction rest
  let (exponent, rest) ← readExponent rest
  some (.number (String.ofList (sign ++ whole ++ fraction ++ exponent)), rest)

/-- A unit of a string: a character, or an escaped unit of sixteen bits. -/
inductive StringUnit where
  | char (c : Char)
  | unit (value : Nat)
  deriving DecidableEq, Repr

/-- The character of an escape by one letter. -/
def escaped : Char → Option Char
  | '\"' => some '\"'
  | '\\' => some '\\'
  | '/' => some '/'
  | 'b' => some '\x08'
  | 'f' => some '\x0c'
  | 'n' => some '\n'
  | 'r' => some '\r'
  | 't' => some '\t'
  | _ => none

/-- The number that four hexadecimal digits denote. -/
def hexUnit (a b c d : Char) : Option Nat :=
  ([a, b, c, d].mapM (digitValue 16)).map fun ds ↦ ds.foldl (fun n d ↦ 16 * n + d) 0

/-- The units of a string behind its opening quote. -/
def readUnits : List Char → Option (List StringUnit × List Char)
  | [] => none
  | '\"' :: cs => some ([], cs)
  | '\\' :: 'u' :: a :: b :: c :: d :: cs => do
    let value ← hexUnit a b c d
    let (units, rest) ← readUnits cs
    some (.unit value :: units, rest)
  | '\\' :: e :: cs => do
    let c ← escaped e
    let (units, rest) ← readUnits cs
    some (.char c :: units, rest)
  | c :: cs =>
    if c.toNat < 0x20 ∨ c = '\\' then none
    else (readUnits cs).map fun (units, rest) ↦ (.char c :: units, rest)

/-- The text that units denote; a half of a character must stand before the other half. -/
def joinUnits : List StringUnit → Option (List Char)
  | [] => some []
  | .char c :: units => (joinUnits units).map (c :: ·)
  | .unit a :: .unit b :: units =>
    if 0xD800 ≤ a ∧ a < 0xDC00 then
      if 0xDC00 ≤ b ∧ b < 0xE000 then
        (joinUnits units).map
          (Char.ofNat (0x10000 + (a - 0xD800) * 0x400 + (b - 0xDC00)) :: ·)
      else none
    else if 0xDC00 ≤ a ∧ a < 0xE000 then none
    else (joinUnits (.unit b :: units)).map (Char.ofNat a :: ·)
  | .unit a :: units =>
    if 0xD800 ≤ a ∧ a < 0xE000 then none else (joinUnits units).map (Char.ofNat a :: ·)

/-- The token at the front, which is not a blank. -/
def readToken : List Char → Option (Token × List Char)
  | '[' :: cs => some (.openArray, cs)
  | ']' :: cs => some (.closeArray, cs)
  | '\x7b' :: cs => some (.openObject, cs)
  | '\x7d' :: cs => some (.closeObject, cs)
  | ',' :: cs => some (.comma, cs)
  | ':' :: cs => some (.colon, cs)
  | 'n' :: 'u' :: 'l' :: 'l' :: cs => some (.null, cs)
  | 't' :: 'r' :: 'u' :: 'e' :: cs => some (.bool true, cs)
  | 'f' :: 'a' :: 'l' :: 's' :: 'e' :: cs => some (.bool false, cs)
  | '\"' :: cs =>
    (readUnits cs).map fun (units, rest) ↦
      (.string ((joinUnits units).map String.ofList), rest)
  | cs => readNumber cs

/-- The tokens of a text. The count bounds them; one for each character is enough. -/
def tokensFrom : Nat → List Char → Option (List Token)
  | 0, cs => if cs.all isBlank then some [] else none
  | count + 1, cs =>
    match cs.dropWhile isBlank with
    | [] => some []
    | cs => do
      let (token, rest) ← readToken cs
      let tokens ← tokensFrom count rest
      some (token :: tokens)

/-- The tokens of a text. -/
def tokens (s : String) : Option (List Token) := tokensFrom s.length s.toList

end Secp.Text.Json
