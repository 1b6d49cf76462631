import Secp.Text.CharClass
import Secp.Text.Digits

/-!
# Quoted characters and strings

A character is quoted in single quotes and a string in double quotes. Each escapes its own
delimiter, the backslash and the four control characters that have a letter; any other
character that does not print on its own is written as `u` and its code point in braces.
-/

namespace Secp.Text

/-- The written form of a character inside quotes whose delimiter is `quote`. -/
def escape (quote c : Char) : String :=
  if c = '\x00' then "\\0"
  else if c = '\t' then "\\t"
  else if c = '\r' then "\\r"
  else if c = '\n' then "\\n"
  else if c = '\\' ∨ c = quote then String.ofList ['\\', c]
  else if printsAlone c then String.singleton c
  else "\\u\x7b" ++ hex c.toNat ++ "\x7d"

/-- A character in single quotes. -/
def quoteChar (c : Char) : String := "'" ++ escape '\'' c ++ "'"

/-- A string in double quotes. -/
def quoteString (s : String) : String :=
  "\"" ++ String.join (s.toList.map (escape '\"')) ++ "\""

end Secp.Text
