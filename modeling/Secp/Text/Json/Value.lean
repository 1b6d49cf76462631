import Secp.Text.Json.Token

/-!
# Values of a JSON text

A value is a literal word, a number, a string, an array of values or an object of named values.
The tokens of a text are read one after another by a machine that keeps the arrays and objects
begun but not ended on a stack, so that values may be nested to any depth.
-/

namespace Secp.Text

/-- A value of a JSON text. The fields of an object keep their order, and names may repeat. -/
inductive Json where
  | null
  | bool (value : Bool)
  | number (lexeme : String)
  | string (text : Option String)
  | array (items : List Json)
  | object (fields : List (Option String × Json))

namespace Json

/-- An array or object that has begun. -/
inductive Frame where
  | array (items : List Json)
  | object (fields : List (Option String × Json))
  | field (fields : List (Option String × Json)) (name : Option String)

/-- What the machine waits for. -/
inductive Mode where
  /-- A value. -/
  | value
  /-- A value, or the end of an empty array. -/
  | item
  /-- The name of a field. -/
  | name
  /-- The name of a field, or the end of an empty object. -/
  | field
  /-- The colon behind a name. -/
  | colon (name : Option String)
  /-- What goes on after a value. -/
  | after (value : Json)

/-- Start a value: a scalar is complete at once. -/
def begin (stack : List Frame) : Token → Option (Mode × List Frame)
  | .null => some (.after .null, stack)
  | .bool b => some (.after (.bool b), stack)
  | .number lexeme => some (.after (.number lexeme), stack)
  | .string text => some (.after (.string text), stack)
  | .openArray => some (.item, .array [] :: stack)
  | .openObject => some (.field, .object [] :: stack)
  | _ => none

/-- Take one token. -/
def step : Mode × List Frame → Token → Option (Mode × List Frame)
  | (.item, .array items :: stack), .closeArray => some (.after (.array items), stack)
  | (.item, stack), token => begin stack token
  | (.value, stack), token => begin stack token
  | (.field, .object fields :: stack), .closeObject => some (.after (.object fields), stack)
  | (.field, stack), .string text => some (.colon text, stack)
  | (.name, stack), .string text => some (.colon text, stack)
  | (.colon name, .object fields :: stack), .colon => some (.value, .field fields name :: stack)
  | (.after v, .array items :: stack), .comma => some (.value, .array (items ++ [v]) :: stack)
  | (.after v, .array items :: stack), .closeArray =>
    some (.after (.array (items ++ [v])), stack)
  | (.after v, .field fields name :: stack), .comma =>
    some (.name, .object (fields ++ [(name, v)]) :: stack)
  | (.after v, .field fields name :: stack), .closeObject =>
    some (.after (.object (fields ++ [(name, v)])), stack)
  | _, _ => none

/-- The value that a text denotes. -/
def parse (s : String) : Option Json := do
  let tokens ← tokens s
  match ← tokens.foldlM step (.value, []) with
  | (.after v, []) => some v
  | _ => none

end Json

end Secp.Text
