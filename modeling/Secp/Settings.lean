import Secp.Hash.Drbg
import Secp.Text.Json.Value

/-!
# Settings given as text

Settings with one field are given as a JSON text: an object, in which the field may be missing and
other fields are passed over, or an array of no value or one. A field named twice, a value of
another kind, and any other text are refused.
-/

namespace Secp

-- Powers of numbers are core's, whichever others are in scope.
attribute [local instance(2000)] instPowNat

/-- Settings of a signer. -/
structure SignOptions where
  /-- Replace the second part of a signature by its opposite where that is smaller. -/
  forceLowS : Bool := true
  deriving DecidableEq, Repr

namespace Settings

open Text (Json)

/-- The value of the one field, by its name in an object or by its place in an array. -/
def readField {α : Type} (name : String) (default : α) (read : Json → Option α) :
    Json → Option α
  | .object fields =>
    if fields.any (·.1.isNone) then none
    else
      match fields.filter (·.1 = some name) with
      | [] => some default
      | [field] => read field.2
      | _ => none
  | .array [] => some default
  | .array [value] => read value
  | _ => none

/-- A truth value. -/
def readBool : Json → Option Bool
  | .bool b => some b
  | _ => none

/-- A number of at most 64 bits, written with figures alone. -/
def readWord : Json → Option Nat
  | .number lexeme =>
    if lexeme.toList.all Text.Json.isFigure then
      let n := lexeme.toList.foldl (fun n c ↦ 10 * n + (c.toNat - 48)) 0
      if n < 2 ^ (64 : Nat) then some n else none
    else none
  | _ => none

end Settings

/-- Read the settings of a signer. -/
def SignOptions.parse (s : String) : Option SignOptions := do
  let json ← Text.Json.parse s
  let force ← Settings.readField "force_low_s" ({} : SignOptions).forceLowS Settings.readBool json
  some ⟨force⟩

/-- Read the settings of a generator. -/
def DrbgConfig.parse (s : String) : Option DrbgConfig := do
  let json ← Text.Json.parse s
  let interval ←
    Settings.readField "reseed_interval" ({} : DrbgConfig).reseedInterval Settings.readWord json
  some ⟨interval⟩

end Secp
