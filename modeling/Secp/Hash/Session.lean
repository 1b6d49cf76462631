import Secp.Hash.Drbg

/-!
# A generator in use

The calls on a generator change it in place, one statement after another, and what a call has
changed by the time it is refused stays changed: `answer` gives the generator as the call leaves it
in either case. The counter is a number of any size here; a seed for fewer than `2 ^ 64 - 1`
requests keeps it within 64 bits.
-/

namespace Secp.Drbg

/-- A computation that changes a generator in place and may be refused on the way. -/
abbrev Session : Type → Type := EStateM Error Drbg

/-- A keyed digest has 32 bytes. -/
@[simp] theorem length_mac (key : Bytes) (parts : List Bytes) : (mac key parts).length = 32 := rfl

namespace Session

/-- Refuse a seed that is too short. -/
def checkEntropy (entropy : Bytes) : Session Unit :=
  match Drbg.checkEntropy entropy with
  | .error fault => throw fault
  | .ok () => return ()

/-- Mix data into the key and the value. -/
def update (parts : List Bytes) : Session Unit := modify (Drbg.update · parts)

/-- Replace the value by its keyed digest and append it to the output, as long as that is too
short. -/
def extend (length : Nat) (out : Bytes) : Session Bytes := do
  if _h : out.length < length then
    let d ← get
    let value := mac d.key [d.value]
    set { d with value := value }
    extend length (out ++ value)
  else return out
termination_by length - out.length
decreasing_by
  rw [List.length_append, length_mac]
  omega

/-- Mix in fresh entropy and start counting requests anew. -/
def reseed (entropy : Bytes) (additional : Option Bytes) : Session Unit := do
  checkEntropy entropy
  update [entropy, additional.getD []]
  modify fun d ↦ { d with counter := 1 }

/-- Serve a request. The additional input, if there is any, is mixed in before and after. -/
def serve (length : Nat) (additional : Option Bytes) : Session Bytes := do
  if let some data := additional then update [data]
  let out ← extend length []
  update [additional.getD []]
  modify fun d ↦ { d with counter := d.counter + 1 }
  return out.take length

/-- Generate `length` bytes, unless the seed is used up. Additional input that is empty is left
out. -/
def generate (length : Nat) (additional : Option Bytes) : Session Bytes := do
  let d ← get
  if d.config.reseedInterval < d.counter then throw (.reseedRequired d.requests)
  serve length (additional.filter (!·.isEmpty))

end Session

/-- A call on a generator. Additional input may be left out. -/
inductive Call where
  | generate (length : Nat) (additional : Option Bytes)
  | reseed (entropy : Bytes) (additional : Option Bytes)
  deriving DecidableEq, Repr

/-- What a call does. Only `generate` gives bytes. -/
def Call.perform : Call → Session (Option Bytes)
  | .generate length additional => do
    let out ← Session.generate length additional
    return some out
  | .reseed entropy additional => do
    Session.reseed entropy additional
    return none

/-- What is answered to a call. -/
abbrev Answer := Except Error (Option Bytes)

/-- What a generator answers to a call, and the generator as the call leaves it. -/
def answer (d : Drbg) (call : Call) : Answer × Drbg :=
  match call.perform.run d with
  | .ok given next => (.ok given, next)
  | .error fault next => (.error fault, next)

end Secp.Drbg
