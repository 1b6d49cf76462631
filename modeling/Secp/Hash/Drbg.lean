import Secp.Error
import Secp.Hash.Hmac

/-!
# A deterministic generator of bytes

The generator holds a key and a value, both of one digest. Seeding and every request end with an
update of both under the keyed digest. A seed serves a limited number of requests; after that
the generator refuses until it is seeded again.
-/

namespace Secp

-- Powers of numbers are core's, whichever others are in scope.
attribute [local instance(2000)] instPowNat

/-- Settings of a generator. -/
structure DrbgConfig where
  /-- Requests that one seed serves. -/
  reseedInterval : Nat := 2 ^ (32 : Nat)
  deriving DecidableEq, Repr

/-- A seeded generator. -/
structure Drbg where
  key : Bytes
  value : Bytes
  /-- One more than the requests since the last seed. -/
  counter : Nat
  config : DrbgConfig
  deriving DecidableEq, Repr

namespace Drbg

/-- The least length of a seed. -/
def minEntropy : Nat := 24

/-- The keyed digest of several parts in a row. -/
def mac (key : Bytes) (parts : List Bytes) : Bytes :=
  (parts.foldl Hmac.update (Hmac.start key)).finish

/-- One round of an update: a new key from the old pair, the round's number and the data, then a
new value under the new key. -/
def updateRound (d : Drbg) (number : UInt8) (parts : List Bytes) : Drbg :=
  let key := mac d.key (d.value :: [number] :: parts)
  { d with key := key, value := mac key [d.value] }

/-- Update the key and the value; the second round runs only when there is data. -/
def update (d : Drbg) (parts : List Bytes) : Drbg :=
  let d := d.updateRound 0 parts
  if parts.any (!·.isEmpty) then d.updateRound 1 parts else d

/-- Refuse a seed that is too short. -/
def checkEntropy (entropy : Bytes) : Except Error Unit :=
  if entropy.length < minEntropy then
    .error (.insufficientEntropy entropy.length minEntropy)
  else .ok ()

/-- A generator seeded with entropy, a nonce and a personalization, which may be empty. -/
def seed (entropy nonce personalization : Bytes) (config : DrbgConfig := {}) :
    Except Error Drbg :=
  (checkEntropy entropy).map fun _ ↦
    update ⟨List.replicate 32 0, List.replicate 32 1, 1, config⟩ [entropy, nonce, personalization]

/-- Mix in fresh entropy and start counting requests anew. -/
def reseed (d : Drbg) (entropy additional : Bytes) : Except Error Drbg :=
  (checkEntropy entropy).map fun _ ↦ { d.update [entropy, additional] with counter := 1 }

/-- Requests since the last seed. -/
def requests (d : Drbg) : Nat := d.counter - 1

/-- Output blocks: each is the keyed digest of the one before. The last value is returned too. -/
def blocks (key : Bytes) : Nat → Bytes → Bytes × Bytes
  | 0, value => ([], value)
  | count + 1, value =>
    let next := mac key [value]
    let (out, last) := blocks key count next
    (next ++ out, last)

/-- Generate `length` bytes; the additional input may be empty. A generator whose seed is used up
refuses. -/
def generate (d : Drbg) (length : Nat) (additional : Bytes) : Except Error (Bytes × Drbg) :=
  if d.config.reseedInterval < d.counter then .error (.reseedRequired d.requests)
  else
    let d := if additional.isEmpty then d else d.update [additional]
    let (out, last) := blocks d.key ((length + 31) / 32) d.value
    let d := update { d with value := last } [additional]
    .ok (out.take length, { d with counter := d.counter + 1 })

/-- A generator that served a request had one left; it is counted, and the settings stay. -/
theorem counter_of_generate {d d' : Drbg} {length : Nat} {additional out : Bytes}
    (h : d.generate length additional = .ok (out, d')) :
    d.counter ≤ d.config.reseedInterval ∧ d'.counter = d.counter + 1 ∧ d'.config = d.config := by
  have update_counter (d : Drbg) (parts : List Bytes) :
      (d.update parts).counter = d.counter ∧ (d.update parts).config = d.config := by
    unfold update
    dsimp only
    split <;> exact ⟨rfl, rfl⟩
  unfold generate at h
  split at h
  · contradiction
  · next hd =>
    cases h
    have h₁ := update_counter d [additional]
    refine ⟨by omega, ?_, ?_⟩ <;> dsimp only <;>
      simp only [update_counter] <;> split <;> simp [h₁]

/-- Draw byte strings of one length until one is accepted. The seed bounds the draws. -/
def drawUntil {α : Type} (length : Nat) (accept : Bytes → Option α) (d : Drbg) :
    Except Error α :=
  match _h : d.generate length [] with
  | .error fault => .error fault
  | .ok (out, next) =>
    match accept out with
    | some a => .ok a
    | none => drawUntil length accept next
termination_by d.config.reseedInterval + 1 - d.counter
decreasing_by
  obtain ⟨hle, hcounter, hconfig⟩ := counter_of_generate _h
  rw [hconfig]
  omega

/-- The form shown for inspection, which keeps the key and the value secret. -/
def describe (d : Drbg) : String :=
  s!"Drbg \x7b reseed_counter: {d.counter}, config: DrbgConfig \x7b " ++
    s!"reseed_interval: {d.config.reseedInterval} \x7d, .. \x7d"

end Drbg

end Secp
