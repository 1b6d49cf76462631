import Secp.Bytes
import Secp.Error

/-!
# Streams of random bytes

Computations that need randomness take it from the front of a byte string, 32 bytes a draw, and
pass on what is left. A string that is too short for a draw stops the computation.
-/

namespace Secp

/-- A computation that draws random bytes. -/
abbrev Draw (α : Type) : Type := Bytes → Except Error (α × Bytes)

namespace Draw

/-- Bytes of a draw. -/
def size : Nat := 32

/-- The next 32 bytes as a number. -/
def number : Draw Nat := fun stream ↦
  if stream.length < size then .error .randomnessExhausted
  else .ok (Bytes.toNat (stream.take size), stream.drop size)

/-- A draw takes bytes off the stream. -/
theorem length_of_number {stream rest : Bytes} {n : Nat} (h : number stream = .ok (n, rest)) :
    rest.length < stream.length := by
  unfold number at h
  split at h
  · contradiction
  · next hs =>
    cases h
    have : 0 < size := by decide
    rw [List.length_drop]
    omega

end Draw

end Secp
