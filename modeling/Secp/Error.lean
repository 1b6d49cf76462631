import Secp.Text.Quoted

/-!
# Reasons for a refusal

Every operation that can refuse its input names the reason by a value of `Error`. The reasons
about the shape of an input, about ranges and about signature encodings have types of their
own. `Error.message` words those that have a text.
-/

namespace Secp

/-- What is wrong with the shape of a text or of a byte string. -/
inductive EncodingFault where
  | emptyNumber
  | shortChecksum (length : Nat)
  | base64Length (length : Nat)
  | hybridParity
  | pointForm (lead : UInt8) (length : Nat)
  | emptyPoint
  | compactLength (length : Nat)
  | emptyChecksig
  | keyLength (length : Nat)
  | compressionFlag
  | walletLength (length : Nat)
  | noRecoveryId
  | shareSeparator (text : String)
  | shareThreshold (line : String)
  | badThreshold (line : String)
  | mixedThresholds
  | noShares
  deriving DecidableEq, Repr

/-- Which range a number misses. -/
inductive RangeFault where
  | width (bytes limit : Nat)
  | privateKey
  | nonce
  | degenerateNonce
  | signaturePart (name : String)
  | noInverse
  | negativeKey
  deriving DecidableEq, Repr

/-- Where a strict signature encoding goes wrong. -/
inductive DerFault where
  | endOfInput
  | sequenceTag
  | sequenceLength
  | trailingBytes
  | longLength
  | integerTag
  | emptyInteger
  | integerOverrun
  | negativeInteger
  | paddedInteger
  deriving DecidableEq, Repr

/-- Why an operation refuses its input. -/
inductive Error where
  | invalidCharacter (char : Char) (radix : Nat)
  | invalidRadix (radix : Nat)
  | invalidEncoding (fault : EncodingFault)
  | unsafeInteger (value : Int)
  | precisionLoss
  | outOfRange (fault : RangeFault)
  | invalidPoint
  | pointAtInfinity
  | nonMinimal
  | scriptOverflow (length limit : Nat)
  | invalidRecoveryId (id : UInt8)
  | recoveryIdNotFound
  | malformedDer (fault : DerFault)
  | reseedRequired (requests : Nat)
  | insufficientEntropy (length minimum : Nat)
  | invalidChecksum
  | invalidThreshold (threshold total : Nat)
  | insufficientShares (count threshold : Nat)
  | duplicateShare
  | divisionByZero
  | radixOutOfRange
  | modulusTooSmall
  | mixedModuli
  | randomnessExhausted
  | noCompressedForm
  deriving DecidableEq, Repr

/-- The wording of a shape fault. -/
def EncodingFault.message : EncodingFault → String
  | emptyNumber => "empty number string"
  | shortChecksum n => s!"base58check payload of {n} bytes is shorter than its checksum"
  | base64Length n => s!"invalid base64 length {n}"
  | hybridParity => "hybrid prefix does not match y parity"
  | pointForm lead n =>
    "unrecognized point encoding: prefix 0x" ++ Text.hexByte lead ++ s!", {n} bytes"
  | emptyPoint => "empty point encoding"
  | compactLength n => s!"compact signature must be 64 or 65 bytes, got {n}"
  | emptyChecksig => "empty checksig signature"
  | keyLength n => s!"private key must be 32 bytes, got {n}"
  | compressionFlag => "WIF compression flag must be 0x01"
  | walletLength n => s!"WIF payload must be 33 or 34 bytes, got {n}"
  | noRecoveryId => "compact signature has no recovery id"
  | shareSeparator text => "share point " ++ Text.quoteString text ++ " has no separator"
  | shareThreshold line => "share " ++ Text.quoteString line ++ " has no threshold"
  | badThreshold line => "bad threshold in share " ++ Text.quoteString line
  | mixedThresholds => "shares disagree on threshold"
  | noShares => "no shares given"

/-- The wording of a range fault. -/
def RangeFault.message : RangeFault → String
  | width n limit => s!"{n} bytes do not fit in {limit}"
  | privateKey => "private key not in [1, n-1]"
  | nonce => "nonce not in [1, n-1]"
  | degenerateNonce => "nonce yields a degenerate signature"
  | signaturePart name => s!"signature {name} not in [1, n-1]"
  | noInverse => "signature r has no inverse"
  | negativeKey => "private key must be non-negative"

/-- The wording of a fault in a strict signature encoding. -/
def DerFault.message : DerFault → String
  | endOfInput => "unexpected end of input"
  | sequenceTag => "expected sequence tag"
  | sequenceLength => "sequence length mismatch"
  | trailingBytes => "trailing bytes"
  | longLength => "long-form length"
  | integerTag => "expected integer tag"
  | emptyInteger => "empty integer"
  | integerOverrun => "integer runs past end"
  | negativeInteger => "negative integer"
  | paddedInteger => "integer not minimally encoded"

/-- The wording of a refusal. There is none for a stream of random bytes that ends too early, and
none for infinity, which has no compressed form. -/
def Error.message : Error → Option String
  | invalidCharacter c radix =>
    some ("invalid character " ++ Text.quoteChar c ++ s!" for radix {radix}")
  | invalidRadix radix => some s!"invalid radix {radix}: expected 2..=36"
  | invalidEncoding fault => some ("invalid encoding: " ++ fault.message)
  | unsafeInteger n => some s!"number {n} exceeds the 53-bit safe integer range"
  | precisionLoss => some "value does not fit in 53 bits without precision loss"
  | outOfRange fault => some ("value out of range: " ++ fault.message)
  | invalidPoint => some "point is not on the curve"
  | pointAtInfinity => some "point at infinity"
  | nonMinimal => some "script number is not minimally encoded"
  | scriptOverflow n limit => some s!"script number of {n} bytes exceeds maximum of {limit}"
  | invalidRecoveryId id => some s!"invalid recovery id {id.toNat}: expected 0..=3"
  | recoveryIdNotFound => some "no recovery id reproduces the public key"
  | malformedDer fault => some ("malformed DER signature: " ++ fault.message)
  | reseedRequired n => some s!"DRBG reseed required after {n} requests"
  | insufficientEntropy n least =>
    some s!"insufficient entropy: got {n} bytes, need at least {least}"
  | invalidChecksum => some "invalid checksum"
  | invalidThreshold threshold total =>
    some s!"invalid threshold {threshold} for {total} shares"
  | insufficientShares n threshold =>
    some s!"insufficient shares: got {n}, threshold is {threshold}"
  | duplicateShare => some "duplicate share x-coordinate"
  | divisionByZero => some "division by zero"
  | radixOutOfRange => some "radix must be in 2..=36"
  | modulusTooSmall => some "modulus must be at least 2"
  | mixedModuli => some "reduced values from different contexts"
  | randomnessExhausted => none
  | noCompressedForm => none

end Secp
