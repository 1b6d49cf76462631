import Secp.Bytes

/-!
# SHA-256

Eight 32-bit words are compressed with one 64-byte block after another. `Sha256` is the state of
a digest under way: the words so far and the bytes, fewer than a block, that still wait.
`digest` is the one-step form.
-/

namespace Secp

namespace Sha256

/-- The eight chaining words. -/
structure Chain where
  a : UInt32
  b : UInt32
  c : UInt32
  d : UInt32
  e : UInt32
  f : UInt32
  g : UInt32
  h : UInt32
  deriving DecidableEq, Repr

/-- The chaining words before the first block. -/
def Chain.initial : Chain :=
  ⟨0x6a09e667, 0xbb67ae85, 0x3c6ef372, 0xa54ff53a, 0x510e527f, 0x9b05688c, 0x1f83d9ab, 0x5be0cd19⟩

/-- The word that each of the 64 rounds adds. -/
def roundConstants : List UInt32 :=
  [0x428a2f98, 0x71374491, 0xb5c0fbcf, 0xe9b5dba5, 0x3956c25b, 0x59f111f1, 0x923f82a4, 0xab1c5ed5,
    0xd807aa98, 0x12835b01, 0x243185be, 0x550c7dc3, 0x72be5d74, 0x80deb1fe, 0x9bdc06a7, 0xc19bf174,
    0xe49b69c1, 0xefbe4786, 0x0fc19dc6, 0x240ca1cc, 0x2de92c6f, 0x4a7484aa, 0x5cb0a9dc, 0x76f988da,
    0x983e5152, 0xa831c66d, 0xb00327c8, 0xbf597fc7, 0xc6e00bf3, 0xd5a79147, 0x06ca6351, 0x14292967,
    0x27b70a85, 0x2e1b2138, 0x4d2c6dfc, 0x53380d13, 0x650a7354, 0x766a0abb, 0x81c2c92e, 0x92722c85,
    0xa2bfe8a1, 0xa81a664b, 0xc24b8b70, 0xc76c51a3, 0xd192e819, 0xd6990624, 0xf40e3585, 0x106aa070,
    0x19a4c116, 0x1e376c08, 0x2748774c, 0x34b0bcb5, 0x391c0cb3, 0x4ed8aa4a, 0x5b9cca4f, 0x682e6ff3,
    0x748f82ee, 0x78a5636f, 0x84c87814, 0x8cc70208, 0x90befffa, 0xa4506ceb, 0xbef9a3f7, 0xc67178f2]

/-- Rotate a word right. -/
def rotate (x n : UInt32) : UInt32 := (x >>> n) ||| (x <<< (32 - n))

/-- The words of a block, four bytes each, first byte most significant. -/
def wordsOf : Bytes → List UInt32
  | b₀ :: b₁ :: b₂ :: b₃ :: rest =>
    ((b₀.toUInt32 <<< 24) ||| (b₁.toUInt32 <<< 16) ||| (b₂.toUInt32 <<< 8) ||| b₃.toUInt32) ::
      wordsOf rest
  | _ => []

/-- The bytes of a word, most significant first. -/
def bytesOf (w : UInt32) : Bytes :=
  [(w >>> 24).toUInt8, (w >>> 16).toUInt8, (w >>> 8).toUInt8, w.toUInt8]

/-- The next word of a message schedule whose words so far are listed latest first. -/
def nextWord (ws : List UInt32) : UInt32 :=
  let w₁₅ := ws.getD 14 0
  let w₂ := ws.getD 1 0
  let s₀ := rotate w₁₅ 7 ^^^ rotate w₁₅ 18 ^^^ (w₁₅ >>> 3)
  let s₁ := rotate w₂ 17 ^^^ rotate w₂ 19 ^^^ (w₂ >>> 10)
  ws.getD 15 0 + s₀ + ws.getD 6 0 + s₁

/-- Add words to a message schedule whose words are listed latest first. -/
def extend : Nat → List UInt32 → List UInt32
  | 0, ws => ws
  | count + 1, ws => extend count (nextWord ws :: ws)

/-- The message schedule of a block: its sixteen words and forty-eight more. -/
def schedule (block : Bytes) : List UInt32 := (extend 48 (wordsOf block).reverse).reverse

/-- One round, with its constant and its word of the schedule. -/
def round (s : Chain) (kw : UInt32 × UInt32) : Chain :=
  let s₁ := rotate s.e 6 ^^^ rotate s.e 11 ^^^ rotate s.e 25
  let choice := (s.e &&& s.f) ^^^ (~~~s.e &&& s.g)
  let t₁ := s.h + s₁ + choice + kw.1 + kw.2
  let s₀ := rotate s.a 2 ^^^ rotate s.a 13 ^^^ rotate s.a 22
  let majority := (s.a &&& s.b) ^^^ (s.a &&& s.c) ^^^ (s.b &&& s.c)
  ⟨t₁ + (s₀ + majority), s.a, s.b, s.c, s.d + t₁, s.e, s.f, s.g⟩

/-- Compress one block into the chaining words. -/
def compress (s : Chain) (block : Bytes) : Chain :=
  let t := (roundConstants.zip (schedule block)).foldl round s
  ⟨s.a + t.a, s.b + t.b, s.c + t.c, s.d + t.d, s.e + t.e, s.f + t.f, s.g + t.g, s.h + t.h⟩

/-- Compress all whole blocks of the data; the rest is left. -/
def compressAll (s : Chain) (data : Bytes) : Chain × Bytes :=
  if _h : 64 ≤ data.length then compressAll (compress s (data.take 64)) (data.drop 64)
  else (s, data)
termination_by data.length
decreasing_by rw [List.length_drop]; omega

/-- The bytes of the chaining words. -/
def Chain.toBytes (s : Chain) : Bytes :=
  [s.a, s.b, s.c, s.d, s.e, s.f, s.g, s.h].flatMap bytesOf

end Sha256

/-- A digest under way. -/
structure Sha256 where
  chain : Sha256.Chain
  /-- Bytes that do not fill a block yet. -/
  waiting : Bytes
  /-- Bytes taken in so far. -/
  length : Nat
  deriving DecidableEq, Repr

namespace Sha256

/-- A digest that has taken in nothing. -/
def start : Sha256 := ⟨Chain.initial, [], 0⟩

/-- Take in more data. -/
def update (d : Sha256) (data : Bytes) : Sha256 :=
  let (chain, waiting) := compressAll d.chain (d.waiting ++ data)
  ⟨chain, waiting, d.length + data.length⟩

/-- Close the message with a one bit, zeros and its length in bits, and give the digest. The
closing bytes take one block, or two where the first has no room for the length. -/
def finish (d : Sha256) : Bytes :=
  let used := d.waiting.length
  let zeros := if used + 9 ≤ 64 then 64 - (used + 9) else 128 - (used + 9)
  let tail := d.waiting ++ [0x80] ++ List.replicate zeros 0 ++ Bytes.bigEndian 8 (8 * d.length)
  (compressAll d.chain tail).1.toBytes

/-- The digest of a byte string. -/
def digest (data : Bytes) : Bytes := (start.update data).finish

/-- The digest of the digest. -/
def doubleDigest (data : Bytes) : Bytes := digest (digest data)

end Sha256

end Secp
