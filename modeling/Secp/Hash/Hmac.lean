import Secp.Hash.Sha256

/-!
# Keyed digests

The digest of a message under a key is an outer digest of an inner one. Both begin with a block
made of the key; a key longer than a block is replaced by its digest, and a shorter one is
extended with zeros.
-/

namespace Secp

/-- A keyed digest under way: the inner digest takes in the message, and the outer one has taken
in its key block. -/
structure Hmac where
  inner : Sha256
  outer : Sha256
  deriving DecidableEq, Repr

namespace Hmac

/-- A key as one block. -/
def keyBlock (key : Bytes) : Bytes :=
  let short := if 64 < key.length then Sha256.digest key else key
  short ++ List.replicate (64 - short.length) 0

/-- A keyed digest that has taken in nothing. -/
def start (key : Bytes) : Hmac :=
  let block := keyBlock key
  ⟨Sha256.start.update (block.map (0x36 ^^^ ·)), Sha256.start.update (block.map (0x5c ^^^ ·))⟩

/-- Take in more of the message. -/
def update (h : Hmac) (data : Bytes) : Hmac := { h with inner := h.inner.update data }

/-- The keyed digest of what has been taken in. -/
def finish (h : Hmac) : Bytes := (h.outer.update h.inner.finish).finish

/-- The keyed digest of a byte string. -/
def digest (key data : Bytes) : Bytes := ((start key).update data).finish

end Hmac

end Secp
