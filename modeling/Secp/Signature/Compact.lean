import Secp.Signature.Der

/-!
# Signatures in fixed width, and in scripts

In compact form the two parts of a signature take 32 bytes each, and a recovery id, if there is
one, takes a byte behind them. In a script the distinguished encoding is followed by a byte that
says what the signature covers.
-/

namespace Secp

namespace Signature

/-- Both parts in 32 bytes each, and the recovery id. -/
def toCompact (sig : Signature) : Bytes :=
  Bytes.bigEndian 32 sig.r.val ++ Bytes.bigEndian 32 sig.s.val ++
    (match sig.recoveryId with
    | some id => [UInt8.ofNat id.val]
    | none => [])

/-- Read a signature in compact form. -/
def ofCompact (b : Bytes) : Except Error Signature :=
  if b.length ≠ 64 ∧ b.length ≠ 65 then .error (.invalidEncoding (.compactLength b.length))
  else do
    let sig ← ofInts (Bytes.toNat (b.take 32)) (Bytes.toNat ((b.drop 32).take 32))
    match b[64]? with
    | some id => sig.withRecoveryId id
    | none => .ok sig

end Signature

/-- A signature with what it covers. -/
structure ScopedSignature where
  signature : Signature
  scope : UInt8
  deriving DecidableEq

namespace ScopedSignature

/-- The distinguished encoding and the scope. -/
def toScript (t : ScopedSignature) : Bytes := t.signature.toDer ++ [t.scope]

/-- Read a signature from a script. -/
def ofScript (b : Bytes) : Except Error ScopedSignature :=
  match b.getLast? with
  | none => .error (.invalidEncoding .emptyChecksig)
  | some scope => (Signature.ofDer b.dropLast).map (⟨·, scope⟩)

end ScopedSignature

end Secp
