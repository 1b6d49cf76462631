import Secp.LimbInt.Octets
import Secp.Text.Base58
import Secp.Text.Base64

/-!
# Integers in base 58 and base 64

The magnitude's minimal bytes, most significant first, in a textual code of bytes.
-/

namespace Secp.LimbInt

/-- The magnitude that a base-58 text denotes. -/
def ofBase58 (s : String) : Except Error LimbInt := (Base58.decode s).map ofBytesBE

/-- The magnitude in base 58. -/
def toBase58 (a : LimbInt) : String := Base58.encode a.toBytesBE

/-- The magnitude that a base-64 text denotes. -/
def ofBase64 (s : String) : Except Error LimbInt := (Base64.decode s).map ofBytesBE

/-- The magnitude in base 64. -/
def toBase64 (a : LimbInt) : String := Base64.encode a.toBytesBE

end Secp.LimbInt
