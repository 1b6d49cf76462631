import Secp.Bytes
import Secp.Curve.Affine
import Secp.Curve.Base
import Secp.Curve.Encoding
import Secp.Curve.FixedBase
import Secp.Curve.Jacobian
import Secp.Curve.JointSum
import Secp.Curve.Parameters
import Secp.Curve.Point
import Secp.Curve.Scalar
import Secp.Curve.Splitting
import Secp.Curve.Tables
import Secp.Ecdsa.Digest
import Secp.Ecdsa.Recover
import Secp.Ecdsa.Sign
import Secp.Ecdsa.Verify
import Secp.Error
import Secp.Hash.Drbg
import Secp.Hash.Hmac
import Secp.Hash.Session
import Secp.Hash.Sha256
import Secp.Key.Private
import Secp.Key.Public
import Secp.LimbInt.Armour
import Secp.LimbInt.Basic
import Secp.LimbInt.Bits
import Secp.LimbInt.Layout
import Secp.LimbInt.Octets
import Secp.LimbInt.Quotient
import Secp.LimbInt.Radix
import Secp.LimbInt.ScriptNumber
import Secp.Limbs.Basic
import Secp.Limbs.Product
import Secp.Limbs.Quotient
import Secp.Limbs.Shift
import Secp.Limbs.Sum
import Secp.Number.Bits
import Secp.Number.Euclid
import Secp.Number.NonAdjacent
import Secp.Number.Rounding
import Secp.Pieces
import Secp.Proofs.Bytes
import Secp.Proofs.Curve.Abscissa
import Secp.Proofs.Curve.Cofactor
import Secp.Proofs.Curve.Coordinates
import Secp.Proofs.Curve.CubeRoots
import Secp.Proofs.Curve.Encoding
import Secp.Proofs.Curve.Endomorphism
import Secp.Proofs.Curve.FixedBase
import Secp.Proofs.Curve.Group
import Secp.Proofs.Curve.JointSum
import Secp.Proofs.Curve.Multiples
import Secp.Proofs.Curve.Order
import Secp.Proofs.Curve.Pieces
import Secp.Proofs.Curve.Primes
import Secp.Proofs.Curve.Representatives
import Secp.Proofs.Curve.Scalar
import Secp.Proofs.Curve.Splitting
import Secp.Proofs.Curve.Tables
import Secp.Proofs.Curve.TwoMultiples
import Secp.Proofs.Ecdsa.Genuine
import Secp.Proofs.Ecdsa.LowS
import Secp.Proofs.Ecdsa.Nonces
import Secp.Proofs.Ecdsa.Recover
import Secp.Proofs.Ecdsa.Recoverable
import Secp.Proofs.Ecdsa.Seed
import Secp.Proofs.Ecdsa.Sign
import Secp.Proofs.Ecdsa.Truncation
import Secp.Proofs.Hash.Buffer
import Secp.Proofs.Hash.Drbg
import Secp.Proofs.Hash.Keyed
import Secp.Proofs.Hash.Reference
import Secp.Proofs.Hash.Session
import Secp.Proofs.Hash.Streaming
import Secp.Proofs.Key.Agreement
import Secp.Proofs.Key.HexText
import Secp.Proofs.Key.Private
import Secp.Proofs.Key.Public
import Secp.Proofs.LimbInt.Arithmetic
import Secp.Proofs.LimbInt.Armour
import Secp.Proofs.LimbInt.Bits
import Secp.Proofs.LimbInt.Canonical
import Secp.Proofs.LimbInt.Euclid
import Secp.Proofs.LimbInt.Hexadecimal
import Secp.Proofs.LimbInt.Logic
import Secp.Proofs.LimbInt.NonAdjacent
import Secp.Proofs.LimbInt.Numerals
import Secp.Proofs.LimbInt.Octets
import Secp.Proofs.LimbInt.Packing
import Secp.Proofs.LimbInt.Quotient
import Secp.Proofs.LimbInt.Radix
import Secp.Proofs.LimbInt.Reachable
import Secp.Proofs.LimbInt.ScriptNumber
import Secp.Proofs.LimbInt.SignedDivision
import Secp.Proofs.Limbs.Bits
import Secp.Proofs.Limbs.Checked
import Secp.Proofs.Limbs.ColumnWalk
import Secp.Proofs.Limbs.Columns
import Secp.Proofs.Limbs.Estimate
import Secp.Proofs.Limbs.InPlace
import Secp.Proofs.Limbs.Kernels
import Secp.Proofs.Limbs.LongDivision
import Secp.Proofs.Limbs.Product
import Secp.Proofs.Limbs.Quotient
import Secp.Proofs.Limbs.RowWalk
import Secp.Proofs.Limbs.Rows
import Secp.Proofs.Limbs.Shift
import Secp.Proofs.Limbs.Sum
import Secp.Proofs.Limbs.Value
import Secp.Proofs.Limbs.Window
import Secp.Proofs.Limbs.Word
import Secp.Proofs.Loops
import Secp.Proofs.Number.Euclid
import Secp.Proofs.Number.NonAdjacent
import Secp.Proofs.Number.Positional
import Secp.Proofs.Number.PrimeLadder
import Secp.Proofs.Number.Rounding
import Secp.Proofs.Outcome
import Secp.Proofs.Residue.Estimate
import Secp.Proofs.Residue.Expression
import Secp.Proofs.Residue.Power
import Secp.Proofs.Residue.Recast
import Secp.Proofs.Residue.Reduction
import Secp.Proofs.Residue.Ring
import Secp.Proofs.Residue.RootSearch
import Secp.Proofs.Residue.SquareRoot
import Secp.Proofs.Residue.Window
import Secp.Proofs.Share.Backup
import Secp.Proofs.Share.Evaluation
import Secp.Proofs.Share.Interpolation
import Secp.Proofs.Share.Secrecy
import Secp.Proofs.Share.Sharing
import Secp.Proofs.Signature.Compact
import Secp.Proofs.Signature.Der
import Secp.Proofs.Signature.FixedWidth
import Secp.Proofs.Signature.Positions
import Secp.Proofs.Signature.Script
import Secp.Proofs.Text.Base58
import Secp.Proofs.Text.Base58Buffer
import Secp.Proofs.Text.Base64
import Secp.Proofs.Text.Base64Groups
import Secp.Proofs.Text.Digits
import Secp.Randomness
import Secp.Residue.Basic
import Secp.Residue.Mixed
import Secp.Residue.Modulus
import Secp.Residue.Power
import Secp.Residue.SquareRoot
import Secp.Settings
import Secp.Share.KeyShares
import Secp.Share.Point
import Secp.Share.Polynomial
import Secp.Signature.Basic
import Secp.Signature.Compact
import Secp.Signature.Der
import Secp.Text.Base58
import Secp.Text.Base58Check
import Secp.Text.Base64
import Secp.Text.CharClass
import Secp.Text.Digits
import Secp.Text.Json.Token
import Secp.Text.Json.Value
import Secp.Text.Quoted
