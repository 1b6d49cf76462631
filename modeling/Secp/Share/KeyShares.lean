import Secp.Share.Polynomial

/-!
# Shares of a private key

A key is split into shares, of which any `threshold` give it back: they are points of a random
polynomial whose value at zero is the key. A share is written as its point and the threshold, with
full stops between them.
-/

namespace Secp

-- Powers of numbers are core's, whichever others are in scope.
attribute [local instance(2000)] instPowNat

/-- Shares of a key, and how many of them give it back. -/
structure KeyShares where
  points : List SharePoint
  threshold : Nat
  deriving DecidableEq, Repr

namespace KeyShares

/-- Draw points of a polynomial, at abscissas that are new and not zero. -/
def drawPoints (f : SharePolynomial) (total : Nat) (points : List SharePoint) (stream : Bytes) :
    Except Error (List SharePoint × Bytes) :=
  if total ≤ points.length then .ok (points, stream)
  else
    match _h : SharePolynomial.drawElement stream with
    | .error e => .error e
    | .ok (x, rest) =>
      if x = 0 ∨ points.any (·.x = x) then drawPoints f total points rest
      else
        match f.valueAt x with
        | .error e => .error e
        | .ok y => drawPoints f total (points ++ [.reduced x y]) rest
termination_by stream.length
decreasing_by all_goals exact SharePolynomial.length_of_drawElement _h

/-- Split a key. -/
def split (key : PrivateKey) (threshold total : Nat) : Draw KeyShares := fun stream ↦
  if threshold < 2 ∨ total < threshold then .error (.invalidThreshold threshold total)
  else do
    let (f, rest) ← SharePolynomial.draw key threshold stream
    let (points, rest) ← drawPoints f total [] rest
    .ok (⟨points, f.threshold⟩, rest)

/-- The value at zero of the polynomial through the shares. -/
def secret (shares : KeyShares) : Except Error Nat := do
  let f ← SharePolynomial.ofPoints shares.points shares.threshold
  f.valueAt 0

/-- The key that the shares give back. -/
def join (shares : KeyShares) : Except Error PrivateKey := do
  let k ← shares.secret
  PrivateKey.ofInt k

/-- One line for each share. -/
def toLines (shares : KeyShares) : List String :=
  shares.points.map fun p ↦ p.render ++ "." ++ toString shares.threshold

/-- A threshold of at most 64 bits: digits, perhaps behind a plus sign. -/
def readThreshold (cs : List Char) : Option Nat :=
  let digits := if cs.head? = some '+' then cs.drop 1 else cs
  if digits = [] then none
  else
    (digits.mapM (Text.digitValue 10)).bind fun ds ↦
      let n := ds.foldl (fun n d ↦ 10 * n + d) 0
      if n < 2 ^ (64 : Nat) then some n else none

/-- Read the threshold of a line, which stands behind its last full stop, and what is before it. -/
def readLine (line : String) : Except Error (String × Nat) :=
  let reversed := line.toList.reverse
  match reversed.dropWhile (· ≠ '.') with
  | [] => .error (.invalidEncoding (.shareThreshold line))
  | _ :: point =>
    match readThreshold (reversed.takeWhile (· ≠ '.')).reverse with
    | none => .error (.invalidEncoding (.badThreshold line))
    | some t => .ok (String.ofList point.reverse, t)

/-- Read lines behind those whose points and common threshold are known. -/
def ofLinesFrom (shares : KeyShares) : List String → Except Error KeyShares
  | [] => .ok shares
  | line :: lines => do
    let (point, t) ← readLine line
    if t ≠ shares.threshold then .error (.invalidEncoding .mixedThresholds)
    else
      let p ← SharePoint.parse point
      ofLinesFrom { shares with points := shares.points ++ [p] } lines

/-- Read one line for each share. The first line gives the threshold. -/
def ofLines : List String → Except Error KeyShares
  | [] => .error (.invalidEncoding .noShares)
  | line :: lines => do
    let (_, t) ← readLine line
    ofLinesFrom ⟨[], t⟩ (line :: lines)

end KeyShares

end Secp
