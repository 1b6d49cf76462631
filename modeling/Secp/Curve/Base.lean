import Secp.Curve.Splitting
import Secp.Curve.Tables

/-!
# Multiples of a point

A multiple of a point is found in one of three ways. A scalar of more than 256 bits is run
through bit by bit. A point with tables uses its table of doubles, if that covers the scalar.
Otherwise the scalar is split in two, and the two multiples are summed in one run.
-/

namespace Secp.Curve

/-- A point to be multiplied, perhaps with its tables. Infinity has none. -/
structure Base where
  point : Affine
  tables : Option Tables
  tables_eq : ∀ t ∈ tables, t = Tables.build point
  finite_of_tables : tables.isSome → point.isInfinity = false

namespace Base

/-- A point without tables. -/
def plain (p : Affine) : Base := ⟨p, none, by simp, by simp⟩

instance : Coe Affine Base := ⟨plain⟩

/-- A point with its tables, unless it is infinity. -/
def tabled (p : Affine) : Base :=
  if h : p.isInfinity then plain p
  else ⟨p, some (Tables.build p), by simp, by simpa using h⟩

/-- Give a point its tables, if it has none. -/
def withTables (b : Base) : Base := if b.tables.isSome then b else tabled b.point

/-- Whether the point has tables. -/
def hasTables (b : Base) : Bool := b.tables.isSome

/-- The generator with its tables. -/
def generator : Base := tabled .generator

/-- The window for a point without tables. -/
def plainWindow : Nat := 4

/-- The two terms of a multiple whose scalar is split. -/
def splitTerms (b : Base) (k : Int) : List Term :=
  let (k₁, k₂) := split k
  match b.tables with
  | some t =>
    [.ofScalar tableWindow k₁ (.affine t.odd), .ofScalar tableWindow k₂ (.affine t.oddImages)]
  | none =>
    let odd := OddMultiples.ofWindow plainWindow b.point
    [.ofScalar plainWindow k₁ (.jacobian odd),
      .ofScalar plainWindow k₂ (.jacobian (odd.map Jacobian.endomorphism))]

/-- The multiple from the table of doubles; none where there is no table or it is too short. -/
def mulFixed? (b : Base) (k : Int) : Option Affine :=
  (b.tables.filter (·.cover k)).map (·.multiple k)

/-- The multiple by a split scalar. -/
def mulSplit (b : Base) (k : Int) : Affine :=
  if k = 0 ∨ b.point.isInfinity then .infinity else (jointSum (b.splitTerms k)).toAffine

/-- Run over the bits of a scalar, least significant first, with `power` the point doubled once
for each bit passed. -/
def addBits (sum power : Jacobian) (k : Nat) : Jacobian :=
  if _h : k = 0 then sum
  else addBits (if k % 2 = 1 then sum.add power else sum) power.dbl (k / 2)
termination_by k
decreasing_by exact Nat.div_lt_self (by omega) (by decide)

/-- The multiple by doubling and adding. -/
def mulBits (b : Base) (k : Int) : Affine :=
  let p := (addBits .infinity (.ofAffine b.point) k.natAbs).toAffine
  if k < 0 then p.neg else p

/-- The multiple of a point. -/
def mul (b : Base) (k : Int) : Affine :=
  if k = 0 ∨ b.point.isInfinity then .infinity
  else if 256 < Number.bitLength k.natAbs then b.mulBits k
  else
    match b.mulFixed? k with
    | some p => p
    | none => b.mulSplit k

/-- The sum of multiples of two points. -/
def mulAdd (p : Base) (k : Int) (q : Base) (l : Int) : Affine :=
  let terms (b : Base) (k : Int) := if k = 0 ∨ b.point.isInfinity then [] else b.splitTerms k
  (jointSum (terms p k ++ terms q l)).toAffine

end Base

namespace Affine

/-- Whether the point is finite, on the curve, and gives infinity when taken `order` times. -/
def hasOrder (p : Affine) : Bool :=
  !p.isInfinity && p.onCurve && (Base.mulBits p order).isInfinity

end Affine

end Secp.Curve
