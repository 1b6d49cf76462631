import Secp.Key.Private
import Secp.Share.Point

/-!
# Polynomials given by points

A polynomial of degree below `t` is given by `t` of its points. Its value anywhere is found by
Lagrange's formula. The polynomial that shares a secret has it for its value at zero, and its other
points are drawn at random.
-/

namespace Secp

/-- The polynomial through some points. -/
structure SharePolynomial where
  points : List SharePoint
  threshold : Nat
  deriving DecidableEq, Repr

namespace SharePolynomial

/-- Whether two of the points have the same abscissa. -/
def repeats : List SharePoint → Bool
  | [] => false
  | p :: ps => ps.any (·.x = p.x) || repeats ps

/-- The polynomial through the first `threshold` points, whose abscissas must differ. -/
def ofPoints (points : List SharePoint) (threshold : Nat) : Except Error SharePolynomial :=
  if points.length < threshold ∨ threshold = 0 then
    .error (.insufficientShares points.length threshold)
  else if repeats (points.take threshold) then .error .duplicateShare
  else .ok ⟨points.take threshold, threshold⟩

/-- The weight of a point at `x`: the product of `(x - v) / (u - v)` over the abscissas `v` of the
other points, where `u` is its own. There is none where another abscissa agrees with its own. -/
def weight? (x u : Fp) (others : List SharePoint) : Option Fp :=
  let numerator := others.foldl (fun n q ↦ n * (x - Residue.ofInt q.x)) Residue.one
  let denominator := others.foldl (fun d q ↦ d * (u - Residue.ofInt q.x)) Residue.one
  denominator.inverse?.map (numerator * ·)

/-- The sum of the ordinates, each with its weight, of the points from `after` on. -/
def sumFrom (x : Fp) : List SharePoint → List SharePoint → Option Fp
  | _, [] => some Residue.zero
  | before, p :: after => do
    let weight ← weight? x (Residue.ofInt p.x) (before ++ after)
    let rest ← sumFrom x (before ++ [p]) after
    some (Residue.ofInt p.y * weight + rest)

/-- The value at `x`. -/
def valueAt (f : SharePolynomial) (x : Int) : Except Error Nat :=
  match sumFrom (Residue.ofInt x) [] f.points with
  | some v => .ok v.val
  | none => .error .duplicateShare

/-- Draw a field element. -/
def drawElement : Draw Nat := fun stream ↦
  (Draw.number stream).map fun (n, rest) ↦ (n % sparsePrime, rest)

/-- Drawing an element takes bytes off the stream. -/
theorem length_of_drawElement {stream rest : Bytes} {n : Nat}
    (h : drawElement stream = .ok (n, rest)) : rest.length < stream.length := by
  unfold drawElement at h
  cases hn : Draw.number stream with
  | error e => rw [hn] at h; contradiction
  | ok pair =>
    rw [hn] at h
    cases h
    exact Draw.length_of_number hn

/-- Draw points of new abscissas until there are `threshold` points. -/
def drawPoints (threshold : Nat) (points : List SharePoint) (stream : Bytes) :
    Except Error (List SharePoint × Bytes) :=
  if threshold ≤ points.length then .ok (points, stream)
  else
    match _h₁ : drawElement stream with
    | .error e => .error e
    | .ok (x, rest) =>
      if points.any (·.x = x) then drawPoints threshold points rest
      else
        match _h₂ : drawElement rest with
        | .error e => .error e
        | .ok (y, rest) => drawPoints threshold (points ++ [.reduced x y]) rest
termination_by stream.length
decreasing_by
  · exact length_of_drawElement _h₁
  · have := length_of_drawElement _h₁
    have := length_of_drawElement _h₂
    omega

/-- Draw a polynomial whose value at zero is the key. -/
def draw (key : PrivateKey) (threshold : Nat) : Draw SharePolynomial := fun stream ↦
  (drawPoints threshold [.reduced 0 key.scalar.val] stream).map fun (points, rest) ↦
    (⟨points, max threshold 1⟩, rest)

end SharePolynomial

end Secp
