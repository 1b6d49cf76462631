import Secp.Proofs.Curve.Multiples
import Secp.Proofs.Loops

/-!
# Two multiples are summed, and no lookup misses

The sum of multiples of two points is run through a second time with every entry of a table looked
up by its place, so that the run has a result only if each place is one of the table. The tables
are filled in the same way. On the points of the curve the second run always has a result, which is
that of the first and the sum in the group: the two points may be equal or opposite, either may be
infinity or carry its tables, and the scalars may be zero or negative.
-/

namespace Secp.Curve

namespace ByPlace

/-- Fill the table of a window: each entry but the first is the one before plus twice the point. -/
def oddMultiples (window : Nat) (p : Affine) : Option (List Jacobian) :=
  let p := Jacobian.ofAffine p
  fillTable (·.add p.dbl) p (2 ^ (window - 2))

/-- Add the multiple that a digit names. Zero names no entry, and a digit beyond the window none of
the table. -/
def addMultiple (table : OddMultiples) (sum : Jacobian) (digit : Int) : Option Jacobian :=
  if digit = 0 then none
  else
    let place := (digit.natAbs - 1) / 2
    match table with
    | .affine points => points[place]?.map fun p ↦ sum.addAffine (if 0 < digit then p else p.neg)
    | .jacobian points => points[place]?.map fun p ↦ sum.add (if 0 < digit then p else p.neg)

/-- Add what a term contributes at a place. It may have fewer digits than others. -/
def addAt (place : Nat) (sum : Jacobian) (t : Term) : Option Jacobian :=
  match t.digits[place]? with
  | some digit => if digit = 0 then some sum else addMultiple t.table sum digit
  | none => some sum

/-- Run over the places below a given one, from the highest down. -/
def jointSumFrom (terms : List Term) : Nat → Jacobian → Option Jacobian
  | 0, sum => some sum
  | place + 1, sum => do
    let sum ← terms.foldlM (addAt place) sum.dbl
    jointSumFrom terms place sum

/-- The sum of the multiples. -/
def jointSum (terms : List Term) : Option Jacobian :=
  jointSumFrom terms ((terms.map (·.digits.length)).foldl max 0) .infinity

/-- The two terms of a multiple whose scalar is split, over tables that are filled for it. A point
that carries its tables has filled them when it was multiplied first. -/
def splitTerms (b : Base) (k : Int) : Option (List Term) :=
  let (k₁, k₂) := split k
  if b.hasTables then do
    let odd ← oddMultiples tableWindow b.point
    let odd := odd.map Jacobian.toAffine
    some [.ofScalar tableWindow k₁ (.affine odd),
      .ofScalar tableWindow k₂ (.affine (odd.map fun q ↦ .finite (q.x * beta) q.y))]
  else do
    let odd ← oddMultiples Base.plainWindow b.point
    some [.ofScalar Base.plainWindow k₁ (.jacobian odd),
      .ofScalar Base.plainWindow k₂ (.jacobian (odd.map Jacobian.endomorphism))]

/-- The sum of multiples of two points. -/
def mulAdd (p : Base) (k : Int) (q : Base) (l : Int) : Option Affine := do
  let terms (b : Base) (k : Int) :=
    if k = 0 ∨ b.point.isInfinity then some [] else splitTerms b k
  let ps ← terms p k
  let qs ← terms q l
  let sum ← jointSum (ps ++ qs)
  some sum.toAffine

/-- Adding the double again and again is to iterate. -/
theorem ascending_eq_iterate (twice : Jacobian) (count : Nat) (p : Jacobian) :
    OddMultiples.ascending twice count p = List.iterate (·.add twice) p count := by
  induction count generalizing p with
  | zero => rfl
  | succ count ih => rw [OddMultiples.ascending, ih]; rfl

/-- The table of a window is filled. -/
theorem oddMultiples_eq (window : Nat) (p : Affine) :
    oddMultiples window p = some (OddMultiples.ofWindow window p) := by
  rw [oddMultiples, OddMultiples.ofWindow, ascending_eq_iterate]
  exact fillTable_eq _ _ (Nat.two_pow_pos _)

/-- A table that holds the multiples up to a digit has the entry that it names. -/
theorem addMultiple_eq {table : OddMultiples} {count : Nat} {g : PointGroup}
    (hold : table.Hold count g) (sum : Jacobian) {d : Int} (hd : d ≠ 0)
    (hlt : d.natAbs < 2 * count) :
    addMultiple table sum d = some (table.addMultiple sum d) := by
  have hplace : (d.natAbs - 1) / 2 < count := by omega
  rw [addMultiple, if_neg hd]
  cases table with
  | affine points =>
    simp only [OddMultiples.addMultiple, List.getD_eq_getElem?_getD, hold _ hplace,
      Option.map_some, Option.getD_some]
  | jacobian points =>
    obtain ⟨p, hentry, -⟩ := hold _ hplace
    simp only [OddMultiples.addMultiple, List.getD_eq_getElem?_getD, hentry, Option.map_some,
      Option.getD_some]

/-- The table of a multiple has the entry that its digit at a place names. -/
theorem addAt_eq (m : Multiple) (place : Nat) (sum : Jacobian) :
    addAt place sum m.toTerm = some (m.toTerm.addAt place sum) := by
  rw [addAt, Term.addAt, List.getD_eq_getElem?_getD]
  cases hdigit : m.digits[place]? with
  | none => rfl
  | some d =>
    simp only [Option.getD_some]
    split
    · rfl
    · next hd =>
      obtain ⟨-, hlt⟩ := m.odd_and_lt d (List.mem_of_getElem? hdigit) hd
      exact addMultiple_eq m.hold sum hd hlt

/-- No lookup of a run misses. -/
theorem jointSumFrom_eq (ms : List Multiple) (place : Nat) (sum : Jacobian) :
    jointSumFrom (ms.map Multiple.toTerm) place sum =
      some (Curve.jointSumFrom (ms.map Multiple.toTerm) place sum) := by
  induction place generalizing sum with
  | zero => rfl
  | succ place ih =>
    have hadd : ∀ t ∈ ms.map Multiple.toTerm, ∀ s,
        addAt place s t = some (Term.addAt place s t) := by
      intro t ht s
      obtain ⟨m, -, rfl⟩ := List.mem_map.mp ht
      exact addAt_eq m place s
    rw [jointSumFrom, foldlM_eq_some hadd]
    exact ih _

/-- No lookup of a joint sum misses. -/
theorem jointSum_eq (ms : List Multiple) :
    jointSum (ms.map Multiple.toTerm) = some (Curve.jointSum (ms.map Multiple.toTerm)) :=
  jointSumFrom_eq ms _ _

/-- The tables that a point carries are those that are filled for it. -/
theorem splitTerms_eq (b : Base) (k : Int) : splitTerms b k = some (b.splitTerms k) := by
  unfold splitTerms Base.splitTerms Base.hasTables
  cases htables : b.tables with
  | none => simp [oddMultiples_eq]
  | some t =>
    obtain rfl := b.tables_eq t htables
    simp [oddMultiples_eq, Tables.build]

end ByPlace

namespace Base

/-- The sum of multiples of two points of the curve, whichever they are and by any integers, is the
sum in the group, and every entry of a table that is looked up on the way is there. -/
theorem two_multiples (p q : Base) (hp : p.point.onCurve = true) (hq : q.point.onCurve = true)
    (k l : Int) :
    p.mulAdd k q l = .ofGroup (k • p.point.toGroup + l • q.point.toGroup) ∧
      ByPlace.mulAdd p k q l = some (p.mulAdd k q l) := by
  have hp := (Affine.ofGroup_toGroup hp).symm
  have hq := (Affine.ofGroup_toGroup hq).symm
  refine ⟨mulAdd_eq hp hq k l, ?_⟩
  -- Both points give terms whose tables hold what their digits can name.
  have hterms {b : Base} {g : PointGroup} (hb : b.point = .ofGroup g) (k : Int) :
      ∃ ms : List Multiple,
        ms.map Multiple.toTerm = if k = 0 ∨ b.point.isInfinity then [] else b.splitTerms k := by
    split
    · exact ⟨[], rfl⟩
    · obtain ⟨ms, hms, -⟩ := exists_multiples hb k
      exact ⟨ms, hms⟩
  obtain ⟨ms, hms⟩ := hterms hp k
  obtain ⟨ms', hms'⟩ := hterms hq l
  have hsum := ByPlace.jointSum_eq (ms ++ ms')
  rw [List.map_append, hms, hms'] at hsum
  have hsome {c : Prop} [Decidable c] (ts : List Term) :
      (if c then some [] else some ts) = some (if c then [] else ts) :=
    (apply_ite some c [] ts).symm
  simp only [ByPlace.mulAdd, ByPlace.splitTerms_eq, hsome, Option.bind_eq_bind, Option.bind_some,
    hsum]
  rfl

/-- The generator with its tables and its opposite without any, by equal scalars, give infinity. -/
theorem two_multiples_opposite :
    generator.point.onCurve = true ∧ (plain generator.point.neg).point.onCurve = true ∧
      generator.mulAdd (-15) (plain generator.point.neg) (-15) = .infinity ∧
      ByPlace.mulAdd generator (-15) (plain generator.point.neg) (-15) = some .infinity := by
  have hp : generator.point.onCurve = true := by decide +kernel
  have hq : (plain generator.point.neg).point.onCurve = true := by decide +kernel
  obtain ⟨hsum, hplaces⟩ := two_multiples generator (plain generator.point.neg) hp hq (-15) (-15)
  have hneg : (plain generator.point.neg).point.toGroup = -generator.point.toGroup := by
    obtain ⟨g, hg⟩ : ∃ g, generator.point = .ofGroup g := ⟨_, (Affine.ofGroup_toGroup hp).symm⟩
    rw [plain, hg, Affine.neg_ofGroup, Affine.toGroup_ofGroup, Affine.toGroup_ofGroup]
  have hinfinity : generator.mulAdd (-15) (plain generator.point.neg) (-15) = .infinity := by
    rw [hsum, hneg, zsmul_neg, add_neg_cancel, Affine.ofGroup_zero]
  exact ⟨hp, hq, hinfinity, hplaces.trans (congrArg some hinfinity)⟩

end Base

end Secp.Curve
