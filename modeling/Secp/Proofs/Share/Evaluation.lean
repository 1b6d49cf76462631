import Secp.Proofs.Share.Sharing

/-!
# The value of a polynomial that is given by points

Abscissas are compared as integers when the points are taken, and in the field when a weight is
computed. So points of different but congruent abscissas are taken, and a weight is then missing:
the difference of the two is a factor of what is to be inverted. If no two abscissas are congruent,
one polynomial of degree below the number of points passes through them, whatever their order, and
the value is its value.

The sum can also be taken by two loops over the places of the points, of which the inner one leaves
out the place of the outer one.
-/

namespace Secp

open Curve (BaseField)
open Polynomial (eval)

/-- Two of the points have congruent abscissas. -/
def Coincide (points : List SharePoint) : Prop :=
  ∃ i j : Fin points.length, i < j ∧ points[i].x ≡ points[j].x [ZMOD sparsePrime]

instance (points : List SharePoint) : Decidable (Coincide points) :=
  inferInstanceAs (Decidable (∃ _ _, _ ∧ _))

/-- Points differ in the field when no two of them have congruent abscissas. -/
theorem distinct_iff_not_coincide {points : List SharePoint} :
    Distinct points ↔ ¬ Coincide points := by
  have habscissa (p q : SharePoint) : p.abscissa = q.abscissa ↔ p.x ≡ q.x [ZMOD sparsePrime] :=
    ZMod.intCast_eq_intCast_iff p.x q.x sparsePrime
  rw [Distinct, List.Nodup, List.pairwise_map, List.pairwise_iff_get, Coincide]
  simp only [ne_eq, habscissa, not_exists, not_and]
  rfl

/-- Whether points differ in the field does not depend on their order. -/
theorem Distinct.perm {points others : List SharePoint} (h : Distinct points)
    (hperm : others.Perm points) : Distinct others :=
  (hperm.map SharePoint.abscissa).nodup_iff.mpr h

/-- A polynomial that passes through points does so in any order. -/
theorem Passes.perm {g : Polynomial BaseField} {points others : List SharePoint}
    (h : Passes g points) (hperm : others.Perm points) : Passes g others := by
  refine ⟨?_, fun p hp ↦ h.eval_eq p (hperm.mem_iff.mp hp)⟩
  rw [hperm.length_eq]
  exact h.degree_lt

/-- Only one polynomial passes through points that differ in the field. -/
theorem Distinct.passes_unique {points : List SharePoint} (h : Distinct points)
    {f g : Polynomial BaseField} (hf : Passes f points) (hg : Passes g points) : f = g := by
  refine Polynomial.eq_of_degrees_lt_of_eval_finset_eq (points.map SharePoint.abscissa).toFinset
    (h.card_abscissas ▸ hf.degree_lt) (h.card_abscissas ▸ hg.degree_lt) fun a ha ↦ ?_
  obtain ⟨p, hp, rfl⟩ := List.mem_map.mp (List.mem_toFinset.mp ha)
  rw [hf.eval_eq p hp, hg.eval_eq p hp]

namespace SharePolynomial

/-- A point has no weight where another abscissa agrees with its own in the field. -/
theorem weight?_eq_none {x : Fp} {p : SharePoint} {others : List SharePoint}
    (h : p.abscissa ∈ others.map SharePoint.abscissa) :
    weight? x (Residue.ofInt p.x) others = none := by
  have hu : (Residue.ofInt p.x : Fp).toZMod = p.abscissa := Residue.toZMod_ofInt p.x
  have hzero : ((others.map SharePoint.abscissa).map (p.abscissa - ·)).prod = 0 :=
    List.prod_eq_zero (List.mem_map.mpr ⟨_, h, sub_self _⟩)
  unfold weight?
  dsimp only
  rw [Option.map_eq_none_iff, Curve.inverse?_eq_none_iff, toZMod_distances, hu, hzero, mul_zero]

/-- There is no weighted sum over points that do not differ in the field. -/
theorem sumFrom_eq_none (x : Fp) (before : List SharePoint) {after : List SharePoint}
    (h : ¬ Distinct after) : sumFrom x before after = none := by
  induction after generalizing before with
  | nil => exact absurd List.nodup_nil h
  | cons p after ih =>
    rw [sumFrom]
    -- either the first point has no weight, or the later ones do not differ by themselves
    by_cases hnew : p.abscissa ∈ after.map SharePoint.abscissa
    · have hmem : p.abscissa ∈ (before ++ after).map SharePoint.abscissa := by
        rw [List.map_append]
        exact List.mem_append_right _ hnew
      rw [weight?_eq_none hmem]
      rfl
    · have hafter : ¬ Distinct after := fun hafter ↦ h (List.nodup_cons.mpr ⟨hnew, hafter⟩)
      rw [ih _ hafter]
      cases weight? x (Residue.ofInt p.x) (before ++ after) <;> rfl

/-- There is no value exactly when two of the points have congruent abscissas. -/
theorem valueAt_eq_error_iff {f : SharePolynomial} {x : Int} :
    f.valueAt x = .error .duplicateShare ↔ Coincide f.points := by
  constructor
  · intro h
    by_contra hcoincide
    have hdistinct := distinct_iff_not_coincide.mpr hcoincide
    obtain ⟨g, hg⟩ := hdistinct.exists_passes
    cases h.symm.trans (valueAt_of_passes f.threshold hdistinct hg x)
  · intro h
    rw [valueAt, sumFrom_eq_none _ _ (mt distinct_iff_not_coincide.mp (not_not.mpr h))]

/-- The value does not depend on the order of the points. -/
theorem valueAt_perm {f f' : SharePolynomial} (h : f'.points.Perm f.points) (x : Int) :
    f'.valueAt x = f.valueAt x := by
  by_cases hdistinct : Distinct f.points
  · obtain ⟨g, hg⟩ := hdistinct.exists_passes
    have hvalue := valueAt_of_passes f.threshold hdistinct hg x
    have hvalue' := valueAt_of_passes f'.threshold (hdistinct.perm h) (hg.perm h) x
    exact hvalue'.trans hvalue.symm
  · have hdistinct' : ¬ Distinct f'.points := fun h' ↦ hdistinct (h'.perm h.symm)
    rw [valueAt, valueAt, sumFrom_eq_none _ _ hdistinct, sumFrom_eq_none _ _ hdistinct']

/-- Points repeat no abscissa exactly when their abscissas differ as integers. -/
theorem repeats_eq_false_iff {points : List SharePoint} :
    repeats points = false ↔ (points.map SharePoint.x).Nodup := by
  refine ⟨fun h ↦ ?_, repeats_eq_false⟩
  induction points with
  | nil => exact List.nodup_nil
  | cons p ps ih =>
    obtain ⟨hnew, hrest⟩ := Bool.or_eq_false_iff.mp h
    refine List.nodup_cons.mpr ⟨fun hmem ↦ ?_, ih hrest⟩
    obtain ⟨q, hq, hqp⟩ := List.mem_map.mp hmem
    exact absurd (decide_eq_true hqp) (List.any_eq_false.mp hnew q hq)

/-- Points are taken when they are as many as the threshold, which is not zero, and the first of
them, up to it, differ in their abscissas. -/
theorem ofPoints_eq_ok_iff {points : List SharePoint} {threshold : Nat} {f : SharePolynomial} :
    ofPoints points threshold = .ok f ↔
      (0 < threshold ∧ threshold ≤ points.length ∧
        ((points.take threshold).map SharePoint.x).Nodup) ∧
        f = ⟨points.take threshold, threshold⟩ := by
  rw [← repeats_eq_false_iff, ofPoints]
  split
  · next hfew =>
    constructor
    · intro h
      cases h
    · rintro ⟨⟨hpos, henough, -⟩, -⟩
      omega
  · next henough =>
    split
    · next hrepeats => simp [hrepeats]
    · next hrepeats =>
      have hrange : 0 < threshold ∧ threshold ≤ points.length := by omega
      simp [hrange, hrepeats, eq_comm]

/-- The points that are taken can be taken in any order. -/
theorem ofPoints_perm {points others : List SharePoint} {threshold : Nat} {f : SharePolynomial}
    (h : ofPoints points threshold = .ok f) (hperm : others.Perm f.points) :
    ofPoints others threshold = .ok ⟨others, threshold⟩ := by
  obtain ⟨⟨hpos, henough, hnodup⟩, rfl⟩ := ofPoints_eq_ok_iff.mp h
  have hlength : others.length = threshold := by
    rw [hperm.length_eq, List.length_take, Nat.min_eq_left henough]
  have htake : others.take threshold = others := List.take_of_length_le hlength.le
  refine ofPoints_eq_ok_iff.mpr ⟨⟨hpos, hlength.ge, ?_⟩, by rw [htake]⟩
  rw [htake]
  exact (hperm.map SharePoint.x).nodup_iff.mpr hnodup

namespace ByPlace

/-- Multiply the products of a term by the distances from the abscissa of the point at another
place. -/
def mulDistances (x u : Fp) (i : Nat) (products : Fp × Fp) (q : SharePoint × Nat) : Fp × Fp :=
  if i = q.2 then products
  else (products.1 * (x - Residue.ofInt q.1.x), products.2 * (u - Residue.ofInt q.1.x))

/-- The term of the point at a place. -/
def term? (x : Fp) (points : List SharePoint) (p : SharePoint × Nat) : Option Fp :=
  let u := Residue.ofInt p.1.x
  let products := points.zipIdx.foldl (mulDistances x u p.2) (Residue.one, Residue.one)
  products.2.inverse?.map (Residue.ofInt p.1.y * products.1 * ·)

/-- The sum of the terms, in the order of the points. -/
def sum? (x : Fp) (points : List SharePoint) : Option Fp :=
  points.zipIdx.foldlM (fun sum p ↦ (term? x points p).map (sum + ·)) Residue.zero

/-- The value at `x`. -/
def valueAt (f : SharePolynomial) (x : Int) : Except Error Nat :=
  match sum? (Residue.ofInt x) f.points with
  | some v => .ok v.val
  | none => .error .duplicateShare

variable {x u : Fp}

/-- All points of a row are multiplied in where none of them is at the place that is left out. -/
theorem foldl_mulDistances {i start : Nat} {points : List SharePoint}
    (h : i < start ∨ start + points.length ≤ i) (n d : Fp) :
    (points.zipIdx start).foldl (mulDistances x u i) (n, d) =
      (points.foldl (fun n q ↦ n * (x - Residue.ofInt q.x)) n,
        points.foldl (fun d q ↦ d * (u - Residue.ofInt q.x)) d) := by
  induction points generalizing start n d with
  | nil => rfl
  | cons q points ih =>
    rw [List.length_cons] at h
    rw [List.zipIdx_cons, List.foldl_cons, mulDistances, if_neg (by dsimp only; omega),
      ih (by omega), List.foldl_cons, List.foldl_cons]

/-- The term of a point is its ordinate with its weight among the other points. -/
theorem term?_eq (x : Fp) (before after : List SharePoint) (p : SharePoint) :
    term? x (before ++ p :: after) (p, before.length) =
      (weight? x (Residue.ofInt p.x) (before ++ after)).map (Residue.ofInt p.y * ·) := by
  have hassoc (a b c : Fp) : a * b * c = a * (b * c) := by
    rw [← Residue.toZMod_inj]
    simp [mul_assoc]
  have hbefore : before.length < 0 ∨ 0 + before.length ≤ before.length := by omega
  have hafter : before.length < 0 + before.length + 1 ∨
      0 + before.length + 1 + after.length ≤ before.length := by omega
  unfold term? weight?
  dsimp only
  rw [List.zipIdx_append, List.zipIdx_cons, List.foldl_append, List.foldl_cons,
    foldl_mulDistances hbefore, mulDistances, if_pos (Nat.zero_add _).symm,
    foldl_mulDistances hafter, ← List.foldl_append, ← List.foldl_append, Option.map_map]
  simp only [Function.comp_def, hassoc]

/-- The terms from a place on are added to a sum. -/
theorem foldlM_term? (x : Fp) (before after : List SharePoint) (sum : Fp) :
    (after.zipIdx before.length).foldlM
        (fun sum p ↦ (term? x (before ++ after) p).map (sum + ·)) sum =
      (sumFrom x before after).map (sum + ·) := by
  have hassoc (a b c : Fp) : a + b + c = a + (b + c) := by
    rw [← Residue.toZMod_inj]
    simp [add_assoc]
  have hzero (a : Fp) : a + Residue.zero = a := by
    rw [← Residue.toZMod_inj]
    simp
  induction after generalizing before sum with
  | nil => simp [sumFrom, hzero]
  | cons p after ih =>
    have hsplit : before ++ p :: after = before ++ [p] ++ after := by simp
    have hlength : before.length + 1 = (before ++ [p]).length := by simp
    rw [List.zipIdx_cons, List.foldlM_cons, term?_eq, sumFrom]
    cases weight? x (Residue.ofInt p.x) (before ++ after) with
    | none => rfl
    | some w =>
      simp only [Option.map_some, Option.bind_eq_bind, Option.bind_some]
      rw [hsplit, hlength, ih]
      cases sumFrom x (before ++ [p]) after with
      | none => rfl
      | some v => simp [hassoc]

/-- The loops over the places give the value. -/
theorem valueAt_eq (f : SharePolynomial) (x : Int) : valueAt f x = f.valueAt x := by
  have hzero (a : Fp) : Residue.zero + a = a := by
    rw [← Residue.toZMod_inj]
    simp
  have hsum : sum? (Residue.ofInt x) f.points = sumFrom (Residue.ofInt x) [] f.points := by
    have hloop := foldlM_term? (Residue.ofInt x) [] f.points Residue.zero
    simp only [hzero, Option.map_id_fun', id] at hloop
    exact hloop
  unfold valueAt SharePolynomial.valueAt
  cases h : sumFrom (Residue.ofInt x) [] f.points with
  | none => simp only [hsum, h]
  | some v => simp only [hsum, h]

end ByPlace

/-- At a point of a polynomial that is given by points the value is its ordinate, reduced. -/
theorem valueAt_of_mem {f : SharePolynomial} (h : ¬ Coincide f.points) {p : SharePoint}
    (hp : p ∈ f.points) : f.valueAt p.x = .ok (p.y % sparsePrime).toNat := by
  have hdistinct := distinct_iff_not_coincide.mpr h
  obtain ⟨g, hg⟩ := hdistinct.exists_passes
  have hvalue := valueAt_of_passes f.threshold hdistinct hg p.x
  have hordinate : eval (p.x : BaseField) g = (p.y : BaseField) := hg.eval_eq p hp
  have hval : ((p.y : BaseField).val : Int) = p.y % sparsePrime := ZMod.val_intCast p.y
  rw [hordinate] at hvalue
  rw [← hval, Int.toNat_natCast]
  exact hvalue

/-- A polynomial that points give holds the first of them, as many as the threshold. It has no value
anywhere if two of these have congruent abscissas. Otherwise one polynomial of degree below their
number passes through them, and the value is its value, reduced. So at each of the points it is the
ordinate, reduced. The same points are taken in any order, and the value is the same. It is also
what the loops over the places of the points give. -/
theorem values_interpolate {points : List SharePoint} {threshold : Nat} {f : SharePolynomial}
    (h : ofPoints points threshold = .ok f) (x : Int) :
    (f.points = points.take threshold ∧ f.points.length = threshold) ∧
      ByPlace.valueAt f x = f.valueAt x ∧
      (f.valueAt x = .error .duplicateShare ↔ Coincide f.points) ∧
      (¬ Coincide f.points →
        (∃ g : Polynomial BaseField, Passes g f.points ∧ (∀ g', Passes g' f.points → g' = g) ∧
          ∃ v : Nat, f.valueAt x = .ok v ∧ v < sparsePrime ∧
            (v : BaseField) = eval (x : BaseField) g) ∧
        ∀ p ∈ f.points, f.valueAt p.x = .ok (p.y % sparsePrime).toNat) ∧
      ∀ others : List SharePoint, others.Perm f.points →
        ofPoints others threshold = .ok ⟨others, threshold⟩ ∧
          (⟨others, threshold⟩ : SharePolynomial).valueAt x = f.valueAt x := by
  refine ⟨?_, ByPlace.valueAt_eq f x, valueAt_eq_error_iff, fun hcoincide ↦ ⟨?_, ?_⟩,
    fun others hperm ↦ ⟨?_, ?_⟩⟩
  · obtain ⟨⟨-, henough, -⟩, rfl⟩ := ofPoints_eq_ok_iff.mp h
    exact ⟨rfl, List.length_take_of_le henough⟩
  · have hdistinct := distinct_iff_not_coincide.mpr hcoincide
    obtain ⟨g, hg⟩ := hdistinct.exists_passes
    exact ⟨g, hg, fun g' hg' ↦ hdistinct.passes_unique hg' hg, _,
      valueAt_of_passes f.threshold hdistinct hg x, ZMod.val_lt _, ZMod.natCast_zmod_val _⟩
  · exact fun p hp ↦ valueAt_of_mem hcoincide hp
  · exact ofPoints_perm h hperm
  · exact valueAt_perm hperm x

/-- A line through two points with coordinates outside of the field has the reduced ordinate of the
first at its abscissa, in both orders of the points. Two points whose abscissas are one and one more
than the prime are taken and give no value. -/
theorem values_interpolate_outside :
    ofPoints [⟨-1, -3⟩, ⟨sparsePrime + 2, 3⟩] 2 = .ok ⟨[⟨-1, -3⟩, ⟨sparsePrime + 2, 3⟩], 2⟩ ∧
      (⟨[⟨-1, -3⟩, ⟨sparsePrime + 2, 3⟩], 2⟩ : SharePolynomial).valueAt (-1) =
        .ok (sparsePrime - 3) ∧
      (⟨[⟨sparsePrime + 2, 3⟩, ⟨-1, -3⟩], 2⟩ : SharePolynomial).valueAt (-1) =
        .ok (sparsePrime - 3) ∧
      ofPoints [⟨1, 5⟩, ⟨sparsePrime + 1, 7⟩] 2 = .ok ⟨[⟨1, 5⟩, ⟨sparsePrime + 1, 7⟩], 2⟩ ∧
      (⟨[⟨1, 5⟩, ⟨sparsePrime + 1, 7⟩], 2⟩ : SharePolynomial).valueAt 0 =
        .error .duplicateShare := by
  have hline : ofPoints [⟨-1, -3⟩, ⟨sparsePrime + 2, 3⟩] 2 =
      .ok ⟨[⟨-1, -3⟩, ⟨sparsePrime + 2, 3⟩], 2⟩ := by decide +kernel
  have hpair : ofPoints [⟨1, 5⟩, ⟨sparsePrime + 1, 7⟩] 2 =
      .ok ⟨[⟨1, 5⟩, ⟨sparsePrime + 1, 7⟩], 2⟩ := by decide +kernel
  obtain ⟨-, -, -, hvalues, horder⟩ := values_interpolate hline (-1)
  obtain ⟨-, hvalue⟩ := hvalues (by decide +kernel)
  have hfirst := hvalue ⟨-1, -3⟩ List.mem_cons_self
  obtain ⟨-, hreversed⟩ := horder [⟨sparsePrime + 2, 3⟩, ⟨-1, -3⟩] (List.Perm.swap _ _ _)
  obtain ⟨-, -, hnone, -⟩ := values_interpolate hpair 0
  exact ⟨hline, hfirst, hreversed.trans hfirst, hpair, hnone.mpr (by decide +kernel)⟩

end SharePolynomial

end Secp
