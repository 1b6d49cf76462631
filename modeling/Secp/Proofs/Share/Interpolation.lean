import Mathlib.LinearAlgebra.Lagrange
import Secp.Proofs.Curve.Coordinates
import Secp.Share.Polynomial

/-!
# Lagrange's formula gives the value of the polynomial

Over distinct abscissas the weight of a point is the value of its Lagrange basis polynomial. The
weighted sum of the ordinates is then the value of the only polynomial of degree below the number of
points that passes through them, and there is such a polynomial for any points of distinct
abscissas.
-/

namespace Secp

open Curve (BaseField)
open Polynomial (eval)

namespace SharePoint

/-- The abscissa in the field. -/
def abscissa (p : SharePoint) : BaseField := p.x

/-- The ordinate in the field. -/
def ordinate (p : SharePoint) : BaseField := p.y

/-- Reducing the coordinates keeps the abscissa. -/
@[simp] theorem abscissa_reduced (x y : Int) : (reduced x y).abscissa = x :=
  ZMod.intCast_mod x sparsePrime

/-- Reducing the coordinates keeps the ordinate. -/
@[simp] theorem ordinate_reduced (x y : Int) : (reduced x y).ordinate = y :=
  ZMod.intCast_mod y sparsePrime

end SharePoint

/-- A polynomial of degree below the number of points that passes through them. -/
structure Passes (f : Polynomial BaseField) (points : List SharePoint) : Prop where
  degree_lt : f.degree < points.length
  eval_eq : ∀ p ∈ points, eval p.abscissa f = p.ordinate

/-- Points whose abscissas differ in the field. -/
def Distinct (points : List SharePoint) : Prop := (points.map SharePoint.abscissa).Nodup

/-- Points of distinct abscissas have as many of them. -/
theorem Distinct.card_abscissas {points : List SharePoint} (h : Distinct points) :
    (points.map SharePoint.abscissa).toFinset.card = points.length := by
  rw [List.toFinset_card_of_nodup h, List.length_map]

/-- Some polynomial passes through points of distinct abscissas. -/
theorem Distinct.exists_passes {points : List SharePoint} (h : Distinct points) :
    ∃ f, Passes f points := by
  let v (i : Fin points.length) : BaseField := points[i].abscissa
  let r (i : Fin points.length) : BaseField := points[i].ordinate
  have hinj : Set.InjOn v (Finset.univ : Finset (Fin points.length)) := by
    rintro ⟨i, hi⟩ _ ⟨j, hj⟩ _ hij
    have hlength : (points.map SharePoint.abscissa).length = points.length := List.length_map _
    rw [← hlength] at hi hj
    have hmap : (points.map SharePoint.abscissa)[i] = (points.map SharePoint.abscissa)[j] := by
      rw [List.getElem_map, List.getElem_map]
      exact hij
    exact Fin.ext (h.getElem_inj_iff.mp hmap)
  refine ⟨Lagrange.interpolate Finset.univ v r, ?_, ?_⟩
  · have hdegree := Lagrange.degree_interpolate_lt r hinj
    rwa [Finset.card_univ, Fintype.card_fin] at hdegree
  · intro p hp
    obtain ⟨i, hi, rfl⟩ := List.mem_iff_getElem.mp hp
    have hnode := Lagrange.eval_interpolate_at_node r hinj (Finset.mem_univ ⟨i, hi⟩)
    exact hnode

namespace SharePolynomial

/-- The product of the distances of a number from the abscissas of points. -/
theorem toZMod_distances (a u : Fp) (points : List SharePoint) :
    (points.foldl (fun n q ↦ n * (u - Residue.ofInt q.x)) a).toZMod =
      a.toZMod * ((points.map SharePoint.abscissa).map (u.toZMod - ·)).prod := by
  induction points generalizing a with
  | nil => simp
  | cons q points ih =>
    rw [List.foldl_cons, ih, Residue.toZMod_mul, Residue.toZMod_sub, Residue.toZMod_ofInt,
      List.map_cons, List.map_cons, List.prod_cons, mul_assoc]
    rfl

/-- The weight of a point among others is the value of its basis polynomial. -/
theorem weight?_eq {x : Fp} {p : SharePoint} {others : List SharePoint}
    (h : Distinct (p :: others)) :
    ∃ w, weight? x (Residue.ofInt p.x) others = some w ∧
      w.toZMod = eval x.toZMod
        (Lagrange.basis ((p :: others).map SharePoint.abscissa).toFinset id p.abscissa) := by
  obtain ⟨hnew, hothers⟩ := List.nodup_cons.mp h
  have hu : (Residue.ofInt p.x : Fp).toZMod = p.abscissa := Residue.toZMod_ofInt p.x
  have hdistances (u : BaseField) :
      ((others.map SharePoint.abscissa).map (u - ·)).prod =
        ∏ b ∈ (others.map SharePoint.abscissa).toFinset, (u - b) :=
    (List.prod_toFinset _ hothers).symm
  have hne : ∏ b ∈ (others.map SharePoint.abscissa).toFinset, (p.abscissa - b) ≠ 0 := by
    refine Finset.prod_ne_zero_iff.mpr fun b hb ↦ sub_ne_zero.mpr fun heq ↦ ?_
    exact hnew (heq ▸ List.mem_toFinset.mp hb)
  have hbasis : eval x.toZMod
      (Lagrange.basis ((p :: others).map SharePoint.abscissa).toFinset id p.abscissa) =
        (∏ b ∈ (others.map SharePoint.abscissa).toFinset, (x.toZMod - b)) *
          (∏ b ∈ (others.map SharePoint.abscissa).toFinset, (p.abscissa - b))⁻¹ := by
    rw [Lagrange.basis, List.map_cons, List.toFinset_cons,
      Finset.erase_insert (mt List.mem_toFinset.mp hnew), Polynomial.eval_prod,
      ← Finset.prod_inv_distrib, ← Finset.prod_mul_distrib]
    refine Finset.prod_congr rfl fun b _ ↦ ?_
    simp [Lagrange.basisDivisor, mul_comm]
  unfold weight?
  dsimp only
  generalize hden : others.foldl (fun d q ↦ d * (Residue.ofInt p.x - Residue.ofInt q.x))
    (Residue.one : Fp) = den
  have hvalue : den.toZMod = ∏ b ∈ (others.map SharePoint.abscissa).toFinset, (p.abscissa - b) := by
    rw [← hden, toZMod_distances, Residue.toZMod_one, one_mul, hu, hdistances]
  cases hw : den.inverse? with
  | none => exact absurd (hvalue ▸ Curve.inverse?_eq_none_iff.mp hw) hne
  | some w =>
    have hinv : w.toZMod = den.toZMod⁻¹ :=
      eq_inv_of_mul_eq_one_right (Residue.mul_of_inverse? hw)
    refine ⟨_, rfl, ?_⟩
    rw [Residue.toZMod_mul, toZMod_distances, Residue.toZMod_one, one_mul, hdistances, hinv, hvalue,
      hbasis]

/-- The weighted sum of the later ones of some points. -/
theorem sumFrom_eq (x : Fp) (before after : List SharePoint) (h : Distinct (before ++ after)) :
    ∃ v, sumFrom x before after = some v ∧
      v.toZMod = (after.map fun p ↦ p.ordinate * eval x.toZMod (Lagrange.basis
        ((before ++ after).map SharePoint.abscissa).toFinset id p.abscissa)).sum := by
  induction after generalizing before with
  | nil => exact ⟨Residue.zero, by rw [sumFrom], by simp⟩
  | cons p after ih =>
    have hsplit : before ++ p :: after = before ++ [p] ++ after := by simp
    have hperm : ((before ++ p :: after).map SharePoint.abscissa).Perm
        ((p :: (before ++ after)).map SharePoint.abscissa) := List.perm_middle.map _
    obtain ⟨w, hw, hwvalue⟩ := weight?_eq (x := x) (hperm.nodup_iff.mp h)
    obtain ⟨v, hv, hvvalue⟩ := ih (before ++ [p]) (hsplit ▸ h)
    refine ⟨Residue.ofInt p.y * w + v, ?_, ?_⟩
    · rw [sumFrom, hw, hv]
      rfl
    · rw [Residue.toZMod_add, Residue.toZMod_mul, Residue.toZMod_ofInt, hwvalue, hvvalue, ← hsplit,
        ← List.toFinset_eq_of_perm _ _ hperm]
      rfl

/-- The value that Lagrange's formula gives is that of a polynomial through the points. -/
theorem valueAt_of_passes {f : Polynomial BaseField} {points : List SharePoint} (threshold : Nat)
    (hdistinct : Distinct points) (hf : Passes f points) (x : Int) :
    (⟨points, threshold⟩ : SharePolynomial).valueAt x = .ok (eval (x : BaseField) f).val := by
  obtain ⟨v, hv, hvalue⟩ := sumFrom_eq (Residue.ofInt x) [] points hdistinct
  have hinterpolate : f = Lagrange.interpolate (points.map SharePoint.abscissa).toFinset id
      fun a ↦ eval a f :=
    Lagrange.eq_interpolate (Function.injective_id.injOn) (hdistinct.card_abscissas ▸ hf.degree_lt)
  have heval : v.toZMod = eval (x : BaseField) f := by
    conv_rhs => rw [hinterpolate]
    rw [hvalue, Residue.toZMod_ofInt, Lagrange.interpolate_apply, Polynomial.eval_finsetSum,
      List.sum_toFinset _ hdistinct, List.map_map]
    refine congrArg List.sum (List.map_congr_left fun p hp ↦ ?_)
    simp [hf.eval_eq p hp]
  rw [valueAt, hv, ← heval, Residue.val_toZMod]

end SharePolynomial

end Secp
