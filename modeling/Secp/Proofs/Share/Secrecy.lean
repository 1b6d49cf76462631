import Mathlib.Data.Fin.Tuple.Basic
import Mathlib.Data.List.FinRange
import Secp.Proofs.Bytes
import Secp.Proofs.Share.Sharing

/-!
# Fewer shares than the threshold tell nothing

A secret is hidden by as many sampled points as are one short of the threshold. There is exactly one
polynomial of degree below the threshold for every choice of the ordinates at as many other
abscissas. So as many shares run through all values when the sampled ordinates do, whatever the
secret is: the map from the ordinates to the shares is a bijection, and its inverse is the same map
with the two rows of abscissas exchanged.
-/

namespace Secp

open Curve (BaseField)
open Polynomial (eval)

namespace SharePoint

/-- The point with two field elements for its coordinates. -/
def ofField (x y : BaseField) : SharePoint := .reduced x.val y.val

/-- A field element is an abscissa below the modulus already. -/
theorem x_ofField (x y : BaseField) : (ofField x y).x = x.val :=
  Int.emod_eq_of_lt (Int.natCast_nonneg _) (Int.ofNat_lt.mpr x.val_lt)

/-- The abscissa in the field is the one given. -/
@[simp] theorem abscissa_ofField (x y : BaseField) : (ofField x y).abscissa = x := by
  rw [ofField, abscissa_reduced, Int.cast_natCast, ZMod.natCast_zmod_val]

/-- The ordinate in the field is the one given. -/
@[simp] theorem ordinate_ofField (x y : BaseField) : (ofField x y).ordinate = y := by
  rw [ofField, ordinate_reduced, Int.cast_natCast, ZMod.natCast_zmod_val]

end SharePoint

/-- Points that differ in the field have abscissas that differ. -/
theorem Distinct.nodup {points : List SharePoint} (h : Distinct points) :
    (points.map SharePoint.x).Nodup := by
  apply List.Nodup.of_map (Int.cast : Int → BaseField)
  rw [List.map_map]
  exact h

namespace SharePolynomial

/-- The bytes that are drawn for sampled points, an abscissa and an ordinate for each. -/
def sampledBytes (samples : List (BaseField × BaseField)) : Bytes :=
  samples.flatMap fun p ↦ Bytes.bigEndian Draw.size p.1.val ++ Bytes.bigEndian Draw.size p.2.val

/-- An element is drawn from the bytes that write it. -/
theorem drawElement_bigEndian (a : BaseField) (rest : Bytes) :
    drawElement (Bytes.bigEndian Draw.size a.val ++ rest) = .ok (a.val, rest) := by
  have hlt : a.val < sparsePrime := a.val_lt
  have hfits : a.val < 256 ^ Draw.size := hlt.trans (by decide)
  have hlength : (Bytes.bigEndian Draw.size a.val).length = Draw.size := Bytes.length_bigEndian _ _
  have hnumber : Draw.number (Bytes.bigEndian Draw.size a.val ++ rest) = .ok (a.val, rest) := by
    rw [Draw.number, if_neg (by simp), List.take_left' hlength, List.drop_left' hlength,
      Bytes.toNat_bigEndian_of_lt hfits]
  rw [drawElement, hnumber]
  simp only [Except.map, Nat.mod_eq_of_lt hlt]

/-- Sampled points of new abscissas are drawn as they are written. -/
theorem drawPoints_sampledBytes {threshold : Nat} (points : List SharePoint)
    (samples : List (BaseField × BaseField)) (rest : Bytes)
    (hlength : points.length + samples.length = threshold)
    (hnew : Distinct (points ++ samples.map fun p ↦ .ofField p.1 p.2)) :
    drawPoints threshold points (sampledBytes samples ++ rest) =
      .ok (points ++ samples.map fun p ↦ .ofField p.1 p.2, rest) := by
  induction samples generalizing points with
  | nil =>
    rw [drawPoints, if_pos (by simp at hlength; omega)]
    simp [sampledBytes]
  | cons p samples ih =>
    obtain ⟨x, y⟩ := p
    have hbytes : sampledBytes ((x, y) :: samples) ++ rest = Bytes.bigEndian Draw.size x.val ++
        (Bytes.bigEndian Draw.size y.val ++ (sampledBytes samples ++ rest)) := by
      simp [sampledBytes]
    have hfresh : points.any (·.x = x.val) = false := by
      rw [List.any_eq_false]
      intro q hq hqx
      have hdistinct := hnew.nodup
      rw [List.map_append] at hdistinct
      refine (List.nodup_append'.mp hdistinct).2.2 (List.mem_map_of_mem hq) ?_
      simp only [List.map_cons, SharePoint.x_ofField, of_decide_eq_true hqx, List.mem_cons_self]
    have hnext := ih (points ++ [.ofField x y]) (by simp at hlength ⊢; omega) (by simpa using hnew)
    rw [hbytes, drawPoints, if_neg (by simp at hlength; omega)]
    split
    · next fault hx => rw [drawElement_bigEndian] at hx; cases hx
    · next drawn rest' hx =>
      rw [drawElement_bigEndian] at hx
      cases hx
      rw [if_neg (Bool.eq_false_iff.mp hfresh)]
      split
      · next fault hy => rw [drawElement_bigEndian] at hy; cases hy
      · next drawn rest' hy =>
        rw [drawElement_bigEndian] at hy
        cases hy
        rw [← SharePoint.ofField, hnext, List.append_assoc]
        rfl

variable {n : Nat} {u v : Fin n → BaseField}

/-- The polynomial with a secret at zero and with sampled points. -/
def ofSamples (s : Int) (u y : Fin n → BaseField) : SharePolynomial :=
  ⟨.reduced 0 s :: List.ofFn fun i ↦ .ofField (u i) (y i), n + 1⟩

/-- Sampled points of different abscissas other than zero differ from each other and from the
secret. -/
theorem distinct_ofSamples (hu : Function.Injective u) (hu₀ : ∀ i, u i ≠ 0) (s : Int)
    (y : Fin n → BaseField) : Distinct (ofSamples s u y).points := by
  have habscissas : (ofSamples s u y).points.map SharePoint.abscissa = 0 :: List.ofFn u := by
    simp [ofSamples, List.map_ofFn, Function.comp_def]
  rw [Distinct, habscissas, List.nodup_cons, List.nodup_ofFn, List.mem_ofFn]
  exact ⟨not_exists.mpr hu₀, hu⟩

/-- The sampler makes the polynomial of the points that it reads. -/
theorem draw_sampledBytes (hu : Function.Injective u) (hu₀ : ∀ i, u i ≠ 0) (key : PrivateKey)
    (y : Fin n → BaseField) (rest : Bytes) :
    draw key (n + 1) (sampledBytes (List.ofFn fun i ↦ (u i, y i)) ++ rest) =
      .ok (ofSamples key.scalar.val u y, rest) := by
  have hpoints : (List.ofFn fun i ↦ (u i, y i)).map (fun p ↦ SharePoint.ofField p.1 p.2) =
      List.ofFn fun i ↦ .ofField (u i) (y i) := by
    rw [List.map_ofFn]
    rfl
  have hcount : [SharePoint.reduced 0 key.scalar.val].length +
      (List.ofFn fun i ↦ (u i, y i)).length = n + 1 := by
    simp [Nat.add_comm]
  have hdrawn := drawPoints_sampledBytes _ (List.ofFn fun i ↦ (u i, y i)) rest hcount
    (by rw [hpoints]; exact distinct_ofSamples hu hu₀ key.scalar.val y)
  rw [draw, hdrawn, hpoints]
  simp [Except.map, ofSamples]

/-- The polynomial of degree at most `n` with given values at zero and at `n` other places. -/
noncomputable def interpolant (s : BaseField) (u y : Fin n → BaseField) : Polynomial BaseField :=
  Lagrange.interpolate Finset.univ (Fin.cons 0 u) (Fin.cons s y : Fin (n + 1) → BaseField)

/-- The interpolant is the only polynomial of its degree with its values. -/
theorem eq_interpolant_iff (hu : Function.Injective u) (hu₀ : ∀ i, u i ≠ 0) {s : BaseField}
    {y : Fin n → BaseField} {f : Polynomial BaseField} :
    f = interpolant s u y ↔
      f.degree < (n + 1 : Nat) ∧ eval 0 f = s ∧ ∀ i, eval (u i) f = y i := by
  have hnodes : Function.Injective (Fin.cons 0 u : Fin (n + 1) → BaseField) :=
    Fin.cons_injective_iff.mpr ⟨not_exists.mpr hu₀, hu⟩
  have hiff := Lagrange.eq_interpolate_iff (s := Finset.univ) (f := f)
    (r := (Fin.cons s y : Fin (n + 1) → BaseField)) hnodes.injOn
  rw [interpolant, ← hiff, Finset.card_univ, Fintype.card_fin]
  simp [Fin.forall_fin_succ]

/-- The interpolant passes through the secret and the sampled points. -/
theorem passes_interpolant (hu : Function.Injective u) (hu₀ : ∀ i, u i ≠ 0) (s : Int)
    (y : Fin n → BaseField) : Passes (interpolant s u y) (ofSamples s u y).points := by
  obtain ⟨hdegree, hzero, hsamples⟩ := (eq_interpolant_iff hu hu₀).mp rfl
  constructor
  · simpa [ofSamples] using hdegree
  · intro p hp
    rcases List.mem_cons.mp hp with rfl | hp
    · simpa using hzero
    · obtain ⟨i, rfl⟩ := List.mem_ofFn.mp hp
      simpa using hsamples i

/-- The value of a polynomial with sampled points is that of the interpolant. -/
theorem valueAt_ofSamples (hu : Function.Injective u) (hu₀ : ∀ i, u i ≠ 0) (s : Int)
    (y : Fin n → BaseField) (x : BaseField) :
    (ofSamples s u y).valueAt x.val = .ok (eval x (interpolant s u y)).val := by
  have hvalue := valueAt_of_passes (n + 1) (distinct_ofSamples hu hu₀ s y)
    (passes_interpolant hu hu₀ s y) x.val
  rwa [Int.cast_natCast, ZMod.natCast_zmod_val] at hvalue

/-- Interpolating again from the values at other places gives the polynomial back. -/
theorem interpolant_eval_interpolant (hu : Function.Injective u) (hu₀ : ∀ i, u i ≠ 0)
    (hv : Function.Injective v) (hv₀ : ∀ i, v i ≠ 0) (s : BaseField) (y : Fin n → BaseField) :
    interpolant s v (fun j ↦ eval (v j) (interpolant s u y)) = interpolant s u y := by
  obtain ⟨hdegree, hzero, -⟩ := (eq_interpolant_iff (s := s) (y := y) hu hu₀).mp rfl
  symm
  apply (eq_interpolant_iff hv hv₀).mpr
  exact ⟨hdegree, hzero, fun j ↦ rfl⟩

/-- From the sampled ordinates to the values at the abscissas of the shares, and back. -/
noncomputable def sharesEquiv (hu : Function.Injective u) (hu₀ : ∀ i, u i ≠ 0)
    (hv : Function.Injective v) (hv₀ : ∀ i, v i ≠ 0) (s : BaseField) :
    Equiv.Perm (Fin n → BaseField) where
  toFun y j := eval (v j) (interpolant s u y)
  invFun z i := eval (u i) (interpolant s v z)
  left_inv y := by
    funext i
    dsimp only
    rw [interpolant_eval_interpolant hu hu₀ hv hv₀]
    exact ((eq_interpolant_iff hu hu₀).mp rfl).2.2 i
  right_inv z := by
    funext j
    dsimp only
    rw [interpolant_eval_interpolant hv hv₀ hu hu₀]
    exact ((eq_interpolant_iff hv hv₀).mp rfl).2.2 j

/-- The sampler makes the polynomial of a key and of the points that it reads. For every secret, the
map from the ordinates of these points to the values at as many abscissas of shares is a bijection,
so any shares one fewer than the threshold come from exactly one choice of ordinates. -/
theorem shares_hide_secret (hu : Function.Injective u) (hu₀ : ∀ i, u i ≠ 0)
    (hv : Function.Injective v) (hv₀ : ∀ i, v i ≠ 0) :
    (∀ (key : PrivateKey) (y : Fin n → BaseField) (rest : Bytes),
      draw key (n + 1) (sampledBytes (List.ofFn fun i ↦ (u i, y i)) ++ rest) =
        .ok (ofSamples key.scalar.val u y, rest)) ∧
    ∀ s : Int,
      (∃ φ : Equiv.Perm (Fin n → BaseField), ∀ y j,
        (ofSamples s u y).valueAt (v j).val = .ok (φ y j).val) ∧
      ∀ z : Fin n → BaseField, ∃! y, ∀ j,
        (ofSamples s u y).valueAt (v j).val = .ok (z j).val := by
  refine ⟨draw_sampledBytes hu hu₀, fun s ↦ ?_⟩
  have hshares (y : Fin n → BaseField) (j : Fin n) : (ofSamples s u y).valueAt (v j).val =
      .ok (sharesEquiv hu hu₀ hv hv₀ s y j).val := valueAt_ofSamples hu hu₀ s y (v j)
  refine ⟨⟨sharesEquiv hu hu₀ hv hv₀ s, hshares⟩, fun z ↦ ?_⟩
  refine ⟨(sharesEquiv hu hu₀ hv hv₀ s).symm z, fun j ↦ ?_, fun y hy ↦ ?_⟩
  · rw [hshares, Equiv.apply_symm_apply]
  · rw [Equiv.eq_symm_apply]
    funext j
    apply ZMod.val_injective
    exact Except.ok.inj ((hshares y j).symm.trans (hy j))

/-- Two shares of a threshold of three, one of them at an abscissa that was sampled, come from
exactly one choice of the sampled ordinates for a secret of zero, and from exactly one for a secret
of one. -/
theorem shares_hide_secret_of_three :
    Function.Injective (![1, 2] : Fin 2 → BaseField) ∧
    Function.Injective (![2, 3] : Fin 2 → BaseField) ∧
    (∃! y : Fin 2 → BaseField, ∀ j, (ofSamples 0 ![1, 2] y).valueAt
      ((![2, 3] : Fin 2 → BaseField) j).val = .ok ((![8, 9] : Fin 2 → BaseField) j).val) ∧
    ∃! y : Fin 2 → BaseField, ∀ j, (ofSamples 1 ![1, 2] y).valueAt
      ((![2, 3] : Fin 2 → BaseField) j).val = .ok ((![8, 9] : Fin 2 → BaseField) j).val := by
  have hu : Function.Injective (![1, 2] : Fin 2 → BaseField) := by decide +kernel
  have hv : Function.Injective (![2, 3] : Fin 2 → BaseField) := by decide +kernel
  have h := shares_hide_secret hu (by decide +kernel) hv (by decide +kernel)
  exact ⟨hu, hv, (h.2 0).2 ![8, 9], (h.2 1).2 ![8, 9]⟩

end SharePolynomial

end Secp
