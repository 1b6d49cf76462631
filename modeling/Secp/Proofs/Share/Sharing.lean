import Secp.Proofs.Curve.Scalar
import Secp.Proofs.Outcome
import Secp.Proofs.Share.Interpolation
import Secp.Share.KeyShares

/-!
# Enough shares give back the key

The points that are drawn have reduced abscissas that differ, so a polynomial passes through those
that the key is hidden in, and the shares lie on it. Any of the shares, as many as the threshold,
determine this polynomial, and its value at zero is the key.
-/

namespace Secp

open Curve (BaseField)
open Polynomial (eval)

/-- Points with reduced abscissas that differ. -/
structure Spread (points : List SharePoint) : Prop where
  nodup : (points.map SharePoint.x).Nodup
  range : ∀ p ∈ points, 0 ≤ p.x ∧ p.x < sparsePrime

/-- Reduced integers are told apart in the field. -/
theorem eq_of_intCast_eq {a b : Int} (ha : 0 ≤ a ∧ a < sparsePrime) (hb : 0 ≤ b ∧ b < sparsePrime)
    (h : (a : BaseField) = b) : a = b := by
  have hmod : a % sparsePrime = b % sparsePrime :=
    (ZMod.intCast_eq_intCast_iff a b sparsePrime).mp h
  rwa [Int.emod_eq_of_lt ha.1 ha.2, Int.emod_eq_of_lt hb.1 hb.2] at hmod

/-- Reduced abscissas that differ do so in the field. -/
theorem Spread.distinct {points : List SharePoint} (h : Spread points) : Distinct points := by
  have hmap : points.map SharePoint.abscissa =
      (points.map SharePoint.x).map (Int.cast : Int → BaseField) := by
    rw [List.map_map]
    rfl
  rw [Distinct, hmap]
  refine List.Nodup.map_on ?_ h.nodup
  intro a ha b hb hab
  obtain ⟨p, hp, rfl⟩ := List.mem_map.mp ha
  obtain ⟨q, hq, rfl⟩ := List.mem_map.mp hb
  exact eq_of_intCast_eq (h.range p hp) (h.range q hq) hab

/-- A point of a reduced abscissa that is new can be added. -/
theorem Spread.append {points : List SharePoint} {x : Nat} (h : Spread points)
    (hx : x < sparsePrime) (hnew : points.any (·.x = x) = false) (y : Int) :
    Spread (points ++ [.reduced x y]) := by
  have habscissa : (SharePoint.reduced x y).x = x := Int.emod_eq_of_lt (by omega) (by omega)
  constructor
  · rw [List.map_append, List.map_singleton, habscissa]
    refine h.nodup.append (List.nodup_singleton _) ?_
    rw [List.disjoint_singleton]
    intro hmem
    obtain ⟨p, hp, hpx⟩ := List.mem_map.mp hmem
    exact absurd (List.any_eq_false.mp hnew p hp) (by simp [hpx])
  · intro p hp
    rcases List.mem_append.mp hp with hp | hp
    · exact h.range p hp
    · rw [List.mem_singleton.mp hp, habscissa]
      omega

/-- Some of the points are spread if all are. -/
theorem Spread.subset {points chosen : List SharePoint} (h : Spread points)
    (hsubset : chosen ⊆ points) (hnodup : chosen.Nodup) : Spread chosen := by
  refine ⟨?_, fun p hp ↦ h.range p (hsubset hp)⟩
  refine hnodup.map_on fun p hp q hq hpq ↦ ?_
  exact List.inj_on_of_nodup_map h.nodup (hsubset hp) (hsubset hq) hpq

namespace SharePolynomial

/-- A field element that is drawn is reduced. -/
theorem lt_of_drawElement {stream rest : Bytes} {n : Nat}
    (h : drawElement stream = .ok (n, rest)) : n < sparsePrime := by
  unfold drawElement at h
  cases hn : Draw.number stream with
  | error fault => rw [hn] at h; cases h
  | ok pair =>
    rw [hn] at h
    cases h
    exact Nat.mod_lt _ (by decide)

/-- Points are drawn behind those there are, up to the threshold, and stay spread. -/
theorem spread_of_drawPoints {threshold : Nat} {points drawn : List SharePoint}
    {stream rest : Bytes} (h : drawPoints threshold points stream = .ok (drawn, rest))
    (hspread : Spread points) (hlength : points.length ≤ threshold) :
    Spread drawn ∧ drawn.length = threshold ∧ points <+: drawn := by
  fun_induction drawPoints threshold points stream with
  | case1 points stream hdone =>
    cases h
    exact ⟨hspread, by omega, List.prefix_rfl⟩
  | case2 points stream hmore fault hx => cases h
  | case3 points stream hmore x rest' hx hold ih => exact ih h hspread hlength
  | case4 points stream hmore x rest' hx hnew fault hy => cases h
  | case5 points stream hmore x rest' hx hnew y rest'' hy ih =>
    have hadd := hspread.append (lt_of_drawElement hx) (Bool.not_eq_true _ ▸ hnew) y
    obtain ⟨hdrawn, hcount, hfront⟩ := ih h hadd (by simp; omega)
    exact ⟨hdrawn, hcount, (List.prefix_append _ _).trans hfront⟩

/-- The polynomial that a key is hidden in passes through the key at zero and has the threshold for
the number of its points. -/
theorem exists_passes_of_draw {key : PrivateKey} {threshold : Nat} {stream rest : Bytes}
    {f : SharePolynomial} (hthreshold : 1 ≤ threshold)
    (h : draw key threshold stream = .ok (f, rest)) :
    f.threshold = threshold ∧ Distinct f.points ∧ f.points.length = threshold ∧
      ∃ g, Passes g f.points ∧ eval 0 g = key.scalar.val := by
  unfold draw at h
  cases hpoints : drawPoints threshold [.reduced 0 key.scalar.val] stream with
  | error fault => rw [hpoints] at h; cases h
  | ok pair =>
    rw [hpoints] at h
    cases h
    have hstart : Spread [.reduced 0 key.scalar.val] := by
      refine ⟨List.nodup_singleton _, fun p hp ↦ ?_⟩
      rw [List.mem_singleton.mp hp]
      exact ⟨Int.emod_nonneg _ (by decide), Int.emod_lt_of_pos _ (by decide)⟩
    obtain ⟨hspread, hcount, hfront⟩ := spread_of_drawPoints hpoints hstart hthreshold
    obtain ⟨g, hg⟩ := hspread.distinct.exists_passes
    refine ⟨Nat.max_eq_left hthreshold, hspread.distinct, hcount, g, hg, ?_⟩
    have hzero := hg.eval_eq _ (hfront.subset (List.mem_singleton_self _))
    simpa using hzero

/-- Points repeat an abscissa unless their abscissas differ. -/
theorem repeats_eq_false {points : List SharePoint} (h : (points.map SharePoint.x).Nodup) :
    repeats points = false := by
  induction points with
  | nil => rfl
  | cons p ps ih =>
    obtain ⟨hnew, hrest⟩ := List.nodup_cons.mp h
    rw [repeats, ih hrest, Bool.or_false, List.any_eq_false]
    intro q hq
    rw [decide_eq_true_eq]
    exact fun hqp ↦ hnew (hqp ▸ List.mem_map_of_mem hq)

end SharePolynomial

/-- Shares of a polynomial: spread points on it, none of them at zero. -/
structure SharesOf (g : Polynomial BaseField) (points : List SharePoint) : Prop where
  spread : Spread points
  ne_zero : ∀ p ∈ points, p.x ≠ 0
  eval_eq : ∀ p ∈ points, eval p.abscissa g = p.ordinate

/-- Some of the shares of a polynomial are shares of it. -/
theorem SharesOf.subset {g : Polynomial BaseField} {points chosen : List SharePoint}
    (h : SharesOf g points) (hsubset : chosen ⊆ points) (hnodup : chosen.Nodup) :
    SharesOf g chosen :=
  ⟨h.spread.subset hsubset hnodup, fun p hp ↦ h.ne_zero p (hsubset hp),
    fun p hp ↦ h.eval_eq p (hsubset hp)⟩

namespace KeyShares

/-- Shares are drawn behind those there are, up to their number, and lie on the polynomial. -/
theorem sharesOf_of_drawPoints {f : SharePolynomial} {g : Polynomial BaseField} {total : Nat}
    {points drawn : List SharePoint} {stream rest : Bytes}
    (h : drawPoints f total points stream = .ok (drawn, rest)) (hdistinct : Distinct f.points)
    (hg : Passes g f.points) (hpoints : SharesOf g points) (hlength : points.length ≤ total) :
    SharesOf g drawn ∧ drawn.length = total := by
  fun_induction drawPoints f total points stream with
  | case1 points stream hdone =>
    cases h
    exact ⟨hpoints, by omega⟩
  | case2 points stream hmore fault hx => cases h
  | case3 points stream hmore x rest' hx hold ih => exact ih h hpoints hlength
  | case4 points stream hmore x rest' hx hnew fault hy => cases h
  | case5 points stream hmore x rest' hx hnew y hy ih =>
    obtain ⟨hzero, hfresh⟩ := not_or.mp hnew
    have hlt := SharePolynomial.lt_of_drawElement hx
    have hvalue := SharePolynomial.valueAt_of_passes f.threshold hdistinct hg x
    cases hy.symm.trans hvalue
    refine ih h ⟨hpoints.spread.append hlt (Bool.not_eq_true _ ▸ hfresh) _, ?_, ?_⟩ (by simp; omega)
    · intro p hp
      rcases List.mem_append.mp hp with hp | hp
      · exact hpoints.ne_zero p hp
      · rw [List.mem_singleton.mp hp]
        change (x : Int) % sparsePrime ≠ 0
        rw [Int.emod_eq_of_lt (by omega) (by omega)]
        omega
    · intro p hp
      rcases List.mem_append.mp hp with hp | hp
      · exact hpoints.eval_eq p hp
      · rw [List.mem_singleton.mp hp]
        simp

/-- The shares that a key is split into lie on a polynomial of degree below the threshold whose
value at zero is the key. -/
theorem exists_sharesOf_of_split {key : PrivateKey} {threshold total : Nat} {stream rest : Bytes}
    {shares : KeyShares} (h : split key threshold total stream = .ok (shares, rest)) :
    2 ≤ threshold ∧ shares.threshold = threshold ∧ shares.points.length = total ∧
      ∃ g : Polynomial BaseField, g.degree < threshold ∧ eval 0 g = key.scalar.val ∧
        SharesOf g shares.points := by
  unfold split at h
  split at h
  · cases h
  · next hrange =>
    obtain ⟨⟨f, rest'⟩, hdraw, h⟩ := bind_eq_ok_iff.mp h
    obtain ⟨⟨points, rest''⟩, hpoints, h⟩ := bind_eq_ok_iff.mp h
    cases h
    obtain ⟨hthreshold, hdistinct, hcount, g, hg, hzero⟩ :=
      SharePolynomial.exists_passes_of_draw (by omega) hdraw
    have hempty : SharesOf g [] := ⟨⟨List.nodup_nil, nofun⟩, nofun, nofun⟩
    obtain ⟨hshares, htotal⟩ :=
      sharesOf_of_drawPoints hpoints hdistinct hg hempty (Nat.zero_le total)
    exact ⟨by omega, hthreshold, htotal, g, hcount ▸ hg.degree_lt, hzero, hshares⟩

/-- As many shares as the threshold, or more, give back the key. -/
theorem join_eq_ok {key : PrivateKey} {threshold : Nat} {g : Polynomial BaseField}
    {chosen : List SharePoint} (hthreshold : 1 ≤ threshold) (hdegree : g.degree < threshold)
    (hzero : eval 0 g = key.scalar.val) (hchosen : SharesOf g chosen)
    (henough : threshold ≤ chosen.length) : join ⟨chosen, threshold⟩ = .ok key := by
  have hfirst : Spread (chosen.take threshold) :=
    hchosen.spread.subset (List.take_subset _ _)
      (hchosen.spread.nodup.of_map _ |>.sublist (List.take_sublist _ _))
  have hpoly : SharePolynomial.ofPoints chosen threshold =
      .ok ⟨chosen.take threshold, threshold⟩ := by
    rw [SharePolynomial.ofPoints, if_neg (by omega),
      SharePolynomial.repeats_eq_false hfirst.nodup]
    rfl
  have hpasses : Passes g (chosen.take threshold) := by
    refine ⟨?_, fun p hp ↦ hchosen.eval_eq p (List.mem_of_mem_take hp)⟩
    rwa [List.length_take, Nat.min_eq_left henough]
  have hvalue := SharePolynomial.valueAt_of_passes threshold hfirst.distinct hpasses 0
  rw [Int.cast_zero, hzero, ZMod.val_cast_of_lt (key.scalar.lt.trans (by decide))] at hvalue
  have hkey : PrivateKey.ofInt key.scalar.val = .ok key := by
    rw [PrivateKey.ofInt, Curve.Scalar.ofInt_eq_ok_iff.mpr rfl]
    rfl
  rw [join, secret, hpoly]
  change SharePolynomial.valueAt _ 0 >>= _ = _
  rw [hvalue]
  exact hkey

/-- Fewer shares than the threshold are refused. -/
theorem join_eq_error {threshold : Nat} {chosen : List SharePoint}
    (hfew : chosen.length < threshold) :
    join ⟨chosen, threshold⟩ = .error (.insufficientShares chosen.length threshold) := by
  rw [join, secret, SharePolynomial.ofPoints, if_pos (.inl hfew)]
  rfl

/-- A key that is split into shares gives as many as were asked for, with reduced abscissas that
differ and are not zero. Any of them, in any order, give back the key if they are at least as many
as the threshold, and are refused if they are fewer. -/
theorem shares_rebuild {key : PrivateKey} {threshold total : Nat} {stream rest : Bytes}
    {shares : KeyShares} (h : split key threshold total stream = .ok (shares, rest)) :
    shares.threshold = threshold ∧ shares.points.length = total ∧
      (shares.points.map SharePoint.x).Nodup ∧
      (∀ p ∈ shares.points, 0 < p.x ∧ p.x < sparsePrime) ∧
      ∀ chosen : List SharePoint, chosen ⊆ shares.points → chosen.Nodup →
        (threshold ≤ chosen.length → join ⟨chosen, threshold⟩ = .ok key) ∧
        (chosen.length < threshold →
          join ⟨chosen, threshold⟩ = .error (.insufficientShares chosen.length threshold)) := by
  obtain ⟨htwo, hthreshold, htotal, g, hdegree, hzero, hshares⟩ := exists_sharesOf_of_split h
  refine ⟨hthreshold, htotal, hshares.spread.nodup, ?_, ?_⟩
  · intro p hp
    have hrange := hshares.spread.range p hp
    exact ⟨lt_of_le_of_ne hrange.1 (hshares.ne_zero p hp).symm, hrange.2⟩
  · intro chosen hsubset hnodup
    exact ⟨join_eq_ok (by omega) hdegree hzero (hshares.subset hsubset hnodup), join_eq_error⟩

/-- The key one is split into three shares, the last two of which give it back in the reverse order.
Three draws are passed over: zero, where the key already stands, zero for a share, and an abscissa
that another share has. -/
theorem shares_rebuild_two_of_three :
    ∃ shares rest, split ⟨⟨1, by decide, by decide⟩⟩ 2 3
        ([0, 7, 9, 0, 1, 1, 2, 3].flatMap (Bytes.bigEndian 32)) = .ok (shares, rest) ∧
      shares.points.length = 3 ∧
      join ⟨(shares.points.drop 1).reverse, 2⟩ = .ok ⟨⟨1, by decide, by decide⟩⟩ := by
  have hsplit : (split ⟨⟨1, by decide, by decide⟩⟩ 2 3
      ([0, 7, 9, 0, 1, 1, 2, 3].flatMap (Bytes.bigEndian 32))).isOk = true := by decide +kernel
  cases h : split ⟨⟨1, by decide, by decide⟩⟩ 2 3
      ([0, 7, 9, 0, 1, 1, 2, 3].flatMap (Bytes.bigEndian 32)) with
  | error fault =>
    rw [h] at hsplit
    cases hsplit
  | ok pair =>
    obtain ⟨shares, rest⟩ := pair
    obtain ⟨-, htotal, hnodup, -, hjoin⟩ := shares_rebuild h
    have hsubset : (shares.points.drop 1).reverse ⊆ shares.points :=
      (List.reverse_subset.mpr (List.drop_subset 1 _))
    have hchosen : (shares.points.drop 1).reverse.Nodup :=
      List.nodup_reverse.mpr ((hnodup.of_map _).sublist (List.drop_sublist 1 _))
    exact ⟨shares, rest, rfl, htotal, (hjoin _ hsubset hchosen).1 (by simp [htotal])⟩

end KeyShares

end Secp
