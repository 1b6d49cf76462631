import Secp.Curve.Encoding
import Secp.Proofs.Bytes
import Secp.Proofs.Curve.Abscissa

/-!
# Points as byte strings, exactly

`IsCode` says which byte strings encode a point in a form, by their bytes alone: their lead byte and
length, coordinates below the prime, and a condition on the coordinates that makes them those of a
point of the curve. They are the encodings of the points of the curve, and they are what is decoded.
As no point has ordinate zero, the parity picks one of the two points of an abscissa.
-/

namespace Secp.Curve.Affine

/-- The forms in which a finite point is encoded. -/
inductive Form where
  | compressed
  | uncompressed
  | hybrid
  deriving DecidableEq, Repr

/-- The encoding in a form. -/
def encodeAs : Form → Affine → Bytes
  | .compressed => encode true
  | .uncompressed => encode false
  | .hybrid => encodeHybrid

/-- The byte strings that encode a point. Infinity is the same in every form. -/
inductive IsCode : Form → Bytes → Prop
  | infinity (form : Form) : IsCode form [0x00]
  | compressed (odd : Bool) {x : Bytes} (length_x : x.length = 32)
    (lt_x : Bytes.toNat x < sparsePrime) (square : IsSquare ((Bytes.toNat x : BaseField) ^ 3 + 7)) :
    IsCode .compressed ((if odd then 0x03 else 0x02) :: x)
  | uncompressed {x y : Bytes} (length_x : x.length = 32) (length_y : y.length = 32)
    (lt_x : Bytes.toNat x < sparsePrime) (lt_y : Bytes.toNat y < sparsePrime)
    (equation : (Bytes.toNat y : BaseField) ^ 2 = (Bytes.toNat x : BaseField) ^ 3 + 7) :
    IsCode .uncompressed (0x04 :: (x ++ y))
  | hybrid {x y : Bytes} (length_x : x.length = 32) (length_y : y.length = 32)
    (lt_x : Bytes.toNat x < sparsePrime) (lt_y : Bytes.toNat y < sparsePrime)
    (equation : (Bytes.toNat y : BaseField) ^ 2 = (Bytes.toNat x : BaseField) ^ 3 + 7) :
    IsCode .hybrid ((if Bytes.toNat y % 2 = 1 then 0x07 else 0x06) :: (x ++ y))

/-- A coordinate takes 32 bytes. -/
@[simp] theorem length_coordinateBytes (v : Fp) : (coordinateBytes v).length = 32 :=
  Bytes.length_bigEndian 32 v.val

/-- The bytes of a coordinate denote it. -/
@[simp] theorem toNat_coordinateBytes (v : Fp) : Bytes.toNat (coordinateBytes v) = v.val := by
  have hlt : v.val < 256 ^ 32 := v.val_lt.trans (by decide)
  exact Bytes.toNat_bigEndian_of_lt hlt

/-- The bytes of a coordinate are the 32 bytes that denote it. -/
theorem eq_coordinateBytes_iff {b : Bytes} (hlength : b.length = 32) {v : Fp} :
    b = coordinateBytes v ↔ Bytes.toNat b = v.val := by
  rw [← toNat_coordinateBytes, Bytes.toNat_inj (by rw [hlength, length_coordinateBytes])]

/-- The bytes of a number below the prime are those of its residue. -/
theorem coordinateBytes_ofZMod {b : Bytes} (hlength : b.length = 32)
    (hlt : Bytes.toNat b < sparsePrime) :
    coordinateBytes (.ofZMod (Bytes.toNat b : BaseField)) = b := by
  refine ((eq_coordinateBytes_iff hlength).mpr ?_).symm
  exact (ZMod.val_cast_of_lt hlt).symm

/-- An integer is accepted as the coordinate that it is the representative of. -/
theorem coordinate_eq_ok_iff_val {v : Int} {x : Fp} : coordinate v = .ok x ↔ (x.val : Int) = v := by
  have hlt : x.val < sparsePrime := x.val_lt
  rw [coordinate_eq_ok_iff]
  constructor
  · rintro ⟨⟨hnonneg, hv⟩, rfl⟩
    change (Modulus.sparse.reduceInt v : Int) = v
    rw [Modulus.reduceInt_eq_emod]
    exact Int.emod_eq_of_lt hnonneg hv
  · rintro rfl
    refine ⟨by omega, ?_⟩
    rw [← Residue.toZMod_inj, Residue.toZMod_ofInt, Int.cast_natCast]
    rfl

/-- The point with given coordinates is accepted when it is on the curve. -/
theorem ofCoordinates_eq_ok_iff {v w : Int} {p : Affine} :
    ofCoordinates v w = .ok p ↔
      ∃ x y, p = finite x y ∧ p.onCurve = true ∧ (x.val : Int) = v ∧ (y.val : Int) = w := by
  unfold ofCoordinates
  simp only [bind_eq_ok_iff, coordinate_eq_ok_iff_val]
  constructor
  · rintro ⟨x, hx, y, hy, h⟩
    split at h
    · next hcurve =>
      cases h
      exact ⟨x, y, rfl, hcurve, hx, hy⟩
    · cases h
  · rintro ⟨x, y, rfl, hcurve, hx, hy⟩
    exact ⟨x, hx, y, hy, if_pos hcurve⟩

/-- The point with a given abscissa and parity is found when it is on the curve. -/
theorem ofAbscissa_eq_ok_iff_val {v : Nat} {odd : Bool} {p : Affine} :
    ofAbscissa v odd = .ok p ↔
      ∃ x y, p = finite x y ∧ p.onCurve = true ∧ x.val = v ∧ y.isOdd = odd := by
  rw [ofAbscissa_eq_ok_iff]
  constructor
  · rintro ⟨⟨-, hlt⟩, g, rfl, hg⟩
    cases g with
    | zero => cases hg
    | some x y h =>
      obtain ⟨rfl, hodd⟩ := Prod.mk.inj (Option.some.inj hg)
      refine ⟨_, _, rfl, onCurve_ofGroup _, ?_, hodd⟩
      rw [Int.cast_natCast, Residue.val_ofZMod]
      exact ZMod.val_cast_of_lt (Int.ofNat_lt.mp hlt)
  · rintro ⟨x, y, rfl, hcurve, rfl, rfl⟩
    have hlt : x.val < sparsePrime := x.val_lt
    have hpoint := onCurve_finite_iff.mp hcurve
    refine ⟨by omega, .some _ _ hpoint, ?_, ?_⟩
    · rw [ofGroup, Residue.ofZMod_toZMod, Residue.ofZMod_toZMod]
    · rw [abscissaAndParity, Residue.ofZMod_toZMod, Int.cast_natCast]
      rfl

/-- How 33 bytes with a lead byte of the compressed form are decoded. -/
theorem decode_compressed (odd : Bool) {x : Bytes} (hx : x.length = 32) :
    decode ((if odd then 0x03 else 0x02) :: x) = ofAbscissa (Bytes.toNat x) odd := by
  cases odd <;> simp [decode, hx]

/-- How 65 bytes with the lead byte of the uncompressed form are decoded. -/
theorem decode_uncompressed {x y : Bytes} (hx : x.length = 32) (hy : y.length = 32) :
    decode (0x04 :: (x ++ y)) = ofCoordinates (Bytes.toNat x) (Bytes.toNat y) := by
  simp [decode, hx, hy]

/-- How 65 bytes with a lead byte of the hybrid form are decoded. -/
theorem decode_hybrid (odd : Bool) {x y : Bytes} (hx : x.length = 32) (hy : y.length = 32) :
    decode ((if odd then 0x07 else 0x06) :: (x ++ y)) =
      if decide (Bytes.toNat y % 2 = 1) = odd then ofCoordinates (Bytes.toNat x) (Bytes.toNat y)
      else .error (.invalidEncoding .hybridParity) := by
  cases odd <;> rcases Nat.mod_two_eq_zero_or_one (Bytes.toNat y) with hparity | hparity <;>
    simp [decode, hx, hy, hparity]

/-- What is decoded has a lead byte and a length that belong together. -/
theorem layout_of_decode {b : Bytes} {p : Affine} (h : decode b = .ok p) :
    (b = [0x00] ∧ p = infinity) ∨
      (∃ (odd : Bool) (x : Bytes), x.length = 32 ∧ b = (if odd then 0x03 else 0x02) :: x) ∨
      ∃ x y : Bytes, x.length = 32 ∧ y.length = 32 ∧
        (b = 0x04 :: (x ++ y) ∨ ∃ odd : Bool, b = (if odd then 0x07 else 0x06) :: (x ++ y)) := by
  cases b with
  | nil => cases h
  | cons lead rest =>
    rw [decode] at h
    split at h
    · next hlead =>
      cases h
      obtain ⟨rfl, hrest⟩ := hlead
      exact .inl ⟨by rw [List.eq_nil_of_length_eq_zero hrest], rfl⟩
    · split at h
      · next hlead =>
        obtain ⟨rfl | rfl, hrest⟩ := hlead
        · exact .inr (.inl ⟨false, rest, hrest, rfl⟩)
        · exact .inr (.inl ⟨true, rest, hrest, rfl⟩)
      · split at h
        · next hlead =>
          obtain ⟨hlead, hrest⟩ := hlead
          refine .inr (.inr ⟨rest.take 32, rest.drop 32, ?_, ?_, ?_⟩)
          · rw [List.length_take]
            omega
          · rw [List.length_drop]
            omega
          · rw [List.take_append_drop]
            rcases hlead with rfl | rfl | rfl
            · exact .inl rfl
            · exact .inr ⟨false, rfl⟩
            · exact .inr ⟨true, rfl⟩
        · cases h

/-- A byte string is decoded as a point exactly when the point is on the curve and the bytes are its
encoding in some form. -/
theorem decode_eq_ok_iff {b : Bytes} {p : Affine} :
    decode b = .ok p ↔ p.onCurve = true ∧ ∃ form, encodeAs form p = b := by
  constructor
  · intro h
    rcases layout_of_decode h with ⟨rfl, rfl⟩ | ⟨odd, x, hx, rfl⟩ | ⟨x, y, hx, hy, rfl | ⟨odd, rfl⟩⟩
    · exact ⟨rfl, .compressed, rfl⟩
    · rw [decode_compressed odd hx] at h
      obtain ⟨u, v, rfl, hcurve, hu, rfl⟩ := ofAbscissa_eq_ok_iff_val.mp h
      obtain rfl := (eq_coordinateBytes_iff hx).mpr hu.symm
      exact ⟨hcurve, .compressed, rfl⟩
    · rw [decode_uncompressed hx hy] at h
      obtain ⟨u, v, rfl, hcurve, hu, hv⟩ := ofCoordinates_eq_ok_iff.mp h
      obtain rfl := (eq_coordinateBytes_iff hx).mpr (Int.ofNat_inj.mp hu).symm
      obtain rfl := (eq_coordinateBytes_iff hy).mpr (Int.ofNat_inj.mp hv).symm
      exact ⟨hcurve, .uncompressed, rfl⟩
    · rw [decode_hybrid odd hx hy] at h
      split at h
      · next hparity =>
        obtain ⟨u, v, rfl, hcurve, hu, hv⟩ := ofCoordinates_eq_ok_iff.mp h
        obtain rfl := (eq_coordinateBytes_iff hx).mpr (Int.ofNat_inj.mp hu).symm
        obtain rfl := (eq_coordinateBytes_iff hy).mpr (Int.ofNat_inj.mp hv).symm
        rw [toNat_coordinateBytes] at hparity
        refine ⟨hcurve, .hybrid, ?_⟩
        rw [← hparity]
        rfl
      · cases h
  · rintro ⟨hcurve, form, rfl⟩
    cases p with
    | infinity => cases form <;> rfl
    | finite u v =>
      cases form with
      | compressed =>
        refine (decode_compressed v.isOdd (length_coordinateBytes u)).trans ?_
        exact ofAbscissa_eq_ok_iff_val.mpr ⟨u, v, rfl, hcurve, (toNat_coordinateBytes u).symm, rfl⟩
      | uncompressed =>
        refine (decode_uncompressed (length_coordinateBytes u) (length_coordinateBytes v)).trans ?_
        rw [toNat_coordinateBytes, toNat_coordinateBytes]
        exact ofCoordinates_eq_ok_iff.mpr ⟨u, v, rfl, hcurve, rfl, rfl⟩
      | hybrid =>
        have hread := decode_hybrid v.isOdd (length_coordinateBytes u) (length_coordinateBytes v)
        refine hread.trans ?_
        have hparity : decide (v.val % 2 = 1) = v.isOdd := rfl
        rw [toNat_coordinateBytes, toNat_coordinateBytes, if_pos hparity]
        exact ofCoordinates_eq_ok_iff.mpr ⟨u, v, rfl, hcurve, rfl, rfl⟩

/-- A pair of field elements that satisfies the equation is a point of the curve. -/
private theorem onCurve_ofZMod {x y : BaseField} (h : y ^ 2 = x ^ 3 + 7) :
    (finite (.ofZMod x) (.ofZMod y)).onCurve = true :=
  onCurve_ofGroup (.some _ _ (nonsingular_iff.mpr h))

/-- The hybrid encoding of a finite point, with the parity read off the representative. -/
private theorem encodeHybrid_finite (x y : Fp) :
    encodeHybrid (finite x y) =
      (if y.val % 2 = 1 then 0x07 else 0x06) :: (coordinateBytes x ++ coordinateBytes y) := by
  simp only [encodeHybrid, Residue.isOdd, beq_iff_eq]

/-- The codes are the encodings of the points of the curve. -/
theorem isCode_iff {form : Form} {b : Bytes} :
    IsCode form b ↔ ∃ p : Affine, p.onCurve = true ∧ encodeAs form p = b := by
  constructor
  · intro h
    cases h with
    | infinity => exact ⟨infinity, rfl, by cases form <;> rfl⟩
    | compressed odd hx hlt hsquare =>
      obtain ⟨z, hz⟩ := hsquare
      have hroot : curve.Nonsingular (_ : BaseField) (Residue.ofZMod z : Fp).toZMod :=
        nonsingular_iff.mpr (by rw [Residue.toZMod_ofZMod, hz, sq])
      obtain ⟨hpoint, hodd⟩ := nonsingular_withParity hroot odd
      refine ⟨_, onCurve_ofGroup (.some _ _ hpoint), ?_⟩
      change (if (Residue.ofZMod _ : Fp).isOdd = true then 0x03 else 0x02) :: coordinateBytes _ = _
      rw [Residue.ofZMod_toZMod, hodd, coordinateBytes_ofZMod hx hlt]
    | uncompressed hx hy hltx hlty hequation =>
      refine ⟨_, onCurve_ofZMod hequation, ?_⟩
      change 0x04 :: (coordinateBytes _ ++ coordinateBytes _) = _
      rw [coordinateBytes_ofZMod hx hltx, coordinateBytes_ofZMod hy hlty]
    | @hybrid x y hx hy hltx hlty hequation =>
      have hval : (Bytes.toNat y : BaseField).val = Bytes.toNat y := ZMod.val_cast_of_lt hlty
      refine ⟨_, onCurve_ofZMod hequation, ?_⟩
      rw [encodeAs, encodeHybrid_finite, Residue.val_ofZMod, hval, coordinateBytes_ofZMod hx hltx,
        coordinateBytes_ofZMod hy hlty]
  · rintro ⟨p, hcurve, rfl⟩
    cases p with
    | infinity => cases form <;> exact .infinity _
    | finite x y =>
      have hequation := nonsingular_iff.mp (onCurve_finite_iff.mp hcurve)
      have hx := toNat_coordinateBytes x
      have hy := toNat_coordinateBytes y
      have hltx : Bytes.toNat (coordinateBytes x) < sparsePrime := hx.trans_lt x.val_lt
      have hlty : Bytes.toNat (coordinateBytes y) < sparsePrime := hy.trans_lt y.val_lt
      have hbytes : (Bytes.toNat (coordinateBytes y) : BaseField) ^ 2 =
          (Bytes.toNat (coordinateBytes x) : BaseField) ^ 3 + 7 := by
        rw [hx, hy]
        exact hequation
      cases form with
      | compressed =>
        refine .compressed y.isOdd (length_coordinateBytes x) hltx ⟨y.toZMod, ?_⟩
        rw [hx, ← sq]
        exact hequation.symm
      | uncompressed =>
        exact .uncompressed (length_coordinateBytes x) (length_coordinateBytes y) hltx hlty hbytes
      | hybrid =>
        have hcode :=
          IsCode.hybrid (length_coordinateBytes x) (length_coordinateBytes y) hltx hlty hbytes
        rwa [hy, ← encodeHybrid_finite] at hcode

/-- Decoding gives back every point of the curve from its encoding in every form. It accepts exactly
the codes; what it gives is on the curve, is encoded in the same form by the same bytes, and has the
parity that a compressed code asks for. -/
theorem encodings_exact :
    (∀ (form : Form) (p : Affine), p.onCurve = true → decode (encodeAs form p) = .ok p) ∧
      (∀ b, (∃ p, decode b = .ok p) ↔ ∃ form, IsCode form b) ∧
      ∀ b p, decode b = .ok p →
        p.onCurve = true ∧ (∀ form, IsCode form b → encodeAs form p = b) ∧
          (IsCode .compressed b → p.y.isOdd = decide (b.head? = some 0x03)) := by
  have hsame {form : Form} {b : Bytes} {p : Affine} (h : decode b = .ok p) (hcode : IsCode form b) :
      encodeAs form p = b := by
    obtain ⟨q, hcurve, hq⟩ := isCode_iff.mp hcode
    cases h.symm.trans (decode_eq_ok_iff.mpr ⟨hcurve, form, hq⟩)
    exact hq
  refine ⟨?_, ?_, ?_⟩
  · intro form p hcurve
    exact decode_eq_ok_iff.mpr ⟨hcurve, form, rfl⟩
  · intro b
    simp only [decode_eq_ok_iff, isCode_iff]
    exact ⟨fun ⟨p, hcurve, form, h⟩ ↦ ⟨form, p, hcurve, h⟩,
      fun ⟨form, p, hcurve, h⟩ ↦ ⟨p, hcurve, form, h⟩⟩
  · intro b p h
    refine ⟨(decode_eq_ok_iff.mp h).1, fun form ↦ hsame h, fun hcode ↦ ?_⟩
    rw [← hsame h hcode]
    cases p with
    | infinity => rfl
    | finite x y =>
      change y.isOdd = decide (some (if y.isOdd = true then (0x03 : UInt8) else 0x02) = some 0x03)
      cases y.isOdd <;> rfl

/-- The opposite of the generator, whose ordinate is odd, is read from its compressed and from its
hybrid code. -/
theorem encodings_exact_opposite :
    Affine.generator.neg.onCurve = true ∧
      decode (encodeAs .compressed Affine.generator.neg) = .ok Affine.generator.neg ∧
      decode (encodeAs .hybrid Affine.generator.neg) = .ok Affine.generator.neg ∧
      Affine.generator.neg.y.isOdd =
        decide ((encodeAs .compressed Affine.generator.neg).head? = some 0x03) := by
  have hcurve : Affine.generator.neg.onCurve = true := by decide +kernel
  obtain ⟨hread, -, hwritten⟩ := encodings_exact
  have hcode : IsCode .compressed (encodeAs .compressed Affine.generator.neg) :=
    isCode_iff.mpr ⟨_, hcurve, rfl⟩
  have hcompressed := hread .compressed _ hcurve
  exact ⟨hcurve, hcompressed, hread .hybrid _ hcurve, (hwritten _ _ hcompressed).2.2 hcode⟩

end Secp.Curve.Affine
