import Secp.Key.Public
import Secp.Proofs.Curve.Encoding
import Secp.Proofs.Ecdsa.Recover
import Secp.Proofs.Ecdsa.Sign
import Secp.Proofs.LimbInt.Hexadecimal

/-!
# Checked public keys

Most constructors of a public key look at the point, but the key of a private key and a recovered
key are taken as they come. Their points are finite points of the curve too, the one because the
scalar is below the order of the generator, the other because recovery refuses infinity. A key with
such a point can be written in every form, and is read back from each.
-/

namespace Secp

open Curve

/-- The multiple of an element other than zero by a scalar is not zero. -/
theorem Curve.Scalar.multiple_ne_zero (s : Scalar) {g : PointGroup} (hg : g ≠ 0) :
    s.val • g ≠ 0 :=
  nsmul_ne_zero hg (Nat.ne_of_gt s.pos) s.lt

namespace PublicKey

/-- The public keys that the constructors make which check their point or know it. -/
inductive Checked : PublicKey → Prop where
  | ofPrivate (key : PrivateKey) : Checked (ofPrivate key)
  | ofPoint {p : Base} {key : PublicKey} (h : ofPoint p = .ok key) : Checked key
  | ofBytes {b : Bytes} {key : PublicKey} (h : ofBytes b = .ok key) : Checked key
  | ofHex {s : String} {key : PublicKey} (h : ofHex s = .ok key) : Checked key
  | recover {digest : Bytes} {sig : Signature} {id : UInt8} {key : PublicKey}
    (h : recover digest sig id = .ok key) : Checked key
  | recoverCompact {digest compact : Bytes} {key : PublicKey}
    (h : recoverCompact digest compact = .ok key) : Checked key

/-- The point of a key is an element of the group other than zero. -/
def HasElement (key : PublicKey) : Prop := ∃ g : PointGroup, g ≠ 0 ∧ key.point = .ofGroup g

/-- A key has an element exactly when its point is a finite point of the curve. -/
theorem hasElement_iff {key : PublicKey} :
    key.HasElement ↔ key.point.isInfinity = false ∧ key.point.onCurve = true := by
  constructor
  · rintro ⟨g, hg, hpoint⟩
    rw [hpoint, ← Bool.not_eq_true, Affine.isInfinity_ofGroup]
    exact ⟨hg, Affine.onCurve_ofGroup g⟩
  · rintro ⟨hfinite, hcurve⟩
    obtain ⟨g, hg⟩ := Affine.onCurve_iff_exists.mp hcurve
    rw [hg, ← Bool.not_eq_true, Affine.isInfinity_ofGroup] at hfinite
    exact ⟨g, hfinite, hg⟩

/-- A point makes a key exactly when it is a finite point of the curve. -/
theorem ofPoint_eq_ok_iff {p : Base} {key : PublicKey} :
    ofPoint p = .ok key ↔ key = ⟨p⟩ ∧ key.HasElement := by
  unfold ofPoint
  split
  · next hinfinite =>
    refine ⟨nofun, ?_⟩
    rintro ⟨rfl, helement⟩
    exact absurd hinfinite (Bool.eq_false_iff.mp (hasElement_iff.mp helement).1)
  · next hfinite =>
    split
    · next hcurve =>
      constructor
      · rintro ⟨⟩
        exact ⟨rfl, hasElement_iff.mpr ⟨Bool.eq_false_iff.mpr hfinite, hcurve⟩⟩
      · rintro ⟨rfl, -⟩
        rfl
    · next hcurve =>
      refine ⟨nofun, ?_⟩
      rintro ⟨rfl, helement⟩
      exact absurd (hasElement_iff.mp helement).2 hcurve

/-- The point of a private key's public key. -/
theorem point_ofPrivate (key : PrivateKey) :
    (ofPrivate key).point = .ofGroup (key.scalar.val • generatorElement) := by
  rw [← natCast_zsmul]
  exact Base.mul_eq Base.point_generator _

/-- The key of a private key has an element, as the scalar is below the order. -/
theorem hasElement_ofPrivate (key : PrivateKey) : (ofPrivate key).HasElement :=
  ⟨_, key.scalar.multiple_ne_zero generatorElement_ne_zero, point_ofPrivate key⟩

/-- A recovered key has an element. -/
theorem hasElement_of_recover {digest : Bytes} {sig : Signature} {id : UInt8} {key : PublicKey}
    (h : recover digest sig id = .ok key) : key.HasElement := by
  obtain ⟨p, hp, rfl⟩ := map_eq_ok_iff.mp h
  obtain ⟨q, hq, ⟨⟩⟩ := bind_eq_ok_iff.mp hp
  obtain ⟨_, hq⟩ := Ecdsa.recover_eq_ok_iff.mp hq
  obtain ⟨-, g, -, -, hg, rfl⟩ := Ecdsa.recoverWith_eq_ok_iff.mp hq
  exact ⟨g, hg, rfl⟩

/-- Every checked key has an element. -/
theorem Checked.hasElement {key : PublicKey} (h : Checked key) : key.HasElement := by
  cases h with
  | ofPrivate key => exact hasElement_ofPrivate key
  | ofPoint h => exact (ofPoint_eq_ok_iff.mp h).2
  | ofBytes h =>
    obtain ⟨p, -, hp⟩ := bind_eq_ok_iff.mp h
    exact (ofPoint_eq_ok_iff.mp hp).2
  | ofHex h =>
    obtain ⟨n, -, hn⟩ := bind_eq_ok_iff.mp h
    obtain ⟨b, -, hb⟩ := bind_eq_ok_iff.mp hn
    obtain ⟨p, -, hp⟩ := bind_eq_ok_iff.mp hb
    exact (ofPoint_eq_ok_iff.mp hp).2
  | recover h => exact hasElement_of_recover h
  | recoverCompact h =>
    obtain ⟨sig, -, hsig⟩ := bind_eq_ok_iff.mp h
    split at hsig
    · cases hsig
    · exact hasElement_of_recover hsig

/-- A key with an element is read back from its bytes in either form. -/
theorem ofBytes_toBytes {key : PublicKey} (h : key.HasElement) (compressed : Bool) :
    ofBytes (key.toBytes compressed) = .ok ⟨key.point⟩ := by
  have hcurve := (hasElement_iff.mp h).2
  have hdecode : Affine.decode (key.toBytes compressed) = .ok key.point := by
    refine Affine.decode_eq_ok_iff.mpr ⟨hcurve, ?_⟩
    cases compressed with
    | true => exact ⟨.compressed, rfl⟩
    | false => exact ⟨.uncompressed, rfl⟩
  have hpoint : ofPoint key.point = .ok ⟨key.point⟩ := ofPoint_eq_ok_iff.mpr ⟨rfl, h⟩
  rw [ofBytes, hdecode, ok_bind, hpoint]

/-- A key with an element has a compressed form of 33 bytes. -/
theorem toCompressed_eq_ok {key : PublicKey} (h : key.HasElement) :
    key.toCompressed = .ok (key.toBytes true) ∧ (key.toBytes true).length = 33 := by
  obtain ⟨hfinite, -⟩ := hasElement_iff.mp h
  refine ⟨if_neg (Bool.eq_false_iff.mp hfinite), ?_⟩
  unfold toBytes
  generalize key.point = p at hfinite ⊢
  cases p with
  | infinity => cases hfinite
  | finite x y =>
    rw [Affine.encode, if_pos rfl, List.length_cons, Affine.length_coordinateBytes]

/-- A key with an element is read back from its hexadecimal digits. -/
theorem exists_ofHex_toHex {key : PublicKey} (h : key.HasElement) :
    ∃ s, key.toHex = .ok s ∧ ofHex s = .ok ⟨key.point⟩ := by
  obtain ⟨hcompressed, hlength⟩ := toCompressed_eq_ok h
  have hne : key.toBytes true ≠ [] := List.ne_nil_of_length_eq_add_one hlength
  have hspelled := Bytes.spelledBy_hex (key.toBytes true)
  obtain ⟨n, hread, hpadded⟩ :=
    Bytes.exists_padded_ofHex_iff.mpr ((Bytes.readFrom_iff hne).mpr (.inl hspelled))
  refine ⟨Bytes.hex (key.toBytes true), ?_, ?_⟩
  · rw [toHex, hcompressed]
    rfl
  · rw [ofHex, hread, ok_bind, hpadded, ok_bind, ofBytes_toBytes h]

/-- Every checked key has a finite point of the curve; it is written in compressed form, in
hexadecimal digits and for inspection, and is read back from its bytes in both forms and from its
hexadecimal digits. -/
theorem checked_keys_usable {key : PublicKey} (h : Checked key) :
    key.point.isInfinity = false ∧ key.point.onCurve = true ∧
    (∃ b, key.toCompressed = .ok b ∧ b.length = 33) ∧
    (∀ compressed, ∃ other, ofBytes (key.toBytes compressed) = .ok other ∧
      other.agrees key = true) ∧
    ∃ s, key.toHex = .ok s ∧ key.describe = .ok ("PublicKey(" ++ s ++ ")") ∧
      ∃ other, ofHex s = .ok other ∧ other.agrees key = true := by
  have helement := h.hasElement
  obtain ⟨hfinite, hcurve⟩ := hasElement_iff.mp helement
  obtain ⟨hcompressed, hlength⟩ := toCompressed_eq_ok helement
  obtain ⟨s, hs, hread⟩ := exists_ofHex_toHex helement
  have hagrees : (⟨key.point⟩ : PublicKey).agrees key = true := decide_eq_true rfl
  refine ⟨hfinite, hcurve, ⟨_, hcompressed, hlength⟩, fun compressed ↦ ?_, s, hs, ?_, _, hread,
    hagrees⟩
  · exact ⟨_, ofBytes_toBytes helement compressed, hagrees⟩
  · rw [describe, hs, Except.map]

/-- The public key of the private key one is written in 33 bytes and in digits, and read back. -/
theorem checked_keys_usable_one :
    Checked (ofPrivate ⟨Ecdsa.scalarOne⟩) ∧
      ∃ b s other, (ofPrivate ⟨Ecdsa.scalarOne⟩).toCompressed = .ok b ∧ b.length = 33 ∧
        (ofPrivate ⟨Ecdsa.scalarOne⟩).toHex = .ok s ∧ ofHex s = .ok other ∧
        other.agrees (ofPrivate ⟨Ecdsa.scalarOne⟩) = true := by
  have h : Checked (ofPrivate ⟨Ecdsa.scalarOne⟩) := .ofPrivate _
  obtain ⟨-, -, ⟨b, hb, hlength⟩, -, s, hs, -, other, hread, hagrees⟩ := checked_keys_usable h
  exact ⟨h, b, s, other, hb, hlength, hs, hread, hagrees⟩

end PublicKey

end Secp
