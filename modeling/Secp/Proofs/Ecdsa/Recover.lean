import Secp.Ecdsa.Recover
import Secp.Proofs.Curve.Abscissa
import Secp.Proofs.Ecdsa.Genuine

/-!
# Recovery and verification agree

A recovery id names at most one point, and every point that has the first part of a signature for
its abscissa modulo the order is named by exactly one id. The key is recovered from the point by the
equation that verification checks, so a key is recovered by some id exactly when the signature is
genuine for it, and by no more than one.
-/

namespace Secp.Ecdsa

open Curve

/-- The abscissa that an id stands for. -/
def namedAbscissa (id : Fin 4) (r : Scalar) : Nat := r.val + id.val / 2 * order

/-- The element has the abscissa and the parity that an id stands for. -/
def Names (id : Fin 4) (r : Scalar) (nonce : PointGroup) : Prop :=
  namedAbscissa id r < sparsePrime ∧
    abscissaAndParity nonce = some ((namedAbscissa id r : BaseField), decide (id.val % 2 = 1))

/-- The abscissa that an id stands for is accepted when it is below the prime. -/
theorem abscissa_eq_ok_iff {id : Fin 4} {r : Scalar} {v : Nat} :
    abscissa id r = .ok v ↔ v = namedAbscissa id r ∧ v < sparsePrime := by
  have hlt := r.lt
  have hprimes : order < sparsePrime := by decide
  have hid := id.isLt
  unfold abscissa namedAbscissa
  split
  · next h =>
    rw [h, Nat.zero_mul, Nat.add_zero, Except.ok.injEq]
    omega
  · next h =>
    rw [show id.val / 2 = 1 by omega, Nat.one_mul]
    split
    · refine ⟨nofun, ?_⟩
      omega
    · rw [Except.ok.injEq]
      omega

/-- The id of an abscissa and a parity. -/
private theorem exists_id {x : Nat} (hx : x < 2 * order) (odd : Bool) :
    ∃ id : Fin 4, id.val / 2 = x / order ∧ decide (id.val % 2 = 1) = odd := by
  have hquot : x / order < 2 := by rwa [Nat.div_lt_iff_lt_mul (by decide)]
  have hodd := Bool.toNat_lt odd
  refine ⟨⟨2 * (x / order) + odd.toNat, by omega⟩, by dsimp only; omega, ?_⟩
  rw [Nat.mul_add_mod_self_left]
  cases odd <;> rfl

/-- The elements that ids name are those with the right residue. -/
theorem exists_names_iff {r : Scalar} {nonce : PointGroup} :
    (∃ id, Names id r nonce) ↔ HasResidue r.val nonce := by
  have hprimes : sparsePrime < 2 * order := by decide
  cases nonce with
  | zero =>
    refine ⟨?_, nofun⟩
    rintro ⟨id, -, hnonce⟩
    cases hnonce
  | some x y h =>
    constructor
    · rintro ⟨id, hv, hnonce⟩
      obtain ⟨rfl, -⟩ := Prod.mk.inj (Option.some.inj hnonce)
      have hval : (namedAbscissa id r : BaseField).val = namedAbscissa id r :=
        ZMod.val_cast_of_lt hv
      change (namedAbscissa id r : BaseField).val % order = r.val
      rw [hval, namedAbscissa, Nat.add_mul_mod_self_right, Nat.mod_eq_of_lt r.lt]
    · intro hresidue
      change x.val % order = r.val at hresidue
      have hx : x.val < sparsePrime := x.val_lt
      obtain ⟨id, hquot, hodd⟩ := exists_id (hx.trans hprimes) (Residue.ofZMod y : Fp).isOdd
      have hval : namedAbscissa id r = x.val := by
        rw [namedAbscissa, hquot, ← hresidue, Nat.mul_comm, Nat.mod_add_div]
      refine ⟨id, by rwa [hval], ?_⟩
      rw [hval, hodd, ZMod.natCast_zmod_val]
      rfl

/-- No element is named by two ids. -/
theorem Names.id_unique {id id' : Fin 4} {r : Scalar} {nonce : PointGroup}
    (h : Names id r nonce) (h' : Names id' r nonce) : id = id' := by
  obtain ⟨hv, hnonce⟩ := h
  obtain ⟨hv', hnonce'⟩ := h'
  obtain ⟨hcast, hodd⟩ := Prod.mk.inj (Option.some.inj (hnonce.symm.trans hnonce'))
  have hval : namedAbscissa id r = namedAbscissa id' r := by
    rw [ZMod.natCast_eq_natCast_iff'] at hcast
    change namedAbscissa id r % sparsePrime = namedAbscissa id' r % sparsePrime at hcast
    rwa [Nat.mod_eq_of_lt hv, Nat.mod_eq_of_lt hv'] at hcast
  have hquot : id.val / 2 = id'.val / 2 := by
    rw [namedAbscissa, namedAbscissa, Nat.add_left_cancel_iff] at hval
    exact Nat.eq_of_mul_eq_mul_right (by decide) hval
  have hparity : id.val % 2 = 1 ↔ id'.val % 2 = 1 := by simpa using hodd
  exact Fin.ext (by omega)

/-- No id names two elements. -/
theorem Names.unique {id : Fin 4} {r : Scalar} {nonce nonce' : PointGroup}
    (h : Names id r nonce) (h' : Names id r nonce') : nonce = nonce' :=
  abscissaAndParity_injective (h.2.trans h'.2.symm)

/-- The points that are found by an id are those that it names. -/
theorem exists_ofAbscissa_iff {id : Fin 4} {r : Scalar} {p : Affine} :
    (∃ v, abscissa id r = .ok v ∧ Affine.ofAbscissa v (id.val % 2 = 1) = .ok p) ↔
      ∃ nonce, Names id r nonce ∧ p = .ofGroup nonce := by
  simp only [abscissa_eq_ok_iff, Affine.ofAbscissa_eq_ok_iff, Int.cast_natCast]
  constructor
  · rintro ⟨v, ⟨rfl, hlt⟩, -, nonce, rfl, hnonce⟩
    exact ⟨nonce, ⟨hlt, hnonce⟩, rfl⟩
  · rintro ⟨nonce, ⟨hlt, hnonce⟩, rfl⟩
    exact ⟨_, ⟨rfl, hlt⟩, by omega, nonce, rfl, hnonce⟩

/-- The sum that recovery computes is the key that fits. -/
theorem mulAdd_key {digest w : Int} {sig : Signature} {nonce key : PointGroup}
    (hw : (w : ZMod order) = (sig.r.val : ZMod order)⁻¹) (h : Balanced digest sig nonce key) :
    Base.generator.mulAdd ((order - reduceDigest digest * w % order) % order)
      (Affine.ofGroup nonce) (sig.s.val * w % order) = .ofGroup key := by
  have hkey : key = (-((sig.r.val : ZMod order)⁻¹ * reduceDigest digest)) • generatorElement +
      ((sig.r.val : ZMod order)⁻¹ * sig.s.val) • nonce := by
    rw [balanced_iff_key.mp h, smul_sub, smul_smul, smul_smul, neg_smul]
    exact sub_eq_neg_add _ _
  rw [hkey]
  apply mulAdd_generator rfl
  · rw [ZMod.intCast_mod, Int.cast_sub, ZMod.intCast_mod, Int.cast_mul, hw, Int.cast_natCast,
      ZMod.natCast_self, zero_sub, mul_comm]
  · rw [ZMod.intCast_mod, Int.cast_mul, hw, Int.cast_natCast, mul_comm]

/-- A key is recovered exactly when it is finite and fits the point that the id names. -/
theorem recoverWith_eq_ok_iff {id : Fin 4} {digest : Int} {sig : Signature} {q : Affine} :
    recoverWith id digest sig = .ok q ↔
      ∃ nonce key, Names id sig.r nonce ∧ Balanced digest sig nonce key ∧ key ≠ 0 ∧
        q = .ofGroup key := by
  obtain ⟨w, hw, hinv⟩ := sig.r.exists_inverse?
  unfold recoverWith
  simp only [hw, bind_eq_ok_iff]
  constructor
  · rintro ⟨v, hv, p, hp, h⟩
    obtain ⟨nonce, hnames, rfl⟩ := exists_ofAbscissa_iff.mp ⟨v, hv, hp⟩
    obtain ⟨key, hbalanced⟩ : ∃ key, Balanced digest sig nonce key := ⟨_, balanced_iff_key.mpr rfl⟩
    refine ⟨nonce, key, hnames, hbalanced, ?_⟩
    rw [mulAdd_key hinv hbalanced] at h
    cases key with
    | zero => cases h
    | some x y hxy =>
      cases h
      exact ⟨WeierstrassCurve.Affine.Point.some_ne_zero hxy, rfl⟩
  · rintro ⟨nonce, key, hnames, hbalanced, hkey, rfl⟩
    obtain ⟨v, hv, hp⟩ := exists_ofAbscissa_iff.mpr ⟨nonce, hnames, rfl⟩
    refine ⟨v, hv, _, hp, ?_⟩
    rw [mulAdd_key hinv hbalanced]
    cases key with
    | zero => exact absurd rfl hkey
    | some x y hxy => rfl

/-- Where no key is recovered the id names no point, or infinity fits the point that it names. -/
private theorem of_recoverWith_eq_error {id : Fin 4} {digest : Int} {sig : Signature}
    {fault : Error} (h : recoverWith id digest sig = .error fault) :
    (fault = .invalidPoint ∧ ∀ nonce, ¬ Names id sig.r nonce) ∨
      (fault = .pointAtInfinity ∧ ∃ nonce, Names id sig.r nonce ∧ Balanced digest sig nonce 0) := by
  obtain ⟨w, hw, hinv⟩ := sig.r.exists_inverse?
  unfold recoverWith at h
  simp only [hw, bind_eq_error_iff] at h
  rcases h with habscissa | ⟨v, hv, hpoint | ⟨p, hp, hkey⟩⟩
  · refine .inl ⟨?_, fun nonce hnames ↦ ?_⟩
    · unfold abscissa at habscissa
      split at habscissa
      · cases habscissa
      · split at habscissa <;> cases habscissa
        rfl
    · rw [abscissa_eq_ok_iff.mpr ⟨rfl, hnames.1⟩] at habscissa
      cases habscissa
  · refine .inl ⟨Affine.eq_of_ofAbscissa_eq_error hpoint, fun nonce hnames ↦ ?_⟩
    obtain ⟨v', hv', hp⟩ := exists_ofAbscissa_iff.mpr ⟨nonce, hnames, rfl⟩
    cases hv.symm.trans hv'
    rw [hp] at hpoint
    cases hpoint
  · obtain ⟨nonce, hnames, rfl⟩ := exists_ofAbscissa_iff.mp ⟨v, hv, hp⟩
    obtain ⟨key, hbalanced⟩ : ∃ key, Balanced digest sig nonce key := ⟨_, balanced_iff_key.mpr rfl⟩
    rw [mulAdd_key hinv hbalanced] at hkey
    cases key with
    | zero =>
      cases hkey
      exact .inr ⟨rfl, nonce, hnames, hbalanced⟩
    | some x y hxy => cases hkey

/-- No key is recovered exactly when the id names no point or infinity fits the point that it
names. -/
theorem recoverWith_eq_error_iff {id : Fin 4} {digest : Int} {sig : Signature} {fault : Error} :
    recoverWith id digest sig = .error fault ↔
      (fault = .invalidPoint ∧ ∀ nonce, ¬ Names id sig.r nonce) ∨
        (fault = .pointAtInfinity ∧
          ∃ nonce, Names id sig.r nonce ∧ Balanced digest sig nonce 0) := by
  refine ⟨of_recoverWith_eq_error, fun h ↦ ?_⟩
  -- Only one of the three outcomes fits what the id names.
  cases houtcome : recoverWith id digest sig with
  | ok q =>
    obtain ⟨nonce, key, hnames, hbalanced, hkey, -⟩ := recoverWith_eq_ok_iff.mp houtcome
    rcases h with ⟨-, hnone⟩ | ⟨-, nonce', hnames', hbalanced'⟩
    · exact absurd hnames (hnone nonce)
    · obtain rfl := hnames.unique hnames'
      exact absurd ((balanced_iff_key.mp hbalanced).trans (balanced_iff_key.mp hbalanced').symm)
        hkey
  | error fault' =>
    rcases h with ⟨rfl, hnone⟩ | ⟨rfl, nonce, hnames, -⟩ <;>
      rcases of_recoverWith_eq_error houtcome with ⟨rfl, hnone'⟩ | ⟨rfl, nonce', hnames', -⟩
    · rfl
    · exact absurd hnames' (hnone nonce')
    · exact absurd hnames (hnone' nonce)
    · rfl

/-- Some id recovers a key exactly when the signature is genuine for it. -/
theorem exists_recoverWith_iff {digest : Int} {sig : Signature} {q : Affine} :
    (∃ id, recoverWith id digest sig = .ok q) ↔
      ∃ key, q = .ofGroup key ∧ Genuine digest sig key := by
  simp only [recoverWith_eq_ok_iff]
  constructor
  · rintro ⟨id, nonce, key, hnames, hbalanced, hkey, rfl⟩
    exact ⟨key, rfl, hkey, nonce, exists_names_iff.mp ⟨id, hnames⟩, hbalanced⟩
  · rintro ⟨key, rfl, hkey, nonce, hresidue, hbalanced⟩
    obtain ⟨id, hnames⟩ := exists_names_iff.mpr hresidue
    exact ⟨id, nonce, key, hnames, hbalanced, hkey, rfl⟩

/-- No key is recovered by two ids. -/
theorem recoverWith_id_unique {id id' : Fin 4} {digest : Int} {sig : Signature} {q : Affine}
    (h : recoverWith id digest sig = .ok q) (h' : recoverWith id' digest sig = .ok q) :
    id = id' := by
  obtain ⟨nonce, key, hnames, hbalanced, -, rfl⟩ := recoverWith_eq_ok_iff.mp h
  obtain ⟨nonce', key', hnames', hbalanced', -, heq⟩ := recoverWith_eq_ok_iff.mp h'
  obtain rfl := Affine.ofGroup_inj.mp heq
  rw [balanced_iff_nonce.mp hbalanced, ← balanced_iff_nonce.mp hbalanced'] at hnames
  exact hnames.id_unique hnames'

/-- Whether an id gives the key is decided. -/
theorem recovers_iff {id : Fin 4} {digest : Int} {sig : Signature} {q : Affine} :
    recovers q digest sig id = true ↔ recoverWith id digest sig = .ok q := by
  unfold recovers
  cases recoverWith id digest sig with
  | error fault => exact ⟨nofun, nofun⟩
  | ok q' => rw [decide_eq_true_iff, Except.ok.injEq]

/-- The search tries every id, and what it finds is the one that gives the key. -/
theorem recoveryId_eq_ok_iff {id : Fin 4} {digest : Int} {sig : Signature} {q : Affine} :
    recoveryId q digest sig = .ok id ↔ recoverWith id digest sig = .ok q := by
  unfold recoveryId
  cases hfind : (List.finRange 4).find? (recovers q digest sig) with
  | none =>
    refine ⟨nofun, fun hid ↦ ?_⟩
    exact absurd (recovers_iff.mpr hid) (List.find?_eq_none.mp hfind id (List.mem_finRange id))
  | some found =>
    have hfound := recovers_iff.mp (List.find?_some hfind)
    constructor
    · rintro ⟨⟩
      exact hfound
    · intro hid
      rw [recoverWith_id_unique hfound hid]

/-- An id is found when there is one. -/
theorem exists_recoveryId_iff {digest : Int} {sig : Signature} {q : Affine} :
    (∃ id, recoveryId q digest sig = .ok id) ↔ ∃ id, recoverWith id digest sig = .ok q :=
  exists_congr fun _ ↦ recoveryId_eq_ok_iff

/-- Recovery by a byte is recovery by the id that it is. -/
theorem recover_eq_ok_iff {id : UInt8} {digest : Int} {sig : Signature} {q : Affine} :
    recover id digest sig = .ok q ↔
      ∃ h : id.toNat < 4, recoverWith ⟨id.toNat, h⟩ digest sig = .ok q := by
  unfold recover
  split
  · next h => exact ⟨fun hq ↦ ⟨h, hq⟩, fun ⟨_, hq⟩ ↦ hq⟩
  · next h => exact ⟨nofun, fun ⟨h', _⟩ ↦ absurd h' h⟩

/-- An id is found for a key exactly when the signature verifies with it, which is when it is
genuine for the key; no key is recovered by two ids, and what is recovered is a finite point of the
curve. -/
theorem recovery_agrees (digest : Int) (sig : Signature) :
    (∀ key : Base,
      ((∃ id, recoveryId key.point digest sig = .ok id) ↔ verify digest sig key = true) ∧
      (verify digest sig key = true ↔ ∃ g, key.point = .ofGroup g ∧ Genuine digest sig g)) ∧
    (∀ (q : Affine) (id id' : UInt8), recover id digest sig = .ok q →
      recover id' digest sig = .ok q → id = id') ∧
    ∀ (id : UInt8) (q : Affine), recover id digest sig = .ok q →
      q.isInfinity = false ∧ q.onCurve = true := by
  refine ⟨?_, ?_, ?_⟩
  · intro key
    refine ⟨?_, verify_iff⟩
    rw [exists_recoveryId_iff, exists_recoverWith_iff, verify_iff]
  · intro q id id' h h'
    obtain ⟨hid, hq⟩ := recover_eq_ok_iff.mp h
    obtain ⟨hid', hq'⟩ := recover_eq_ok_iff.mp h'
    exact UInt8.toNat_inj.mp (Fin.mk.inj (recoverWith_id_unique hq hq'))
  · intro id q h
    obtain ⟨hid, hq⟩ := recover_eq_ok_iff.mp h
    obtain ⟨nonce, key, -, -, hkey, rfl⟩ := recoverWith_eq_ok_iff.mp hq
    refine ⟨?_, Affine.onCurve_ofGroup key⟩
    rw [← Bool.not_eq_true, Affine.isInfinity_ofGroup]
    exact hkey

/-- The signature of the digest zero that the nonce one and the key one give. -/
def generatorSignature : Signature :=
  ⟨⟨generatorX.val, by decide +kernel, by decide +kernel⟩,
    ⟨generatorX.val, by decide +kernel, by decide +kernel⟩, none⟩

/-- The generator is recovered from the signature of the key one, which verifies with it. -/
theorem recovery_agrees_generator :
    recover 0 0 generatorSignature = .ok .generator ∧
      (Affine.generator.isInfinity = false ∧ Affine.generator.onCurve = true) ∧
      (∀ id, recover id 0 generatorSignature = .ok .generator → (0 : UInt8) = id) ∧
      verify 0 generatorSignature .generator = true := by
  have hnames : Names 0 generatorSignature.r generatorElement := by
    have hpoint := Affine.onCurve_finite_iff.mp onCurve_generator
    have hval : namedAbscissa 0 generatorSignature.r = generatorX.val := by decide +kernel
    have hodd : generatorY.isOdd = false := by decide +kernel
    refine ⟨by decide +kernel, ?_⟩
    rw [generatorElement, Affine.generator, Affine.toGroup_finite hpoint, abscissaAndParity,
      Residue.ofZMod_toZMod, hodd, hval]
    rfl
  have hrecover : recoverWith 0 0 generatorSignature = .ok .generator := by
    refine recoverWith_eq_ok_iff.mpr ⟨generatorElement, generatorElement, hnames, ?_,
      generatorElement_ne_zero, ofGroup_generatorElement.symm⟩
    rw [Balanced, show reduceDigest 0 = 0 by decide, Int.cast_smul_eq_zsmul, zero_zsmul, zero_add]
    rfl
  have hbyte : recover 0 0 generatorSignature = .ok .generator :=
    recover_eq_ok_iff.mpr ⟨by decide, hrecover⟩
  obtain ⟨hverify, hunique, hfinite⟩ := recovery_agrees 0 generatorSignature
  refine ⟨hbyte, hfinite 0 _ hbyte, ?_, ?_⟩
  · intro id hid
    exact hunique _ 0 id hbyte hid
  · exact (hverify .generator).1.mp (exists_recoveryId_iff.mpr ⟨0, hrecover⟩)

end Secp.Ecdsa
