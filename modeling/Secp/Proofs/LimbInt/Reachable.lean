import Secp.LimbInt.Armour
import Secp.Proofs.LimbInt.Canonical
import Secp.Proofs.LimbInt.Quotient

/-!
# Every integer that can be made is canonical

`Reachable` holds of the integers that the readers make and of what the operations make of them.
The readers deliver canonical integers and the operations keep the form, so equality and order of
reachable integers are those of the numbers, and the arithmetic on them is exact. Every number has
a reachable form.
-/

namespace Secp.LimbInt

/-- The integers that can be made, from the readers by the operations. -/
inductive Reachable : LimbInt → Prop
  | zero : Reachable zero
  | one : Reachable one
  | ofSafe {a : LimbInt} {n : Int} (h : ofSafe n = .ok a) : Reachable a
  | ofWord (t : UInt64) : Reachable (ofWord t)
  | ofInt32 (n : Int32) : Reachable (ofInt32 n)
  | ofText {a : LimbInt} {s : String} {radix : Nat} (h : ofText s radix = .ok a) : Reachable a
  | ofBytesLE (bytes : Bytes) : Reachable (ofBytesLE bytes)
  | ofBytesBE (bytes : Bytes) : Reachable (ofBytesBE bytes)
  | ofWords (ts : List UInt64) : Reachable (ofWords ts)
  | ofSigned (bytes : Bytes) (e : Endian) : Reachable (ofSigned bytes e)
  | ofScript {a : LimbInt} {bytes : Bytes} {requireMinimal : Bool} {limit : Option Nat}
      (h : ofScript bytes requireMinimal limit = .ok a) : Reachable a
  | ofBase58 {a : LimbInt} {s : String} (h : ofBase58 s = .ok a) : Reachable a
  | ofBase64 {a : LimbInt} {s : String} (h : ofBase64 s = .ok a) : Reachable a
  | abs {a : LimbInt} (ha : Reachable a) : Reachable a.abs
  | neg {a : LimbInt} (ha : Reachable a) : Reachable a.neg
  | add {a b : LimbInt} (ha : Reachable a) (hb : Reachable b) : Reachable (a.add b)
  | sub {a b : LimbInt} (ha : Reachable a) (hb : Reachable b) : Reachable (a.sub b)
  | mul {a b : LimbInt} (ha : Reachable a) (hb : Reachable b) : Reachable (a.mul b)
  | sqr {a : LimbInt} (ha : Reachable a) : Reachable a.sqr
  | addWord {a : LimbInt} (ha : Reachable a) (n : UInt32) : Reachable (a.addWord n)
  | subWord {a : LimbInt} (ha : Reachable a) (n : UInt32) : Reachable (a.subWord n)
  | mulWord {a : LimbInt} (ha : Reachable a) (n : UInt32) : Reachable (a.mulWord n)
  | growBy {a : LimbInt} (ha : Reachable a) (hsign : a.negative = false) (n : UInt32) :
      Reachable (a.growBy n)
  | shrinkBy {a : LimbInt} (ha : Reachable a) {n : UInt32} (hle : (n.toNat : Int) ≤ a.toInt) :
      Reachable (a.shrinkBy n)
  | pow {a : LimbInt} (ha : Reachable a) (exponent : Nat) : Reachable (a.pow exponent)
  | divWord {a q : LimbInt} (ha : Reachable a) {d rest : UInt32} (h : a.divWord d = .ok (q, rest)) :
      Reachable q
  | divRem_quotient {a b q r : LimbInt} (ha : Reachable a) (hb : Reachable b)
      (h : a.divRem b = .ok (q, r)) : Reachable q
  | divRem_remainder {a b q r : LimbInt} (ha : Reachable a) (hb : Reachable b)
      (h : a.divRem b = .ok (q, r)) : Reachable r
  | div {a b q : LimbInt} (ha : Reachable a) (hb : Reachable b) (h : a.div b = .ok q) : Reachable q
  | rem {a b r : LimbInt} (ha : Reachable a) (hb : Reachable b) (h : a.rem b = .ok r) : Reachable r
  | umod {a b r : LimbInt} (ha : Reachable a) (hb : Reachable b) (h : a.umod b = .ok r) :
      Reachable r
  | divRound {a b q : LimbInt} (ha : Reachable a) (hb : Reachable b) (h : a.divRound b = .ok q) :
      Reachable q
  | gcd {a b : LimbInt} (ha : Reachable a) (hb : Reachable b) : Reachable (a.gcd b)
  | inverse? {a b m : LimbInt} (ha : Reachable a) (hm : Reachable m) (h : a.inverse? m = some b) :
      Reachable b
  | shl {a : LimbInt} (ha : Reachable a) (bits : Nat) : Reachable (a.shl bits)
  | shr {a : LimbInt} (ha : Reachable a) (bits : Nat) : Reachable (a.shr bits)
  | ushl {a : LimbInt} (ha : Reachable a) (bits : Nat) : Reachable (a.ushl bits)
  | ushr {a : LimbInt} (ha : Reachable a) (bits : Nat) : Reachable (a.ushr bits)
  | dropBits {a : LimbInt} (ha : Reachable a) (bits : Nat) : Reachable (a.dropBits bits)
  | setBit {a : LimbInt} (ha : Reachable a) (bit : Nat) (value : Bool) :
      Reachable (a.setBit bit value)
  | addTwoPow {a : LimbInt} (ha : Reachable a) (bit : Nat) : Reachable (a.addTwoPow bit)
  | lowBits {a : LimbInt} (ha : Reachable a) (bits : Nat) : Reachable (a.lowBits bits)
  | complement {a : LimbInt} (ha : Reachable a) (bits : Nat) : Reachable (a.complement bits)
  | toTwos {a : LimbInt} (ha : Reachable a) (bits : Nat) : Reachable (a.toTwos bits)
  | ofTwos {a : LimbInt} (ha : Reachable a) (bits : Nat) : Reachable (a.ofTwos bits)
  | and {a b : LimbInt} (ha : Reachable a) (hb : Reachable b) : Reachable (a.and b)
  | or {a b : LimbInt} (ha : Reachable a) (hb : Reachable b) : Reachable (a.or b)
  | xor {a b : LimbInt} (ha : Reachable a) (hb : Reachable b) : Reachable (a.xor b)

/-- Every integer that can be made is canonical. -/
theorem Reachable.canonical {a : LimbInt} (h : Reachable a) : a.Canonical := by
  induction h with
  | zero => exact denotes_zero.canonical
  | one => exact denotes_one.canonical
  | ofSafe h => exact (denotes_of_ofSafe h).canonical
  | ofWord t => exact (denotes_ofWord t).canonical
  | ofInt32 n => exact (denotes_ofInt32 n).canonical
  | ofText h => exact canonical_of_ofText h
  | ofBytesLE bytes => exact canonical_ofBytesLE bytes
  | ofBytesBE bytes => exact canonical_ofBytesBE bytes
  | ofWords ts => exact canonical_ofBytesLE _
  | ofSigned bytes e => exact canonical_ofSigned bytes e
  | ofScript h => exact canonical_of_ofScript h
  | ofBase58 h => exact canonical_of_map_ofBytesBE h
  | ofBase64 h => exact canonical_of_map_ofBytesBE h
  | abs _ ih => exact ih.denotes.abs.canonical
  | neg _ ih => exact ih.denotes.neg.canonical
  | add _ _ iha ihb => exact iha.add ihb
  | sub _ _ iha ihb => exact iha.sub ihb
  | mul _ _ iha ihb => exact (iha.denotes.mul ihb.denotes).canonical
  | sqr _ ih => exact ih.denotes.sqr.canonical
  | addWord _ n ih => exact (ih.denotes.addWord n).canonical
  | subWord _ n ih => exact (ih.denotes.subWord n).canonical
  | mulWord _ n ih => exact (ih.denotes.mulWord n).canonical
  | growBy _ hsign n ih => exact (ih.denotes.growBy hsign n).canonical
  | shrinkBy _ hle ih => exact (ih.denotes.shrinkBy hle).canonical
  | pow _ exponent ih => exact (ih.denotes.pow exponent).canonical
  | divWord _ h ih => exact ih.divWord h
  | divRem_quotient _ _ h iha ihb =>
    exact ((iha.denotes.divRem_eq_ok_iff ihb.denotes).mp h).2.1.canonical
  | divRem_remainder _ _ h iha ihb =>
    exact ((iha.denotes.divRem_eq_ok_iff ihb.denotes).mp h).2.2.canonical
  | div _ _ h iha ihb => exact ((iha.denotes.div_eq_ok_iff ihb.denotes).mp h).2.canonical
  | rem _ _ h iha ihb => exact ((iha.denotes.rem_eq_ok_iff ihb.denotes).mp h).2.canonical
  | umod _ _ h iha ihb => exact ((iha.denotes.umod_eq_ok_iff ihb.denotes).mp h).2.canonical
  | divRound _ _ h iha ihb =>
    exact ((iha.denotes.divRound_eq_ok_iff ihb.denotes).mp h).2.canonical
  | gcd _ _ iha ihb => exact (iha.denotes.gcd ihb.denotes).canonical
  | inverse? _ _ h iha ihm =>
    rw [iha.denotes.inverse?_eq ihm.denotes] at h
    obtain ⟨n, -, rfl⟩ := Option.map_eq_some_iff.mp h
    exact (denotes_ofInt n).canonical
  | shl _ bits ih => exact ih.shl _ bits
  | shr _ bits ih => exact ih.shr bits
  | ushl _ bits ih => exact ih.shl false bits
  | ushr _ bits ih => exact ih.ushr bits
  | dropBits _ bits ih => exact ih.dropBits bits
  | setBit _ bit value ih => exact ih.setBit bit value
  | addTwoPow _ bit ih => exact ih.add (canonical_twoPow bit)
  | lowBits _ bits ih => exact ih.lowBits bits
  | complement _ bits ih => exact ih.complement bits
  | toTwos _ bits ih => exact ih.toTwos bits
  | ofTwos _ bits ih => exact ih.ofTwos bits
  | and _ _ iha ihb => exact iha.bitwise (fun _ y hx _ ↦ Limbs.and_lt hx y) ihb
  | or _ _ iha ihb => exact iha.bitwise (fun _ _ ↦ Limbs.or_lt) ihb
  | xor _ _ iha ihb => exact iha.bitwise (fun _ _ ↦ Limbs.xor_lt) ihb

/-- Every number has a form that can be made. -/
theorem exists_reachable (z : Int) : ∃ a, Reachable a ∧ a.toInt = z := by
  induction z using Int.induction_on with
  | zero => exact ⟨zero, .zero, denotes_zero.toInt_eq⟩
  | succ n ih =>
    obtain ⟨a, ha, hvalue⟩ := ih
    refine ⟨a.addWord 1, ha.addWord 1, ?_⟩
    rw [(ha.canonical.denotes.addWord 1).toInt_eq, hvalue]
    rfl
  | pred n ih =>
    obtain ⟨a, ha, hvalue⟩ := ih
    refine ⟨a.subWord 1, ha.subWord 1, ?_⟩
    rw [(ha.canonical.denotes.subWord 1).toInt_eq, hvalue]
    rfl

/-- Integers are represented faithfully: every number has a form that can be made, every form that
can be made is canonical, so that equality and order of forms are those of the numbers, and
sums, differences, opposites, absolute values, products and powers of them are exact. -/
theorem reachable_faithful :
    (∀ z : Int, ∃ a, Reachable a ∧ a.toInt = z) ∧
      ∀ a b : LimbInt, Reachable a → Reachable b →
        a.Canonical ∧
          (a = b ↔ a.toInt = b.toInt) ∧
          Ord.compare a b = Ord.compare a.toInt b.toInt ∧
          (a + b).toInt = a.toInt + b.toInt ∧
          (a - b).toInt = a.toInt - b.toInt ∧
          (-a).toInt = -a.toInt ∧
          a.abs.toInt = |a.toInt| ∧
          (a * b).toInt = a.toInt * b.toInt ∧
          (∀ n : UInt32, (a.addWord n).toInt = a.toInt + n.toNat ∧
            (a.subWord n).toInt = a.toInt - n.toNat ∧
            (a.mulWord n).toInt = a.toInt * n.toNat) ∧
          ∀ exponent : Nat, (a.pow exponent).toInt = a.toInt ^ exponent := by
  refine ⟨exists_reachable, fun a b hra hrb ↦ ?_⟩
  have hca := hra.canonical
  have hcb := hrb.canonical
  have ha := hca.denotes
  have hb := hcb.denotes
  refine ⟨hca, ⟨fun h ↦ h ▸ rfl, hca.ext hcb⟩, hca.compare_eq hcb, (ha.add hb).toInt_eq,
    (ha.sub hb).toInt_eq, ha.neg.toInt_eq, ha.abs.toInt_eq, (ha.mul hb).toInt_eq, fun n ↦ ?_,
    fun exponent ↦ (ha.pow exponent).toInt_eq⟩
  exact ⟨(ha.addWord n).toInt_eq, (ha.subWord n).toInt_eq, (ha.mulWord n).toInt_eq⟩

/-- Minus the square of `2 ^ 32 - 1` and one shifted past a limb are canonical, and their sum is
exact. -/
theorem reachable_faithful_square_shifted :
    Reachable (ofWord 0xffffffff).sqr.neg ∧ Reachable (one.shl 27) ∧
      ((ofWord 0xffffffff).sqr.neg + one.shl 27).toInt =
        -(0xffffffff * 0xffffffff) + 2 ^ 27 := by
  have hsquare : Reachable (ofWord 0xffffffff).sqr.neg := .neg (.sqr (.ofWord _))
  have hshifted : Reachable (one.shl 27) := .shl .one 27
  refine ⟨hsquare, hshifted, ?_⟩
  rw [(reachable_faithful.2 _ _ hsquare hshifted).2.2.2.1]
  decide +kernel

end Secp.LimbInt
