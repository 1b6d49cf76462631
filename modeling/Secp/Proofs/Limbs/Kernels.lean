import Secp.Proofs.Limbs.Product
import Secp.Proofs.Limbs.RowWalk

/-!
# The kernels of multiplication agree

Products and squares as a machine runs them choose between a product by a word, one by columns and
one by rows. Each of these gives the limbs of the product with no fault on the way, so it does not
matter which is chosen: the choice, the product on lists and, for equal factors, the square all
give the same limbs.
-/

namespace Secp.Limbs

variable {a b : Limbs}

namespace Checked

/-- The product of two magnitudes. -/
def product (a b : Limbs) : Except Fault Limbs :=
  if a = [] ∨ b = [] then .ok []
  else if a.length = 1 then do
    let x ← read a 0
    mulWord b x
  else if b.length = 1 then do
    let y ← read b 0
    mulWord a y
  else if a.length ≤ columnLimit ∧ b.length ≤ columnLimit then mulColumns a b
  else mulRows a b

/-- The square of a magnitude. -/
def square (a : Limbs) : Except Fault Limbs :=
  if a = [] then .ok []
  else if columnLimit < a.length then mulRows a a
  else squareColumns a

/-- A product by the only limb of a magnitude is the product. -/
theorem mulWord_of_length_eq_one (ha : Canonical a) (hlength : b.length = 1) :
    (do let y ← read b 0; mulWord a y) = .ok (ofNat (toNat a * toNat b)) := by
  obtain ⟨y, rfl⟩ := List.length_eq_one_iff.mp hlength
  exact mulWord_eq ha y

/-- The product of two magnitudes runs, and gives the limbs of the product of their numbers. -/
theorem product_eq (ha : Canonical a) (hb : Canonical b) :
    product a b = .ok (ofNat (toNat a * toNat b)) := by
  unfold product
  split
  · next hnil =>
    have hzero : toNat a * toNat b = 0 := by
      rcases hnil with rfl | rfl
      · exact Nat.zero_mul _
      · exact Nat.mul_zero _
    rw [hzero, ← canonical_nil.eq_ofNat toNat_nil]
  · next hne =>
    obtain ⟨hnea, hneb⟩ := not_or.mp hne
    split
    · next hone => rw [mulWord_of_length_eq_one hb hone, Nat.mul_comm]
    · split
      · next hone => exact mulWord_of_length_eq_one ha hone
      · split
        · next hshort => exact mulColumns_eq ha.1 hb.1 hnea hneb hshort.1
        · exact mulRows_eq ha.1 hb.1

/-- The square of a magnitude runs, and gives the limbs of the square of its number. -/
theorem square_eq (ha : Bounded a) : square a = .ok (ofNat (toNat a * toNat a)) := by
  unfold square
  split
  · next hnil => rw [hnil, toNat_nil, Nat.mul_zero, ← canonical_nil.eq_ofNat toNat_nil]
  · next hne =>
    split
    · exact mulRows_eq ha ha
    · next hshort => exact squareColumns_eq ha hne (Nat.le_of_not_lt hshort)

end Checked

/-- The product of two canonical magnitudes has the limbs of the product of their numbers, and the
square is the product of a magnitude with itself. Run with every step checked, the product, the
square and each way to a product give it with no fault: by rows always, by columns where the first
factor is within the limit, and by a word where either factor is a single limb. -/
theorem kernels_agree (ha : Canonical a) (hb : Canonical b) :
    (Canonical (mul a b) ∧ toNat (mul a b) = toNat a * toNat b) ∧ sqr a = mul a a ∧
      Checked.product a b = .ok (mul a b) ∧ Checked.square a = .ok (mul a a) ∧
      Checked.mulRows a b = .ok (mul a b) ∧
      (a ≠ [] → b ≠ [] → a.length ≤ columnLimit → Checked.mulColumns a b = .ok (mul a b)) ∧
      (∀ w, b = [w] → Checked.mulWord a w = .ok (mul a b) ∧
        Checked.mulWord a w = .ok (mul b a)) := by
  have hmul : mul a b = ofNat (toNat a * toNat b) :=
    (canonical_mul ha hb).eq_ofNat (toNat_mul ha.1 hb.1)
  have hself : mul a a = ofNat (toNat a * toNat a) :=
    (canonical_mul ha ha).eq_ofNat (toNat_mul ha.1 ha.1)
  refine ⟨⟨canonical_mul ha hb, toNat_mul ha.1 hb.1⟩, ?_, ?_, ?_, ?_, ?_, ?_⟩
  · rw [hself]
    exact (canonical_sqr ha.1).eq_ofNat (toNat_sqr ha.1)
  · rw [hmul]
    exact Checked.product_eq ha hb
  · rw [hself]
    exact Checked.square_eq ha.1
  · rw [hmul]
    exact Checked.mulRows_eq ha.1 hb.1
  · intro hnea hneb hlength
    rw [hmul]
    exact Checked.mulColumns_eq ha.1 hb.1 hnea hneb hlength
  · rintro w rfl
    have hcomm : mul [w] a = mul a [w] := by
      rw [hmul, (canonical_mul hb ha).eq_ofNat (toNat_mul hb.1 ha.1), Nat.mul_comm]
    rw [hcomm, hmul, Checked.mulWord_eq ha]
    exact ⟨rfl, rfl⟩

/-- They agree on limbs that are all as large as a limb can be, at the limit and beyond it. -/
theorem kernels_agree_largest :
    Canonical (List.replicate 64 mask) ∧ Canonical (List.replicate 65 mask) ∧
      Checked.mulColumns (List.replicate 64 mask) (List.replicate 65 mask) =
        .ok (mul (List.replicate 64 mask) (List.replicate 65 mask)) ∧
      Checked.product (List.replicate 64 mask) (List.replicate 65 mask) =
        .ok (mul (List.replicate 64 mask) (List.replicate 65 mask)) ∧
      Checked.square (List.replicate 64 mask) =
        .ok (mul (List.replicate 64 mask) (List.replicate 64 mask)) := by
  have hbounded (count : Nat) : Bounded (List.replicate count mask) := by
    intro w hw
    rw [List.eq_of_mem_replicate hw]
    decide
  have htrimmed {count : Nat} (hpos : count ≠ 0) : Trimmed (List.replicate count mask) := by
    rw [Trimmed, List.getLast?_replicate, if_neg hpos]
    decide
  have ha : Canonical (List.replicate 64 mask) := ⟨hbounded 64, htrimmed (by decide)⟩
  have hb : Canonical (List.replicate 65 mask) := ⟨hbounded 65, htrimmed (by decide)⟩
  obtain ⟨-, -, hproduct, hsquare, -, hcolumns, -⟩ := kernels_agree ha hb
  exact ⟨ha, hb, hcolumns (by decide) (by decide) (by decide), hproduct, hsquare⟩

end Secp.Limbs
