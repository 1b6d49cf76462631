import Mathlib.Algebra.Order.BigOperators.Group.Finset
import Secp.Proofs.Limbs.Checked
import Secp.Proofs.Limbs.Columns

/-!
# Columns summed with every step checked

A product by columns as a machine runs it: a column starts from what the one below carried, the
products along its antidiagonal are added one by one, and its low limb is put behind those of the
columns below. In a column of a square two places converge from its ends, and the sum of what they
meet is doubled. The columns of both are the antidiagonals, which up to 64 limbs leave room for the
carry in a wide word. After the last column what is carried is a limb, as the product needs no more
limbs than both factors have. So no run stops with a fault, and each gives the limbs of the product.
-/

namespace Secp.Limbs

variable {a b : Limbs}

/-- The number that the limb at a place holds, zero beyond the last. -/
def digitAt (ws : Limbs) (place : Nat) : Nat := (ws.getD place 0).toNat

/-- An antidiagonal has a product for each place up to its own. -/
theorem antidiagonal_eq_sum (xs ys : Limbs) (k : Nat) :
    antidiagonal xs ys k = ∑ i ∈ Finset.range (k + 1), digitAt xs i * digitAt ys (k - i) := by
  fun_induction antidiagonal xs ys k with
  | case1 => simp [digitAt]
  | case2 x xs ys => simp [digitAt]
  | case3 x xs ys k ih =>
    have hterm (i : Nat) : digitAt (x :: xs) (i + 1) * digitAt ys (k + 1 - (i + 1)) =
        digitAt xs i * digitAt ys (k - i) := by
      rw [Nat.add_sub_add_right]
      rfl
    rw [Finset.sum_range_succ', Finset.sum_congr rfl fun i _ ↦ hterm i, ih, Nat.add_comm]
    rfl

/-- The products of an antidiagonal that count are those whose places are in both factors. -/
theorem antidiagonal_eq_sum_Ico (xs ys : Limbs) (k : Nat) :
    antidiagonal xs ys k =
      ∑ i ∈ Finset.Ico (k - (ys.length - 1)) (min k (xs.length - 1) + 1),
        digitAt xs i * digitAt ys (k - i) := by
  rw [antidiagonal_eq_sum]
  symm
  apply Finset.sum_subset
  · intro i hi
    rw [Finset.mem_Ico] at hi
    rw [Finset.mem_range]
    omega
  · intro i hi hout
    rw [Finset.mem_range] at hi
    rw [Finset.mem_Ico] at hout
    rcases Nat.lt_or_ge i xs.length with hlt | hge
    · have hbeyond : ys.length ≤ k - i := by omega
      simp [digitAt, hbeyond]
    · simp [digitAt, hge]

/-- The products of the limbs from one place to another with those at the opposite places, added
up. -/
def spanSum (ws : Limbs) (i j : Nat) : Nat :=
  ∑ p ∈ Finset.Ico i (j + 1), digitAt ws p * digitAt ws (i + j - p)

/-- From a place to itself there is one square. -/
theorem spanSum_self (ws : Limbs) (i : Nat) : spanSum ws i i = digitAt ws i * digitAt ws i := by
  rw [spanSum, Nat.Ico_succ_singleton, Finset.sum_singleton, Nat.add_sub_cancel]

/-- Where the places have passed each other, there is nothing to add. -/
theorem spanSum_of_lt (ws : Limbs) {i j : Nat} (h : j < i) : spanSum ws i j = 0 := by
  rw [spanSum, Finset.Ico_eq_empty_of_le h, Finset.sum_empty]

/-- Both ends give the same product. -/
theorem spanSum_converge (ws : Limbs) {i j : Nat} (h : i < j) :
    spanSum ws i j = 2 * (digitAt ws i * digitAt ws j) + spanSum ws (i + 1) (j - 1) := by
  have hsame : i + 1 + (j - 1) = i + j := by omega
  rw [spanSum, spanSum, hsame, Nat.sub_add_cancel (Nat.one_le_of_lt h),
    Finset.sum_Ico_succ_top h.le, Finset.sum_eq_sum_Ico_succ_bot h, Nat.add_sub_cancel_left,
    Nat.add_sub_cancel]
  ring

/-- An antidiagonal of a magnitude with itself goes from the lowest place that counts to the highest
one, which are opposite. -/
theorem antidiagonal_eq_spanSum (ws : Limbs) (k : Nat) :
    antidiagonal ws ws k = spanSum ws (k - (ws.length - 1)) (min k (ws.length - 1)) := by
  have hsame : k - (ws.length - 1) + min k (ws.length - 1) = k := by omega
  rw [antidiagonal_eq_sum_Ico, spanSum, hsame]

/-- Limbs with the low limb of a wide word behind them are limbs. -/
theorem Bounded.append_low {ws : Limbs} (h : Bounded ws) (t : UInt64) : Bounded (ws ++ [low t]) :=
  bounded_append.mpr ⟨h, bounded_cons.mpr ⟨low_lt t, bounded_nil⟩⟩

/-- The low limb of a wide word behind other limbs, with the rest at the next weight, counts as the
word. -/
theorem toNat_append_low (ws : Limbs) (t : UInt64) :
    toNat (ws ++ [low t]) + base ^ (ws.length + 1) * (high t).toNat =
      toNat ws + base ^ ws.length * t.toNat := by
  have hsplit := Nat.mod_add_div t.toNat base
  rw [toNat_append, toNat_cons, toNat_nil, toNat_low, toNat_high, Nat.pow_succ]
  calc toNat ws + base ^ ws.length * (t.toNat % base + base * 0) +
        base ^ ws.length * base * (t.toNat / base)
      = toNat ws + base ^ ws.length * (t.toNat % base + base * (t.toNat / base)) := by ring
    _ = toNat ws + base ^ ws.length * t.toNat := by rw [hsplit]

namespace Checked

/-- Add a product of limbs to a sum. -/
def addProduct (sum : UInt64) (x y : UInt32) : Except Fault UInt64 := do
  let product ← mul x.toUInt64 y.toUInt64
  add sum product

/-- Add a sum of cross products, doubled. -/
def addDouble (sum cross : UInt64) : Except Fault UInt64 := do
  let doubled ← mul 2 cross
  add sum doubled

/-- Add the product of the limbs at a place and at the one that is opposite in a column. -/
def columnStep (a b : Limbs) (k : Nat) (sum : UInt64) (place : Nat) : Except Fault UInt64 := do
  let x ← read a place
  let opposite ← minus k place
  let y ← read b opposite
  addProduct sum x y

/-- A column of a product, on top of what is carried. -/
def columnSum (a b : Limbs) (k : Nat) (carry : UInt64) : Except Fault UInt64 := do
  let topA ← minus a.length 1
  let topB ← minus b.length 1
  let first := k - topB
  (List.range (min k topA + 1 - first)).foldlM (fun sum i ↦ columnStep a b k sum (first + i)) carry

/-- Add the products at two places that converge until they meet or have passed each other; then
give the places too. The higher place is above another while it is stepped down. -/
def converge (a : Limbs) (i j : Nat) (cross : UInt64) : Except Fault (UInt64 × Nat × Nat) :=
  if i < j then do
    let x ← read a i
    let y ← read a j
    let cross ← addProduct cross x y
    converge a (i + 1) (j - 1) cross
  else .ok (cross, i, j)
termination_by j - i

/-- A column of a square, on top of what is carried: each cross product once and doubled, and the
square of the limb where the places meet. -/
def squareSum (a : Limbs) (k : Nat) (carry : UInt64) : Except Fault UInt64 := do
  let top ← minus a.length 1
  let (cross, i, j) ← converge a (k - top) (min k top) 0
  let sum ← addDouble carry cross
  if i = j then do
    let x ← read a i
    addProduct sum x x
  else .ok sum

/-- Put the low limb of a column behind the limbs below it, and carry the rest. -/
def storeColumn (column : Nat → UInt64 → Except Fault UInt64) (state : Limbs × UInt64) (k : Nat) :
    Except Fault (Limbs × UInt64) := do
  let t ← column k state.2
  .ok (state.1 ++ [low t], high t)

/-- Run over so many columns; what the last one carries must be a limb. -/
def runColumns (column : Nat → UInt64 → Except Fault UInt64) (count : Nat) :
    Except Fault Limbs := do
  let (out, carry) ← (List.range count).foldlM (storeColumn column) ([], 0)
  let last ← guarded (carry.toNat < base) .wideDigit carry.toUInt32
  .ok (trim (out ++ [last]))

/-- Product by columns. -/
def mulColumns (a b : Limbs) : Except Fault Limbs := do
  let count ← minus (a.length + b.length) 1
  runColumns (columnSum a b) count

/-- Square by columns. -/
def squareColumns (a : Limbs) : Except Fault Limbs := do
  let count ← minus (2 * a.length) 1
  runColumns (squareSum a) count

/-- The limb at a place of a magnitude is found. -/
theorem read_digitAt {ws : Limbs} {place : Nat} (h : place < ws.length) :
    ∃ w, read ws place = .ok w ∧ w.toNat = digitAt ws place := by
  refine ⟨ws[place], ?_, ?_⟩
  · simp [read, List.getElem?_eq_getElem h]
  · simp [digitAt, List.getElem?_eq_getElem h]

/-- A product of limbs is added where the whole fits a wide word. -/
theorem addProduct_ok {sum : UInt64} {x y : UInt32}
    (hfits : sum.toNat + x.toNat * y.toNat < 2 ^ 64) :
    addProduct sum x y = .ok (sum + x.toUInt64 * y.toUInt64) ∧
      (sum + x.toUInt64 * y.toUInt64).toNat = sum.toNat + x.toNat * y.toNat := by
  rw [← UInt32.toNat_toUInt64 x, ← UInt32.toNat_toUInt64 y] at hfits ⊢
  have hmul : x.toUInt64.toNat * y.toUInt64.toNat < 2 ^ 64 :=
    Nat.lt_of_le_of_lt (Nat.le_add_left _ _) hfits
  rw [← toNat_mul64 hmul] at hfits ⊢
  refine ⟨?_, toNat_add64 hfits⟩
  rw [addProduct, mul, guarded_of hmul, ok_bind, add, guarded_of hfits]

/-- A sum is doubled and added where the whole fits a wide word. -/
theorem addDouble_ok {sum cross : UInt64} (hfits : sum.toNat + 2 * cross.toNat < 2 ^ 64) :
    addDouble sum cross = .ok (sum + 2 * cross) ∧
      (sum + 2 * cross).toNat = sum.toNat + 2 * cross.toNat := by
  have hmul : (2 : UInt64).toNat * cross.toNat < 2 ^ 64 :=
    Nat.lt_of_le_of_lt (Nat.le_add_left _ _) hfits
  have hdouble : (2 * cross).toNat = 2 * cross.toNat := toNat_mul64 hmul
  rw [← hdouble] at hfits ⊢
  refine ⟨?_, toNat_add64 hfits⟩
  rw [addDouble, mul, guarded_of hmul, ok_bind, add, guarded_of hfits]

/-- A step along a column finds both limbs, and adds their product where it fits. -/
theorem columnStep_ok {k place : Nat} {sum : UInt64} (hplace : place < a.length)
    (hle : place ≤ k) (hopposite : k - place < b.length)
    (hfits : sum.toNat + digitAt a place * digitAt b (k - place) < 2 ^ 64) :
    ∃ t, columnStep a b k sum place = .ok t ∧
      t.toNat = sum.toNat + digitAt a place * digitAt b (k - place) := by
  obtain ⟨x, hreadx, hx⟩ := read_digitAt hplace
  obtain ⟨y, hready, hy⟩ := read_digitAt hopposite
  rw [← hx, ← hy] at hfits ⊢
  obtain ⟨hadd, ht⟩ := addProduct_ok hfits
  refine ⟨_, ?_, ht⟩
  rw [columnStep, hreadx, ok_bind, minus, guarded_of hle, ok_bind, hready, ok_bind, hadd]

/-- A column is the antidiagonal on top of what is carried, where both fit a wide word. -/
theorem columnSum_ok (ha : a ≠ []) (hb : b ≠ []) {k : Nat} {carry : UInt64}
    (hfits : carry.toNat + antidiagonal a b k < 2 ^ 64) :
    ∃ t, columnSum a b k carry = .ok t ∧ t.toNat = carry.toNat + antidiagonal a b k := by
  have hlengthA : 1 ≤ a.length := List.length_pos_of_ne_nil ha
  have hlengthB : 1 ≤ b.length := List.length_pos_of_ne_nil hb
  rw [columnSum, minus, guarded_of hlengthA, ok_bind, minus, guarded_of hlengthB, ok_bind]
  dsimp only
  rw [antidiagonal_eq_sum_Ico, Finset.sum_Ico_eq_sum_range] at hfits ⊢
  generalize hfirst : k - (b.length - 1) = first at *
  generalize hcount : min k (a.length - 1) + 1 - first = count at *
  let term (j : Nat) := digitAt a (first + j) * digitAt b (k - (first + j))
  change carry.toNat + ∑ j ∈ Finset.range count, term j < 2 ^ 64 at hfits
  -- So far the sum has the products below a place, which are part of the antidiagonal.
  have hfirstSum : carry.toNat = carry.toNat + ∑ j ∈ Finset.range 0, term j := rfl
  refine foldlM_range (fun i (t : UInt64) ↦ t.toNat = carry.toNat + ∑ j ∈ Finset.range i, term j)
    hfirstSum ?_
  intro i hi sum hsum
  have hplace : first + i < a.length := by omega
  have hle : first + i ≤ k := by omega
  have hopposite : k - (first + i) < b.length := by omega
  have hpart : ∑ j ∈ Finset.range i, term j + term i ≤ ∑ j ∈ Finset.range count, term j := by
    rw [← Finset.sum_range_succ]
    exact Finset.sum_le_sum_of_subset (Finset.range_subset_range.mpr (Nat.succ_le_of_lt hi))
  have hnext : sum.toNat + term i < 2 ^ 64 := by omega
  obtain ⟨t, hrun, ht⟩ := columnStep_ok hplace hle hopposite hnext
  refine ⟨t, hrun, ?_⟩
  rw [ht, hsum, Finset.sum_range_succ, Nat.add_assoc]

/-- Converging places keep twice the sum so far together with what is between them, where that fits
a wide word. At the end they are the same, or have passed each other. -/
theorem converge_ok {i j : Nat} {cross : UInt64} (hij : i ≤ j + 1) (hj : j < a.length)
    (hfits : 2 * cross.toNat + spanSum a i j < 2 ^ 64) :
    ∃ cross' i' j', converge a i j cross = .ok (cross', i', j') ∧ i' ≤ j' + 1 ∧ j' ≤ i' ∧
      j' < a.length ∧ 2 * cross'.toNat + spanSum a i' j' = 2 * cross.toNat + spanSum a i j := by
  unfold converge
  split
  · next h =>
    obtain ⟨x, hreadx, hx⟩ := read_digitAt (h.trans hj)
    obtain ⟨y, hready, hy⟩ := read_digitAt hj
    rw [spanSum_converge a h, ← hx, ← hy] at hfits ⊢
    have hproduct : cross.toNat + x.toNat * y.toNat < 2 ^ 64 := by omega
    obtain ⟨hadd, ht⟩ := addProduct_ok hproduct
    have hrest : 2 * (cross + x.toUInt64 * y.toUInt64).toNat + spanSum a (i + 1) (j - 1) <
        2 ^ 64 := by
      rw [ht]
      omega
    obtain ⟨cross', i', j', hrun, hij', hji', hj', hsum⟩ :=
      converge_ok (show i + 1 ≤ j - 1 + 1 by omega) (show j - 1 < a.length by omega) hrest
    refine ⟨cross', i', j', ?_, hij', hji', hj', ?_⟩
    · rw [hreadx, ok_bind, hready, ok_bind, hadd, ok_bind, hrun]
    · rw [hsum, ht]
      ring
  · next h => exact ⟨cross, i, j, rfl, hij, Nat.le_of_not_lt h, hj, rfl⟩
termination_by j - i

/-- A column of a square is the antidiagonal on top of what is carried, where both fit a wide
word. -/
theorem squareSum_ok (ha : a ≠ []) {k : Nat} (hk : k < 2 * a.length - 1) {carry : UInt64}
    (hfits : carry.toNat + antidiagonal a a k < 2 ^ 64) :
    ∃ t, squareSum a k carry = .ok t ∧ t.toNat = carry.toNat + antidiagonal a a k := by
  have hlength : 1 ≤ a.length := List.length_pos_of_ne_nil ha
  rw [antidiagonal_eq_spanSum] at hfits ⊢
  have hij : k - (a.length - 1) ≤ min k (a.length - 1) + 1 := by omega
  have hj : min k (a.length - 1) < a.length := by omega
  have hstart : 2 * (0 : UInt64).toNat + spanSum a (k - (a.length - 1)) (min k (a.length - 1)) =
      spanSum a (k - (a.length - 1)) (min k (a.length - 1)) := Nat.zero_add _
  rw [← hstart] at hfits ⊢
  obtain ⟨cross, i, j, hrun, hij', hji', hj', hsum⟩ :=
    converge_ok hij hj (Nat.lt_of_le_of_lt (Nat.le_add_left _ _) hfits)
  rw [← hsum, ← Nat.add_assoc] at hfits ⊢
  obtain ⟨hdouble, hvalue⟩ := addDouble_ok (Nat.lt_of_le_of_lt (Nat.le_add_right _ _) hfits)
  rw [← hvalue] at hfits ⊢
  rw [squareSum, minus, guarded_of hlength, ok_bind, hrun, ok_bind]
  dsimp only
  rw [hdouble, ok_bind]
  split
  · next h =>
    -- The places meet in the middle of an odd number of limbs.
    subst h
    obtain ⟨x, hread, hx⟩ := read_digitAt hj'
    rw [spanSum_self, ← hx] at hfits ⊢
    rw [hread, ok_bind]
    exact ⟨_, addProduct_ok hfits⟩
  · next h =>
    rw [spanSum_of_lt a (by omega), Nat.add_zero]
    exact ⟨_, rfl, rfl⟩

/-- What is left of so many columns with certain sums: a limb for each, and a carry of one bit more
than a word has at most, which together make up the sums at their weights. -/
structure ColumnsStored (s : Nat → Nat) (k : Nat) (state : Limbs × UInt64) : Prop where
  bounded : Bounded state.1
  length_eq : state.1.length = k
  carry_lt : state.2.toNat < 2 ^ 33
  toNat_eq : toNat state.1 + base ^ k * state.2.toNat = ∑ i ∈ Finset.range k, s i * base ^ i

/-- One more column keeps what is stored, when it is at most 64 products of limbs. -/
theorem ColumnsStored.step {column : Nat → UInt64 → Except Fault UInt64} {s : Nat → Nat} {k : Nat}
    {state : Limbs × UInt64} (h : ColumnsStored s k state)
    (hcolumn : ∃ t, column k state.2 = .ok t ∧ t.toNat = state.2.toNat + s k)
    (hs : s k ≤ columnLimit * (base * base)) :
    ∃ state', storeColumn column state k = .ok state' ∧ ColumnsStored s (k + 1) state' := by
  obtain ⟨t, hrun, ht⟩ := hcolumn
  refine ⟨(state.1 ++ [low t], high t), ?_, ?_, ?_, ?_, ?_⟩
  · rw [storeColumn, hrun, ok_bind]
  · exact h.bounded.append_low t
  · rw [List.length_append, h.length_eq]
    rfl
  · have hcarry := h.carry_lt
    rw [toNat_high, ht]
    rw [columnLimit, base_eq] at hs
    rw [base_eq]
    omega
  · have hstored := toNat_append_low state.1 t
    rw [h.length_eq] at hstored
    rw [hstored, ht, Finset.sum_range_succ, ← h.toNat_eq]
    ring

/-- Columns of at most 64 products of limbs each, whose sum at their weights needs one limb more
than there are columns at most, give the limbs of that sum. -/
theorem runColumns_eq {column : Nat → UInt64 → Except Fault UInt64} {s : Nat → Nat} {count n : Nat}
    (hcolumn : ∀ k < count, ∀ carry : UInt64, carry.toNat + s k < 2 ^ 64 →
      ∃ t, column k carry = .ok t ∧ t.toNat = carry.toNat + s k)
    (hs : ∀ k < count, s k ≤ columnLimit * (base * base))
    (hn : ∑ k ∈ Finset.range count, s k * base ^ k = n) (hfits : n < base ^ (count + 1)) :
    runColumns column count = .ok (ofNat n) := by
  have hfirst : ColumnsStored s 0 ([], 0) := ⟨bounded_nil, rfl, by decide, rfl⟩
  obtain ⟨⟨out, carry⟩, hrun, hstored⟩ := foldlM_range (ColumnsStored s) hfirst
    fun k hk state hstate ↦ by
      refine hstate.step (hcolumn k hk state.2 ?_) (hs k hk)
      have hcarry := hstate.carry_lt
      have hsum := hs k hk
      rw [columnLimit, base_eq] at hsum
      omega
  have hvalue := hstored.toNat_eq
  dsimp only at hvalue
  rw [hn] at hvalue
  have hlimb : carry.toNat < base := by
    rw [Nat.pow_succ] at hfits
    exact Nat.lt_of_mul_lt_mul_left (a := base ^ count) (by omega)
  have hword : carry.toUInt32.toNat = carry.toNat := toNat_toUInt32 (hlimb.trans (by decide))
  have hbounded : Bounded (out ++ [carry.toUInt32]) :=
    bounded_append.mpr ⟨hstored.bounded, bounded_cons.mpr ⟨hword.trans_lt hlimb, bounded_nil⟩⟩
  rw [runColumns, hrun, ok_bind]
  dsimp only
  rw [guarded_of hlimb, ok_bind, hbounded.canonical_trim.eq_ofNat]
  rw [toNat_trim, toNat_append, hstored.length_eq, toNat_cons, toNat_nil, hword, Nat.mul_zero,
    Nat.add_zero, hvalue]

/-- A product by columns runs, and gives the limbs of the product. -/
theorem mulColumns_eq (ha : Bounded a) (hb : Bounded b) (hnea : a ≠ []) (hneb : b ≠ [])
    (hlength : a.length ≤ columnLimit) : mulColumns a b = .ok (ofNat (toNat a * toNat b)) := by
  have hpos : 1 ≤ a.length + b.length := Nat.le_add_right_of_le (List.length_pos_of_ne_nil hnea)
  have hcount : a.length + b.length - 1 + 1 = a.length + b.length := Nat.sub_add_cancel hpos
  rw [mulColumns, minus, guarded_of hpos, ok_bind]
  refine runColumns_eq (s := antidiagonal a b) (fun k _ carry hfits ↦ columnSum_ok hnea hneb hfits)
    (fun k _ ↦ ?_) (sum_antidiagonal a b hcount.ge) ?_
  · exact (antidiagonal_le ha hb k).trans (Nat.mul_le_mul_right _ hlength)
  · rw [hcount]
    exact ha.toNat_mul_lt hb

/-- A square by columns runs, and gives the limbs of the square. -/
theorem squareColumns_eq (ha : Bounded a) (hne : a ≠ []) (hlength : a.length ≤ columnLimit) :
    squareColumns a = .ok (ofNat (toNat a * toNat a)) := by
  have hpos : 1 ≤ 2 * a.length :=
    Nat.mul_pos (by decide) (List.length_pos_of_ne_nil hne)
  have hcount : 2 * a.length - 1 + 1 = a.length + a.length := by omega
  rw [squareColumns, minus, guarded_of hpos, ok_bind]
  refine runColumns_eq (s := antidiagonal a a) (fun k hk carry hfits ↦ squareSum_ok hne hk hfits)
    (fun k _ ↦ ?_) (sum_antidiagonal a a hcount.ge) ?_
  · exact (antidiagonal_le ha ha k).trans (Nat.mul_le_mul_right _ hlength)
  · rw [hcount]
    exact ha.toNat_mul_lt ha

end Checked

end Secp.Limbs
