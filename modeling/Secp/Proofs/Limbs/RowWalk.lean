import Secp.Proofs.Limbs.ColumnWalk
import Secp.Proofs.Limbs.InPlace
import Secp.Proofs.Limbs.Rows

/-!
# Rows added in place with every step checked

A product by a word and a product by rows as a machine runs them. The carry of a product by a word
is stored limb by limb until nothing is left of it. A row is added to a window of one buffer, from
the place of its limb on, and what is carried out of the window goes on into the limbs above it. The
buffer is as long as both factors together, and after each row it holds a product of no more limbs.
So the carry stays in the buffer, and neither run stops with a fault.
-/

namespace Secp.Limbs.Checked

variable {a b ws pre post us xs ys : Limbs}

/-- Put the low limb of a product with a word behind those below it, and carry the rest. -/
def wordStep (m : UInt32) (state : Limbs × UInt64) (w : UInt32) :
    Except Fault (Limbs × UInt64) := do
  let t ← addProduct state.2 w m
  .ok (state.1 ++ [low t], high t)

/-- The product of a magnitude and a word. -/
def mulWord (a : Limbs) (m : UInt32) : Except Fault Limbs :=
  if m = 0 ∨ a = [] then .ok []
  else do
    let (out, carry) ← a.foldlM (wordStep m) ([], 0)
    .ok (out ++ ofWord carry)

/-- Add a product of limbs and a carry to a limb of the buffer. -/
def rowStep (x : UInt32) (carry : UInt64) (o y : UInt32) : Except Fault (UInt64 × UInt32) := do
  let sum ← addProduct o.toUInt64 x y
  let t ← add sum carry
  .ok (high t, low t)

/-- Add a carry to the limbs from a place on, until nothing is carried. -/
def ripple (out : Limbs) (place : Nat) (carry : UInt64) : Except Fault Limbs :=
  if carry = 0 then .ok out
  else if h : place < out.length then do
    let t ← add out[place].toUInt64 carry
    ripple (out.set place (low t)) (place + 1) (high t)
  else .error .outOfBounds
termination_by out.length - place
decreasing_by
  rw [List.length_set]
  omega

/-- Add the row of a limb into the buffer, from the limb's place on. The row of zero is skipped. -/
def addRow (a b out : Limbs) (place : Nat) : Except Fault Limbs := do
  let x ← read a place
  if x = 0 then .ok out
  else
    let (carry, out) ← sweep (rowStep x) b place 0 out
    ripple out (place + b.length) carry

/-- Product by rows. -/
def mulRows (a b : Limbs) : Except Fault Limbs := do
  let out ← (List.range a.length).foldlM (addRow a b) (List.replicate (a.length + b.length) 0)
  .ok (trim out)

/-- Multiplying limbs by a word runs, and leaves a carry whose limbs are the last of the product. -/
theorem foldlM_wordStep {m : UInt32} {c : UInt64} (hws : Bounded ws) (hc : c.toNat < 2 ^ 33)
    (made : Limbs) :
    ∃ out c', ws.foldlM (wordStep m) (made, c) = .ok (out, c') ∧
      out ++ ofWord c' = made ++ mulWith m.toUInt64 ws c := by
  induction ws generalizing made c with
  | nil => exact ⟨made, c, rfl, rfl⟩
  | cons w ws ih =>
    obtain ⟨hw, hws⟩ := bounded_cons.mp hws
    have hm : m.toUInt64.toNat < 2 ^ 32 := m.toNat_lt
    have hfits : c.toNat + w.toNat * m.toNat < 2 ^ 64 := by
      rw [Nat.add_comm, ← UInt32.toNat_toUInt64 m, ← toNat_mulStep hw hm hc]
      exact UInt64.toNat_lt _
    obtain ⟨hadd, -⟩ := addProduct_ok hfits
    rw [UInt64.add_comm] at hadd
    obtain ⟨out, c', hrun, hout⟩ := ih hws (mulCarry_lt hw hm hc)
      (made ++ [low (w.toUInt64 * m.toUInt64 + c)])
    refine ⟨out, c', ?_, ?_⟩
    · rw [List.foldlM_cons, wordStep, hadd, ok_bind, ok_bind, hrun]
    · rw [hout, mulWith, List.append_assoc, List.singleton_append]

/-- A product by a word runs, and gives the limbs of the product. -/
theorem mulWord_eq (ha : Canonical a) (m : UInt32) :
    mulWord a m = .ok (ofNat (toNat a * m.toNat)) := by
  rw [← (canonical_mulWord ha m).eq_ofNat (toNat_mulWord ha.1 m), mulWord, Limbs.mulWord]
  split
  · rfl
  · obtain ⟨out, c, hrun, hout⟩ := foldlM_wordStep (m := m) (c := 0) ha.1 (by decide) []
    rw [hrun, ok_bind]
    dsimp only
    rw [hout, List.nil_append]

/-- How far a row has come: the limbs made, and at their weight what is carried, the buffer's limbs
ahead and the products ahead make up a total. -/
structure RowAdding (x : UInt32) (total : Nat) (carry : UInt64) (made xs ys : Limbs) : Prop where
  bounded_made : Bounded made
  bounded_buffer : Bounded xs
  bounded_row : Bounded ys
  carry_lt : carry.toNat < base
  total_eq :
    toNat made + base ^ made.length * (carry.toNat + toNat xs + x.toNat * toNat ys) = total

/-- A step along a row runs, and keeps the total. -/
theorem RowAdding.step {x o y : UInt32} {total : Nat} {c : UInt64} {made : Limbs}
    (hx : x.toNat < base) (h : RowAdding x total c made (o :: xs) (y :: ys)) :
    ∃ c' w, rowStep x c o y = .ok (c', w) ∧ RowAdding x total c' (made ++ [w]) xs ys := by
  obtain ⟨ho, hxs⟩ := bounded_cons.mp h.bounded_buffer
  obtain ⟨hy, hys⟩ := bounded_cons.mp h.bounded_row
  rw [← UInt32.toNat_toUInt64] at hx
  have ht := toNat_rowStep ho hy hx h.carry_lt
  have hcarry := rowCarry_lt ho hy hx h.carry_lt
  generalize hword : o.toUInt64 + x.toUInt64 * y.toUInt64 + c = t at ht hcarry
  rw [UInt32.toNat_toUInt64] at ht
  have hfits : o.toNat + x.toNat * y.toNat + c.toNat < 2 ^ 64 := ht ▸ t.toNat_lt
  rw [← UInt32.toNat_toUInt64 o] at hfits
  obtain ⟨hproduct, hsum⟩ := addProduct_ok (Nat.lt_of_le_of_lt (Nat.le_add_right _ _) hfits)
  rw [← hsum] at hfits
  refine ⟨high t, low t, ?_, ?_, hxs, hys, hcarry, ?_⟩
  · rw [rowStep, hproduct, ok_bind, add, guarded_of hfits, ok_bind, hword]
  · exact h.bounded_made.append_low t
  · rw [List.length_append, List.length_singleton, Nat.add_assoc (high t).toNat, Nat.mul_add,
      ← Nat.add_assoc, toNat_append_low, ht, ← h.total_eq, toNat_cons, toNat_cons, Nat.pow_succ]
    ring

/-- A limb and a carry that is a limb fit a wide word, and what is carried on is a limb again. -/
theorem add_limb_ok {o : UInt32} {carry : UInt64} (ho : o.toNat < base) (hc : carry.toNat < base) :
    ∃ t, add o.toUInt64 carry = .ok t ∧ t.toNat = o.toNat + carry.toNat ∧
      (high t).toNat < base := by
  have hadd : o.toUInt64.toNat + carry.toNat < 2 ^ 64 := by
    rw [UInt32.toNat_toUInt64]
    rw [base_eq] at ho hc
    omega
  have ht : (o.toUInt64 + carry).toNat = o.toNat + carry.toNat := toNat_add64 hadd
  refine ⟨o.toUInt64 + carry, guarded_of hadd _ _, ht, ?_⟩
  rw [toNat_high, ht]
  rw [base_eq] at ho hc ⊢
  omega

/-- A carry goes on into the limbs above a place, where they have room for it. -/
theorem ripple_ok {carry : UInt64} (pre : Limbs) (hpost : Bounded post) (hc : carry.toNat < base)
    (hfits : toNat post + carry.toNat < base ^ post.length) :
    ∃ post', ripple (pre ++ post) pre.length carry = .ok (pre ++ post') ∧ Bounded post' ∧
      post'.length = post.length ∧ toNat post' = toNat post + carry.toNat := by
  induction post generalizing pre carry with
  | nil =>
    have hzero : carry = 0 := by
      rw [← UInt64.toNat_inj, UInt64.toNat_zero]
      rw [toNat_nil, List.length_nil, Nat.pow_zero] at hfits
      omega
    refine ⟨[], ?_, bounded_nil, rfl, ?_⟩
    · rw [ripple, if_pos hzero]
    · rw [hzero]
      rfl
  | cons o os ih =>
    obtain ⟨ho, hos⟩ := bounded_cons.mp hpost
    rw [ripple]
    split
    · next hzero =>
      refine ⟨o :: os, rfl, hpost, rfl, ?_⟩
      rw [hzero]
      rfl
    · have hplace : pre.length < (pre ++ o :: os).length := by simp
      have hlimb : (pre ++ o :: os)[pre.length] = o := by simp
      obtain ⟨t, hadd, ht, hcarry⟩ := add_limb_ok ho hc
      have hsplit := Nat.mod_add_div (o.toNat + carry.toNat) base
      have hrest : toNat os + (high t).toNat < base ^ os.length := by
        rw [toNat_cons, List.length_cons, Nat.pow_succ'] at hfits
        refine Nat.lt_of_mul_lt_mul_left (a := base) (Nat.lt_of_le_of_lt ?_ hfits)
        rw [toNat_high, ht, Nat.mul_add]
        omega
      obtain ⟨post', hrun, hbounded, hlength, hvalue⟩ := ih (pre ++ [low t]) hos hcarry hrest
      refine ⟨low t :: post', ?_, bounded_cons.mpr ⟨low_lt t, hbounded⟩, congrArg Nat.succ hlength,
        ?_⟩
      · rw [dif_pos hplace, hlimb, hadd, ok_bind]
        simpa using hrun
      · rw [toNat_cons, hvalue, toNat_low, toNat_high, ht, toNat_cons, Nat.mul_add]
        omega

/-- A row over a window runs, and the window with what is carried out of it is the sum. -/
theorem sweep_rowStep (pre post : Limbs) {x : UInt32} (hx : x.toNat < base) (hus : Bounded us)
    (hb : Bounded b) (hlength : us.length = b.length) :
    ∃ carry us', sweep (rowStep x) b pre.length 0 (pre ++ us ++ post) =
        .ok (carry, pre ++ us' ++ post) ∧
      us'.length = us.length ∧ Bounded us' ∧ carry.toNat < base ∧
      toNat us' + base ^ us.length * carry.toNat = toNat us + x.toNat * toNat b := by
  have hfirst : RowAdding x (toNat us + x.toNat * toNat b) 0 [] us b :=
    ⟨bounded_nil, hus, hb, by decide, by simp⟩
  obtain ⟨carry, us', hrun, hlength', hrow⟩ :=
    sweep_ok pre post hlength hfirst fun _ _ _ _ _ _ h ↦ h.step hx
  have htotal := hrow.total_eq
  rw [toNat_nil, Nat.mul_zero, Nat.add_zero, hlength'] at htotal
  exact ⟨carry, us', hrun, hlength', hrow.bounded_made, hrow.carry_lt, htotal⟩

/-- A buffer has a window wherever it is long enough. -/
theorem exists_window {out : Limbs} {place count : Nat} (h : place + count ≤ out.length) :
    ∃ pre us post, out = pre ++ us ++ post ∧ pre.length = place ∧ us.length = count := by
  refine ⟨out.take place, (out.drop place).take count, out.drop (place + count), ?_, ?_, ?_⟩
  · rw [List.append_assoc, ← List.drop_drop, List.take_append_drop, List.take_append_drop]
  · exact List.length_take_of_le (by omega)
  · exact List.length_take_of_le (by rw [List.length_drop]; omega)

/-- The row of a limb is added at its weight, where the buffer has room for the sum. -/
theorem addRow_ok {out : Limbs} {place : Nat} (ha : Bounded a) (hb : Bounded b)
    (hout : Bounded out) (hplace : place < a.length) (hroom : place + b.length ≤ out.length)
    (hfits : toNat out + base ^ place * (digitAt a place * toNat b) < base ^ out.length) :
    ∃ out', addRow a b out place = .ok out' ∧ Bounded out' ∧ out'.length = out.length ∧
      toNat out' = toNat out + base ^ place * (digitAt a place * toNat b) := by
  obtain ⟨x, hread, hx⟩ := read_digitAt hplace
  have hlimb : x.toNat < base := hx ▸ ha.getD_lt place
  rw [← hx] at hfits ⊢
  rw [addRow, hread, ok_bind]
  split
  · next hzero =>
    refine ⟨out, rfl, hout, rfl, ?_⟩
    rw [hzero, UInt32.toNat_zero, Nat.zero_mul, Nat.mul_zero, Nat.add_zero]
  · obtain ⟨pre, us, post, rfl, rfl, hlength⟩ := exists_window hroom
    obtain ⟨hbelow, hpost⟩ := bounded_append.mp hout
    obtain ⟨hpre, hus⟩ := bounded_append.mp hbelow
    obtain ⟨carry, us', hsweep, hlength', hus', hcarry, hrow⟩ :=
      sweep_rowStep pre post hlimb hus hb hlength
    have hstart : pre.length + b.length = (pre ++ us').length := by
      rw [List.length_append, hlength', hlength]
    have hsize : (pre ++ us ++ post).length = (pre ++ us').length + post.length := by
      simp only [List.length_append, hlength']
    -- What is carried out of the window counts once more for the limbs above it.
    have hsum : toNat (pre ++ us ++ post) + base ^ pre.length * (x.toNat * toNat b) =
        toNat (pre ++ us') + base ^ (pre ++ us').length * (toNat post + carry.toNat) := by
      simp only [toNat_append, List.length_append, hlength', Nat.pow_add]
      calc toNat pre + base ^ pre.length * toNat us +
            base ^ pre.length * base ^ us.length * toNat post +
              base ^ pre.length * (x.toNat * toNat b)
          = toNat pre + base ^ pre.length * (toNat us + x.toNat * toNat b) +
              base ^ pre.length * base ^ us.length * toNat post := by ring
        _ = toNat pre + base ^ pre.length * toNat us' +
              base ^ pre.length * base ^ us.length * (toNat post + carry.toNat) := by
          rw [← hrow]
          ring
    have hspace : toNat post + carry.toNat < base ^ post.length := by
      rw [hsum, hsize, Nat.pow_add] at hfits
      exact Nat.lt_of_mul_lt_mul_left (Nat.lt_of_le_of_lt (Nat.le_add_left _ _) hfits)
    obtain ⟨post', hripple, hpost', hlength'', hvalue⟩ := ripple_ok (pre ++ us') hpost hcarry hspace
    refine ⟨pre ++ us' ++ post', ?_, ?_, ?_, ?_⟩
    · rw [hsweep, ok_bind]
      dsimp only
      rw [hstart, hripple]
    · exact bounded_append.mpr ⟨bounded_append.mpr ⟨hpre, hus'⟩, hpost'⟩
    · rw [hsize, List.length_append, hlength'']
    · rw [hsum, toNat_append, hvalue]

/-- What the rows of so many limbs have made of the buffer: their product. -/
structure RowsAdded (a b : Limbs) (count : Nat) (out : Limbs) : Prop where
  bounded : Bounded out
  length_eq : out.length = a.length + b.length
  toNat_eq : toNat out = toNat (a.take count) * toNat b

/-- One more limb stands at its place. -/
theorem toNat_take_succ {place : Nat} (h : place < ws.length) :
    toNat (ws.take (place + 1)) = toNat (ws.take place) + base ^ place * digitAt ws place := by
  have hlast : digitAt ws place = ws[place].toNat := by
    simp [digitAt, List.getElem?_eq_getElem h]
  rw [List.take_succ_eq_append_getElem h, toNat_append, List.length_take_of_le h.le, hlast,
    toNat_cons, toNat_nil, Nat.mul_zero, Nat.add_zero]

/-- One more row keeps the buffer's product; there is room for it. -/
theorem RowsAdded.step {out : Limbs} {place : Nat} (ha : Bounded a) (hb : Bounded b)
    (hplace : place < a.length) (h : RowsAdded a b place out) :
    ∃ out', addRow a b out place = .ok out' ∧ RowsAdded a b (place + 1) out' := by
  have hsum : toNat out + base ^ place * (digitAt a place * toNat b) =
      toNat (a.take (place + 1)) * toNat b := by
    rw [h.toNat_eq, toNat_take_succ hplace]
    ring
  have hfits : toNat out + base ^ place * (digitAt a place * toNat b) < base ^ out.length := by
    have hlength : (a.take (place + 1)).length ≤ a.length := List.length_take_le' _ _
    rw [hsum, h.length_eq]
    exact Nat.lt_of_lt_of_le ((ha.take (place + 1)).toNat_mul_lt hb)
      (Nat.pow_le_pow_right (by decide) (Nat.add_le_add_right hlength _))
  have hroom : place + b.length ≤ out.length := by
    rw [h.length_eq]
    omega
  obtain ⟨out', hrun, hbounded, hlength, hvalue⟩ := addRow_ok ha hb h.bounded hplace hroom hfits
  exact ⟨out', hrun, hbounded, hlength.trans h.length_eq, hvalue.trans hsum⟩

/-- A product by rows runs, and gives the limbs of the product. -/
theorem mulRows_eq (ha : Bounded a) (hb : Bounded b) :
    mulRows a b = .ok (ofNat (toNat a * toNat b)) := by
  have hfirst : RowsAdded a b 0 (List.replicate (a.length + b.length) 0) := by
    refine ⟨bounded_replicate_zero _, List.length_replicate, ?_⟩
    rw [toNat_replicate_zero, List.take_zero, toNat_nil, Nat.zero_mul]
  obtain ⟨out, hrun, hrows⟩ := foldlM_range (RowsAdded a b) hfirst
    fun _ hplace _ h ↦ h.step ha hb hplace
  have hvalue := hrows.toNat_eq
  rw [List.take_length] at hvalue
  rw [mulRows, hrun, ok_bind, hrows.bounded.canonical_trim.eq_ofNat ((toNat_trim out).trans hvalue)]

end Secp.Limbs.Checked
