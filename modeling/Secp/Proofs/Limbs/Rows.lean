import Secp.Limbs.Product
import Secp.Proofs.Limbs.Value

/-!
# Products by a word and by rows

A product by a word passes on a carry that stays below twice the word. A row of a long product is
added modulo the size of the buffer, which is large enough for the whole, so that nothing is lost.
-/

namespace Secp.Limbs

variable {a b xs ys ws : Limbs}

/-- A limb times a word, with a carry. -/
theorem toNat_mulStep {w : UInt32} {m c : UInt64} (hw : w.toNat < base) (hm : m.toNat < 2 ^ 32)
    (hc : c.toNat < 2 ^ 33) : (w.toUInt64 * m + c).toNat = w.toNat * m.toNat + c.toNat := by
  have hle : w.toNat * m.toNat ≤ base * 2 ^ 32 := Nat.mul_le_mul hw.le hm.le
  rw [base_eq] at hle
  rw [← UInt32.toNat_toUInt64] at hle ⊢
  exact toNat_mul_add64 (by omega)

/-- The carry out of a limb times a word. -/
theorem mulCarry_lt {w : UInt32} {m c : UInt64} (hw : w.toNat < base) (hm : m.toNat < 2 ^ 32)
    (hc : c.toNat < 2 ^ 33) : (high (w.toUInt64 * m + c)).toNat < 2 ^ 33 := by
  have hle : w.toNat * m.toNat ≤ base * 2 ^ 32 := Nat.mul_le_mul hw.le hm.le
  rw [toNat_high, toNat_mulStep hw hm hc]
  rw [base_eq] at hle ⊢
  omega

/-- Multiplying limbs by a word multiplies the number and adds the carry. -/
theorem toNat_mulWith (h : Bounded ws) {m c : UInt64} (hm : m.toNat < 2 ^ 32)
    (hc : c.toNat < 2 ^ 33) : toNat (mulWith m ws c) = toNat ws * m.toNat + c.toNat := by
  fun_induction mulWith m ws c with
  | case1 c => rw [toNat_ofWord, toNat_nil, Nat.zero_mul, Nat.zero_add]
  | case2 w ws c t ih =>
    obtain ⟨hw, hws⟩ := bounded_cons.mp h
    have ht : t.toNat = w.toNat * m.toNat + c.toNat := toNat_mulStep hw hm hc
    rw [toNat_cons, toNat_cons, ih hws (mulCarry_lt hw hm hc), toNat_low, toNat_high,
      mod_add_base_mul, ht]
    ring

/-- Limbs times a word are limbs. -/
theorem bounded_mulWith (m : UInt64) (ws : Limbs) (c : UInt64) : Bounded (mulWith m ws c) := by
  fun_induction mulWith m ws c with
  | case1 c => exact (canonical_ofWord c).1
  | case2 w ws c t ih => exact bounded_cons.mpr ⟨low_lt t, ih⟩

/-- No leading zero limb arises from a product with a word other than zero. -/
theorem trimmed_mulWith (h : Canonical ws) {m c : UInt64} (hm : m.toNat < 2 ^ 32)
    (hne : m.toNat ≠ 0) (hc : c.toNat < 2 ^ 33) : Trimmed (mulWith m ws c) := by
  fun_induction mulWith m ws c with
  | case1 c => exact (canonical_ofWord c).2
  | case2 w ws c t ih =>
    obtain ⟨hw, hws⟩ := bounded_cons.mp h.1
    refine (ih h.of_cons (mulCarry_lt hw hm hc)).cons ?_
    have hvalue := toNat_mulWith h.1 hm hc
    have hpos := h.2.toNat_ne_zero (List.cons_ne_nil w ws)
    have hscaled := Nat.mul_ne_zero hpos hne
    change toNat (low t :: mulWith m ws (high t)) = _ at hvalue
    omega

/-- The product of a magnitude and a word denotes the product of their numbers. -/
theorem toNat_mulWord (ha : Bounded a) (m : UInt32) :
    toNat (mulWord a m) = toNat a * m.toNat := by
  unfold mulWord
  split
  · next hzero => rcases hzero with rfl | rfl <;> simp
  · rw [toNat_mulWith ha (by rw [UInt32.toNat_toUInt64]; exact m.toNat_lt) (by decide),
      UInt32.toNat_toUInt64]
    rfl

/-- The product of limbs and a word has limbs only. -/
theorem bounded_mulWord (a : Limbs) (m : UInt32) : Bounded (mulWord a m) := by
  unfold mulWord
  split
  · exact bounded_nil
  · exact bounded_mulWith _ _ _

/-- The product of a canonical magnitude and a word is canonical. -/
theorem canonical_mulWord (ha : Canonical a) (m : UInt32) : Canonical (mulWord a m) := by
  refine ⟨bounded_mulWord a m, ?_⟩
  unfold mulWord
  split
  · exact nofun
  · next hne =>
    refine trimmed_mulWith ha ?_ ?_ (by decide)
    · rw [UInt32.toNat_toUInt64]
      exact m.toNat_lt
    · exact fun hzero ↦ hne (.inl (UInt32.toNat_inj.mp hzero))

/-- A limb of the buffer and a product of limbs, with a carry. -/
theorem toNat_rowStep {o y : UInt32} {x c : UInt64} (ho : o.toNat < base) (hy : y.toNat < base)
    (hx : x.toNat < base) (hc : c.toNat < base) :
    (o.toUInt64 + x * y.toUInt64 + c).toNat = o.toNat + x.toNat * y.toNat + c.toNat := by
  have hle : x.toNat * y.toNat ≤ base * base := Nat.mul_le_mul hx.le hy.le
  rw [base_eq] at *
  rw [← UInt32.toNat_toUInt64 o, ← UInt32.toNat_toUInt64 y] at *
  have hsum : (x * y.toUInt64 + o.toUInt64).toNat =
      x.toNat * y.toUInt64.toNat + o.toUInt64.toNat := toNat_mul_add64 (by omega)
  rw [UInt64.add_comm o.toUInt64, toNat_add64 (by rw [hsum]; omega), hsum,
    Nat.add_comm o.toUInt64.toNat]

/-- The carry out of a limb of the buffer and a product of limbs is a limb. -/
theorem rowCarry_lt {o y : UInt32} {x c : UInt64} (ho : o.toNat < base) (hy : y.toNat < base)
    (hx : x.toNat < base) (hc : c.toNat < base) :
    (high (o.toUInt64 + x * y.toUInt64 + c)).toNat < base := by
  have hle : x.toNat * y.toNat ≤ (base - 1) * (base - 1) :=
    Nat.mul_le_mul (Nat.le_pred_of_lt hx) (Nat.le_pred_of_lt hy)
  rw [toNat_high, toNat_rowStep ho hy hx hc]
  rw [base_eq] at *
  omega

/-- A row is added into a buffer modulo the buffer's size. -/
theorem toNat_addScaled {os : Limbs} (hos : Bounded os) (hys : Bounded ys) {x c : UInt64}
    (hx : x.toNat < base) (hc : c.toNat < base) :
    toNat (addScaled x os ys c) =
      (toNat os + x.toNat * toNat ys + c.toNat) % base ^ os.length := by
  fun_induction addScaled x os ys c with
  | case1 ys c => exact (Nat.mod_one _).symm
  | case2 o os =>
    rw [toNat_nil, UInt64.toNat_zero, Nat.mul_zero, Nat.add_zero, Nat.mod_eq_of_lt hos.toNat_lt]
  | case3 o os c hne t ih =>
    obtain ⟨ho, hos⟩ := bounded_cons.mp hos
    have ht : t.toNat = o.toNat + c.toNat := by
      rw [base_eq] at ho hc
      rw [← UInt32.toNat_toUInt64 o] at ho ⊢
      exact toNat_add64 (by omega)
    have hcarry : (high t).toNat < base := by
      rw [toNat_high, ht]
      rw [base_eq] at *
      omega
    rw [toNat_cons, toNat_cons, ih hos hys hcarry, toNat_low, toNat_high, toNat_nil,
      Nat.mul_zero, Nat.add_zero, mod_add_base_mul_mod, ht]
    congr 1
    ring
  | case4 o os y ys c t ih =>
    obtain ⟨ho, hos⟩ := bounded_cons.mp hos
    obtain ⟨hy, hys⟩ := bounded_cons.mp hys
    have ht : t.toNat = o.toNat + x.toNat * y.toNat + c.toNat := toNat_rowStep ho hy hx hc
    rw [toNat_cons, toNat_cons, toNat_cons, ih hos hys (rowCarry_lt ho hy hx hc), toNat_low,
      toNat_high, mod_add_base_mul_mod, ht]
    congr 1
    ring

/-- Adding a row keeps the limbs of a buffer limbs. -/
theorem bounded_addScaled {os : Limbs} (hos : Bounded os) (x : UInt64) (ys : Limbs)
    (c : UInt64) : Bounded (addScaled x os ys c) := by
  fun_induction addScaled x os ys c with
  | case1 ys c => exact bounded_nil
  | case2 o os => exact hos
  | case3 o os c hne t ih => exact bounded_cons.mpr ⟨low_lt t, ih (bounded_cons.mp hos).2⟩
  | case4 o os y ys c t ih => exact bounded_cons.mpr ⟨low_lt t, ih (bounded_cons.mp hos).2⟩

/-- Adding a row keeps the length of a buffer. -/
theorem length_addScaled (x : UInt64) (os ys : Limbs) (c : UInt64) :
    (addScaled x os ys c).length = os.length := by
  fun_induction addScaled x os ys c with
  | case1 | case2 => rfl
  | case3 o os c hne t ih => exact congrArg Nat.succ ih
  | case4 o os y ys c t ih => exact congrArg Nat.succ ih

/-- The buffer after the row of one limb, which is skipped for zero. -/
structure RowAdded (x : UInt32) (b out row : Limbs) : Prop where
  bounded : Bounded row
  length_eq : row.length = out.length
  toNat_eq : toNat row = (toNat out + x.toNat * toNat b) % base ^ out.length

/-- The row of one limb is added modulo the buffer's size, whether it is skipped or not. -/
theorem rowAdded {out : Limbs} {x : UInt32} (hout : Bounded out) (hb : Bounded b)
    (hx : x.toNat < base) :
    RowAdded x b out (if x = 0 then out else addScaled x.toUInt64 out b 0) := by
  split
  · next hzero =>
    refine ⟨hout, rfl, ?_⟩
    rw [hzero, UInt32.toNat_zero, Nat.zero_mul, Nat.add_zero, Nat.mod_eq_of_lt hout.toNat_lt]
  · rw [← UInt32.toNat_toUInt64] at hx
    refine ⟨bounded_addScaled hout _ _ _, length_addScaled _ _ _ _, ?_⟩
    rw [toNat_addScaled hout hb hx (by decide), UInt32.toNat_toUInt64]
    rfl

/-- The rows of a product are added into a buffer modulo the buffer's size. -/
theorem toNat_addRows {out : Limbs} (hxs : Bounded xs) (hb : Bounded b) (hout : Bounded out) :
    toNat (addRows xs b out) = (toNat out + toNat xs * toNat b) % base ^ out.length ∧
      Bounded (addRows xs b out) := by
  induction xs generalizing out with
  | nil =>
    refine ⟨?_, hout⟩
    rw [addRows, toNat_nil, Nat.zero_mul, Nat.add_zero, Nat.mod_eq_of_lt hout.toNat_lt]
  | cons x xs ih =>
    obtain ⟨hx, hxs⟩ := bounded_cons.mp hxs
    have hrow := rowAdded hout hb hx
    rw [addRows]
    generalize (if x = 0 then out else addScaled x.toUInt64 out b 0) = row at hrow
    cases row with
    | nil =>
      have hlength : out.length = 0 := hrow.length_eq.symm
      rw [hlength, Nat.pow_zero, Nat.mod_one]
      exact ⟨rfl, bounded_nil⟩
    | cons o os =>
      obtain ⟨ho, hos⟩ := bounded_cons.mp hrow.bounded
      obtain ⟨hvalue, hrest⟩ := ih hxs hos
      refine ⟨?_, bounded_cons.mpr ⟨ho, hrest⟩⟩
      have hfirst : toNat (o :: os) % base = o.toNat := by
        rw [toNat_cons, Nat.add_mul_mod_self_left, Nat.mod_eq_of_lt ho]
      have hothers : toNat (o :: os) / base = toNat os := by
        rw [toNat_cons, Nat.add_mul_div_left _ _ (by decide), Nat.div_eq_of_lt ho, Nat.zero_add]
      rw [toNat_cons, hvalue, ← hfirst, Nat.add_comm (toNat os), ← hothers,
        mod_add_base_mul_mod, hrow.toNat_eq, ← hrow.length_eq, List.length_cons,
        Nat.add_mod_mod, toNat_cons]
      congr 1
      ring

/-- The product by rows denotes the product of the numbers. -/
theorem toNat_mulRows (ha : Bounded a) (hb : Bounded b) :
    toNat (mulRows a b) = toNat a * toNat b := by
  rw [mulRows, toNat_trim, (toNat_addRows ha hb (bounded_replicate_zero _)).1,
    toNat_replicate_zero, List.length_replicate, Nat.zero_add,
    Nat.mod_eq_of_lt (ha.toNat_mul_lt hb)]

/-- The product by rows is canonical. -/
theorem canonical_mulRows (ha : Bounded a) (hb : Bounded b) : Canonical (mulRows a b) :=
  (toNat_addRows ha hb (bounded_replicate_zero _)).2.canonical_trim

end Secp.Limbs
