import Mathlib.Tactic.Ring
import Secp.Proofs.Limbs.Word

/-!
# Magnitudes and the numbers they denote

A magnitude of limbs denotes a number below the base to its length, trimming changes neither the
number nor the bound, and a canonical magnitude is the only one of its number. So comparing
canonical magnitudes compares numbers.
-/

namespace Secp.Limbs

variable {ws xs ys : Limbs} {w : UInt32}

/-- No limbs denote zero. -/
@[simp] theorem toNat_nil : toNat [] = 0 := rfl

/-- The first limb counts once, all others once for each step of the base. -/
@[simp] theorem toNat_cons (w : UInt32) (ws : Limbs) :
    toNat (w :: ws) = w.toNat + base * toNat ws := rfl

/-- Limbs further up weigh as much more as there are limbs below. -/
theorem toNat_append (xs ys : Limbs) :
    toNat (xs ++ ys) = toNat xs + base ^ xs.length * toNat ys := by
  induction xs with
  | nil => simp
  | cons x xs ih =>
    rw [List.cons_append, toNat_cons, toNat_cons, ih, List.length_cons, Nat.pow_succ]
    ring

/-- Zero limbs denote zero. -/
@[simp] theorem toNat_replicate_zero (count : Nat) : toNat (List.replicate count 0) = 0 := by
  induction count with
  | zero => rfl
  | succ count ih => rw [List.replicate_succ, toNat_cons, ih]; rfl

/-- The low limbs and the others make up the number. -/
theorem toNat_take_add_drop (ws : Limbs) (count : Nat) (h : count ≤ ws.length) :
    toNat (ws.take count) + base ^ count * toNat (ws.drop count) = toNat ws := by
  have happend := toNat_append (ws.take count) (ws.drop count)
  rw [List.take_append_drop, List.length_take, Nat.min_eq_left h] at happend
  exact happend.symm

/-- The empty magnitude has limbs only. -/
theorem bounded_nil : Bounded [] := nofun

/-- The words of a magnitude are limbs when the first is and all others are. -/
theorem bounded_cons : Bounded (w :: ws) ↔ w.toNat < base ∧ Bounded ws := List.forall_mem_cons

/-- The words of two magnitudes in a row are limbs when those of both are. -/
theorem bounded_append : Bounded (xs ++ ys) ↔ Bounded xs ∧ Bounded ys := List.forall_mem_append

/-- Zero limbs are limbs. -/
theorem bounded_replicate_zero (count : Nat) : Bounded (List.replicate count 0) := by
  intro w hw
  rw [List.eq_of_mem_replicate hw]
  decide

/-- The low words of a magnitude are limbs. -/
theorem Bounded.take (h : Bounded ws) (count : Nat) : Bounded (ws.take count) :=
  fun w hw ↦ h w (List.mem_of_mem_take hw)

/-- The high words of a magnitude are limbs. -/
theorem Bounded.drop (h : Bounded ws) (count : Nat) : Bounded (ws.drop count) :=
  fun w hw ↦ h w (List.mem_of_mem_drop hw)

/-- All words but the first are limbs. -/
theorem Bounded.tail (h : Bounded ws) : Bounded ws.tail :=
  fun w hw ↦ h w (List.mem_of_mem_tail hw)

/-- The first word, or zero where there is none, is a limb. -/
theorem Bounded.headD_lt (h : Bounded ws) : (ws.headD 0).toNat < base := by
  cases ws with
  | nil => decide
  | cons w ws => exact h w List.mem_cons_self

/-- The first limb of a number and the others. -/
theorem toNat_headD_tail (ws : Limbs) : toNat ws = (ws.headD 0).toNat + base * toNat ws.tail := by
  cases ws with
  | nil => rfl
  | cons w ws => rfl

/-- Limbs denote a number below the base to their count. -/
theorem Bounded.toNat_lt (h : Bounded ws) : toNat ws < base ^ ws.length := by
  induction ws with
  | nil => exact Nat.one_pos
  | cons w ws ih =>
    obtain ⟨hw, hws⟩ := bounded_cons.mp h
    have hlt := ih hws
    rw [toNat_cons, List.length_cons, Nat.pow_succ']
    calc w.toNat + base * toNat ws < base + base * toNat ws := Nat.add_lt_add_right hw _
      _ = base * (toNat ws + 1) := by ring
      _ ≤ base * base ^ ws.length := Nat.mul_le_mul_left _ hlt

/-- A product needs at most as many limbs as its factors have together. -/
theorem Bounded.toNat_mul_lt (hxs : Bounded xs) (hys : Bounded ys) :
    toNat xs * toNat ys < base ^ (xs.length + ys.length) := by
  rw [Nat.pow_add]
  exact Nat.mul_lt_mul'' hxs.toNat_lt hys.toNat_lt

/-- Limbs below a magnitude add less than one to it at its weight. -/
theorem Bounded.toNat_append_lt (h : Bounded xs) (ys : Limbs) :
    toNat (xs ++ ys) < base ^ xs.length * (toNat ys + 1) := by
  rw [toNat_append, Nat.mul_succ, Nat.add_comm]
  exact Nat.add_lt_add_left h.toNat_lt _

/-- Dropping leading zero limbs keeps the number. -/
@[simp] theorem toNat_trim (ws : Limbs) : toNat (trim ws) = toNat ws := by
  induction ws with
  | nil => rfl
  | cons w ws ih =>
    rw [trim, toNat_cons, ← ih]
    cases trim ws with
    | nil => by_cases hw : w = 0 <;> simp [hw]
    | cons v vs => rfl

/-- Dropping leading zero limbs leaves limbs. -/
theorem Bounded.trim (h : Bounded ws) : Bounded (trim ws) := by
  induction ws with
  | nil => exact bounded_nil
  | cons w ws ih =>
    obtain ⟨hw, hws⟩ := bounded_cons.mp h
    have htrim := ih hws
    unfold Limbs.trim
    split
    · split
      · exact bounded_nil
      · exact bounded_cons.mpr ⟨hw, bounded_nil⟩
    · next h => exact bounded_cons.mpr ⟨hw, h ▸ htrim⟩

/-- A magnitude has no leading zero when what is above its first limb has none, and that limb is
not zero where there is nothing above it. -/
theorem trimmed_cons : Trimmed (w :: ws) ↔ (ws = [] → w ≠ 0) ∧ Trimmed ws := by
  cases ws with
  | nil => simp [Trimmed]
  | cons v vs => simp [Trimmed]

/-- No leading zero limb is left. -/
theorem trimmed_trim (ws : Limbs) : Trimmed (trim ws) := by
  induction ws with
  | nil => exact nofun
  | cons w ws ih =>
    unfold trim
    split
    · split
      · exact nofun
      · next hw => exact trimmed_cons.mpr ⟨fun _ ↦ hw, nofun⟩
    · next h => exact trimmed_cons.mpr ⟨nofun, h ▸ ih⟩

/-- Limbs without the leading zeros are canonical. -/
theorem Bounded.canonical_trim (h : Bounded ws) : Canonical (Limbs.trim ws) :=
  ⟨h.trim, trimmed_trim ws⟩

/-- The empty magnitude is canonical. -/
theorem canonical_nil : Canonical [] := ⟨bounded_nil, nofun⟩

/-- The high limbs of a canonical magnitude are canonical. -/
theorem Canonical.of_cons (h : Canonical (w :: ws)) : Canonical ws :=
  ⟨(bounded_cons.mp h.1).2, (trimmed_cons.mp h.2).2⟩

/-- Only the empty magnitude among those without leading zeros denotes zero. -/
theorem Trimmed.toNat_eq_zero_iff (h : Trimmed ws) : toNat ws = 0 ↔ ws = [] := by
  induction ws with
  | nil => simp
  | cons w ws ih =>
    refine ⟨fun hzero ↦ ?_, nofun⟩
    rw [toNat_cons] at hzero
    obtain ⟨hfirst, hrest⟩ := trimmed_cons.mp h
    have hws : ws = [] := (ih hrest).mp (by rw [base_eq] at hzero; omega)
    exact absurd (UInt32.toNat_inj.mp (show w.toNat = 0 by omega)) (hfirst hws)

/-- A magnitude without leading zeros does not denote zero, unless it is empty. -/
theorem Trimmed.toNat_ne_zero (h : Trimmed ws) (hne : ws ≠ []) : toNat ws ≠ 0 :=
  mt h.toNat_eq_zero_iff.mp hne

/-- A limb below a magnitude without leading zeros makes no leading zero, unless all is zero. -/
theorem Trimmed.cons (h : Trimmed ws) (hne : toNat (w :: ws) ≠ 0) : Trimmed (w :: ws) := by
  refine trimmed_cons.mpr ⟨fun hnil hzero ↦ hne ?_, h⟩
  rw [hnil, hzero]
  rfl

/-- A canonical magnitude denotes at least the base to the number of limbs below its top one. -/
theorem Canonical.pow_le (h : Canonical ws) (hne : ws ≠ []) :
    base ^ (ws.length - 1) ≤ toNat ws := by
  induction ws with
  | nil => exact absurd rfl hne
  | cons w ws ih =>
    cases ws with
    | nil => exact Nat.pos_of_ne_zero (h.2.toNat_ne_zero hne)
    | cons v vs =>
      have hle := ih h.of_cons (List.cons_ne_nil v vs)
      rw [toNat_cons, List.length_cons, Nat.add_sub_cancel, List.length_cons] at *
      rw [Nat.pow_succ']
      exact (Nat.mul_le_mul_left base hle).trans (Nat.le_add_left _ _)

/-- Comparing canonical magnitudes compares the numbers they denote. -/
theorem compare_eq (hxs : Canonical xs) (hys : Canonical ys) :
    compare xs ys = Ord.compare (toNat xs) (toNat ys) := by
  fun_induction compare xs ys with
  | case1 => rfl
  | case2 y ys =>
    have hne := hys.2.toNat_ne_zero (List.cons_ne_nil y ys)
    exact (Nat.compare_eq_lt.mpr (Nat.pos_of_ne_zero hne)).symm
  | case3 x xs =>
    have hne := hxs.2.toNat_ne_zero (List.cons_ne_nil x xs)
    exact (Nat.compare_eq_gt.mpr (Nat.pos_of_ne_zero hne)).symm
  | case4 x xs y ys heq ih =>
    rw [ih hxs.of_cons hys.of_cons] at heq
    rw [toNat_cons, toNat_cons, Nat.compare_eq_eq.mp heq]
    simp [Nat.compare_eq_ite_lt]
  | case5 x xs y ys hne ih =>
    rw [ih hxs.of_cons hys.of_cons] at hne ⊢
    have hx := hxs.1 x List.mem_cons_self
    have hy := hys.1 y List.mem_cons_self
    rw [toNat_cons, toNat_cons]
    rw [base_eq] at *
    simp only [Nat.compare_eq_ite_lt] at hne ⊢
    grind

/-- A canonical magnitude is the only one of its number. -/
theorem Canonical.ext (hxs : Canonical xs) (hys : Canonical ys) (h : toNat xs = toNat ys) :
    xs = ys := by
  induction xs generalizing ys with
  | nil => exact (hys.2.toNat_eq_zero_iff.mp h.symm).symm
  | cons x xs ih =>
    cases ys with
    | nil => exact hxs.2.toNat_eq_zero_iff.mp h
    | cons y ys =>
      have hx := hxs.1 x List.mem_cons_self
      have hy := hys.1 y List.mem_cons_self
      rw [toNat_cons, toNat_cons, base_eq] at h
      rw [base_eq] at hx hy
      have hhead : x = y := UInt32.toNat_inj.mp (by omega)
      have htail : xs = ys := ih hxs.of_cons hys.of_cons (by omega)
      rw [hhead, htail]

/-- Limbs denote a number of fewer than the base to their count, whatever is above them. -/
theorem toNat_take (h : Bounded ws) (count : Nat) :
    toNat (ws.take count) = toNat ws % base ^ count := by
  rcases Nat.le_total count ws.length with hle | hle
  · rw [← toNat_take_add_drop ws count hle, Nat.add_mul_mod_self_left, Nat.mod_eq_of_lt]
    have hlt := (h.take count).toNat_lt
    rwa [List.length_take, Nat.min_eq_left hle] at hlt
  · rw [List.take_of_length_le hle, Nat.mod_eq_of_lt]
    exact Nat.lt_of_lt_of_le h.toNat_lt (Nat.pow_le_pow_right (by decide) hle)

/-- Dropping low limbs divides. -/
theorem toNat_drop (h : Bounded ws) (count : Nat) :
    toNat (ws.drop count) = toNat ws / base ^ count := by
  rcases Nat.le_total count ws.length with hle | hle
  · have hlt := (h.take count).toNat_lt
    rw [List.length_take, Nat.min_eq_left hle] at hlt
    rw [← toNat_take_add_drop ws count hle, Nat.add_mul_div_left _ _ (Nat.pow_pos (by decide)),
      Nat.div_eq_of_lt hlt, Nat.zero_add]
  · rw [List.drop_of_length_le hle, Nat.div_eq_of_lt]
    · rfl
    · exact Nat.lt_of_lt_of_le h.toNat_lt (Nat.pow_le_pow_right (by decide) hle)

/-- The limbs of a number denote it. -/
@[simp] theorem toNat_ofNat (n : Nat) : toNat (ofNat n) = n := by
  fun_induction ofNat n with
  | case1 => rfl
  | case2 n h ih =>
    have hlt := Nat.mod_lt n (show 0 < base by decide)
    rw [toNat_cons, ih, UInt32.toNat_ofNat_of_lt' (Nat.lt_trans hlt (by decide)), Nat.mod_add_div]

/-- The limbs of a number are canonical. -/
theorem canonical_ofNat (n : Nat) : Canonical (ofNat n) := by
  fun_induction ofNat n with
  | case1 => exact canonical_nil
  | case2 n h ih =>
    have hlt := Nat.mod_lt n (show 0 < base by decide)
    have hword : (UInt32.ofNat (n % base)).toNat = n % base :=
      UInt32.toNat_ofNat_of_lt' (Nat.lt_trans hlt (by decide))
    refine ⟨bounded_cons.mpr ⟨hword.trans_lt hlt, ih.1⟩, ih.2.cons ?_⟩
    rw [toNat_cons, hword, toNat_ofNat, Nat.mod_add_div]
    exact h

/-- A canonical magnitude has the limbs of its number. -/
theorem Canonical.eq_ofNat (h : Canonical ws) {n : Nat} (hn : toNat ws = n) : ws = ofNat n :=
  h.ext (canonical_ofNat n) (hn.trans (toNat_ofNat n).symm)

/-- The limbs of a wide word are those of its number. -/
theorem ofWord_eq (t : UInt64) : ofWord t = ofNat t.toNat := by
  fun_induction ofWord t with
  | case1 => rw [UInt64.toNat_zero, ofNat, dif_pos rfl]
  | case2 t h ih =>
    have hne : t.toNat ≠ 0 := fun hzero ↦ h (UInt64.toNat_inj.mp hzero)
    conv_rhs => rw [ofNat, dif_neg hne]
    rw [ih, toNat_high, ← toNat_low, UInt32.ofNat_toNat]

/-- The limbs of a wide word denote it. -/
@[simp] theorem toNat_ofWord (t : UInt64) : toNat (ofWord t) = t.toNat := by
  rw [ofWord_eq, toNat_ofNat]

/-- The limbs of a wide word are canonical. -/
theorem canonical_ofWord (t : UInt64) : Canonical (ofWord t) := by
  rw [ofWord_eq]
  exact canonical_ofNat _

end Secp.Limbs
