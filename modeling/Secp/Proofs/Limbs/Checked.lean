import Secp.Proofs.Limbs.Shift
import Secp.Proofs.Outcome

/-!
# Checked words, places and loops

Here the kernels on magnitudes are run the way a machine runs them: limbs are looked up and replaced
by their places in one buffer, and loops count the places. Every step is checked and stops with a
fault of its own where a word would overflow or lose bits, where a place is outside its buffer, and
where a quotient digit is no limb. Places and counts are numbers, and only their differences are
checked: a sum of places that is used is below the length of a buffer. A loop runs to its end when
its invariant holds first and every step that finds it runs and keeps it.

Comparing and shifting never stop so; they give what the functions on lists give.
-/

namespace Secp.Limbs

/-- Why a checked step gives no result. -/
inductive Fault where
  | overflow
  | outOfBounds
  | zeroDivisor
  | wideDigit
  | lengthChanged
  deriving DecidableEq, Repr

namespace Checked

variable {α σ : Type} {a b ws : Limbs} {w : UInt32}

/-- A value under a condition, and a fault where the condition fails. -/
def guarded (p : Prop) [Decidable p] (fault : Fault) (a : α) : Except Fault α :=
  if p then .ok a else .error fault

/-- The sum of two wide words. -/
def add (x y : UInt64) : Except Fault UInt64 :=
  guarded (x.toNat + y.toNat < 2 ^ 64) .overflow (x + y)

/-- The difference of two wide words. -/
def sub (x y : UInt64) : Except Fault UInt64 := guarded (y.toNat ≤ x.toNat) .overflow (x - y)

/-- The product of two wide words. -/
def mul (x y : UInt64) : Except Fault UInt64 :=
  guarded (x.toNat * y.toNat < 2 ^ 64) .overflow (x * y)

/-- The quotient of two wide words. -/
def div (x y : UInt64) : Except Fault UInt64 := guarded (y ≠ 0) .zeroDivisor (x / y)

/-- The remainder of two wide words. -/
def mod (x y : UInt64) : Except Fault UInt64 := guarded (y ≠ 0) .zeroDivisor (x % y)

/-- A wide word shifted up, with none of its bits lost. -/
def up (x r : UInt64) : Except Fault UInt64 :=
  guarded (r.toNat < 64 ∧ x.toNat * 2 ^ r.toNat < 2 ^ 64) .overflow (x <<< r)

/-- A wide word shifted down. -/
def down (x r : UInt64) : Except Fault UInt64 := guarded (r.toNat < 64) .overflow (x >>> r)

/-- A wide word that fits a word. -/
def narrow (x : UInt64) : Except Fault UInt64 := guarded (x.toNat < 2 ^ 32) .overflow x

/-- A number that fits a signed wide word. -/
def signed (t : Int) : Except Fault Int := guarded (-2 ^ 63 ≤ t ∧ t < 2 ^ 63) .overflow t

/-- The difference of two counts. -/
def minus (m n : Nat) : Except Fault Nat := guarded (n ≤ m) .overflow (m - n)

/-- The limb at a place. -/
def read (ws : Limbs) (place : Nat) : Except Fault UInt32 :=
  match ws[place]? with
  | some w => .ok w
  | none => .error .outOfBounds

/-- Replace the limb at a place. -/
def write (ws : Limbs) (place : Nat) (w : UInt32) : Except Fault Limbs :=
  guarded (place < ws.length) .outOfBounds (ws.set place w)

/-- A value whose condition holds is given. -/
@[simp] theorem guarded_of {p : Prop} [Decidable p] (h : p) (fault : Fault) (a : α) :
    guarded p fault a = .ok a := if_pos h

/-- A value whose condition fails is a fault. -/
@[simp] theorem guarded_of_not {p : Prop} [Decidable p] (h : ¬p) (fault : Fault) (a : α) :
    guarded p fault a = .error fault := if_neg h

/-- The limb behind so many others is at their place. -/
theorem read_append (pre : Limbs) (w : UInt32) (post : Limbs) {place : Nat}
    (h : place = pre.length) : read (pre ++ w :: post) place = .ok w := by
  simp [read, h]

/-- Replacing the limb behind so many others keeps them, and those behind it. -/
theorem write_append (pre : Limbs) (w : UInt32) (post : Limbs) (new : UInt32) {place : Nat}
    (h : place = pre.length) : write (pre ++ w :: post) place new = .ok (pre ++ new :: post) := by
  simp [write, h]

/-- A loop that counts up keeps its invariant, when every step that finds it does. -/
theorem foldlM_range {step : σ → Nat → Except Fault σ} (inv : Nat → σ → Prop) {count : Nat} {s : σ}
    (first : inv 0 s) (keeps : ∀ i < count, ∀ s, inv i s → ∃ t, step s i = .ok t ∧ inv (i + 1) t) :
    ∃ t, (List.range count).foldlM step s = .ok t ∧ inv count t := by
  induction count with
  | zero => exact ⟨s, rfl, first⟩
  | succ count ih =>
    obtain ⟨t, hrun, ht⟩ := ih fun i hi ↦ keeps i (Nat.lt_succ_of_lt hi)
    obtain ⟨t', hstep, ht'⟩ := keeps count (Nat.lt_succ_self count) t ht
    refine ⟨t', ?_, ht'⟩
    simp [List.range_succ, hrun, hstep, ok_bind]

/-- A loop that counts down keeps its invariant, when every step that finds it does. -/
theorem foldrM_range {step : Nat → σ → Except Fault σ} (inv : Nat → σ → Prop) {count : Nat} {s : σ}
    (first : inv count s)
    (keeps : ∀ i < count, ∀ s, inv (i + 1) s → ∃ t, step i s = .ok t ∧ inv i t) :
    ∃ t, (List.range count).foldrM step s = .ok t ∧ inv 0 t := by
  induction count generalizing s with
  | zero => exact ⟨s, rfl, first⟩
  | succ count ih =>
    obtain ⟨t, hstep, ht⟩ := keeps count (Nat.lt_succ_self count) s first
    obtain ⟨t', hrun, ht'⟩ := ih ht fun i hi ↦ keeps i (Nat.lt_succ_of_lt hi)
    refine ⟨t', ?_, ht'⟩
    simp [List.range_succ, hrun, hstep, ok_bind]

/-- Compare the limbs below a place, from the most significant down. -/
def compareBelow (a b : Limbs) : Nat → Except Fault Ordering
  | 0 => .ok .eq
  | place + 1 => do
    let x ← read a place
    let y ← read b place
    match Ord.compare x.toNat y.toNat with
    | .eq => compareBelow a b place
    | order => .ok order

/-- Compare two magnitudes by their lengths, and from the most significant limb down. -/
def compare (a b : Limbs) : Except Fault Ordering :=
  if a.length = b.length then compareBelow a b a.length
  else .ok (Ord.compare a.length b.length)

/-- Magnitudes of different lengths compare as their lengths do. -/
theorem compare_of_length_ne (h : a.length ≠ b.length) :
    Limbs.compare a b = Ord.compare a.length b.length := by
  fun_induction Limbs.compare a b with
  | case1 => exact absurd rfl h
  | case2 y ys => exact (Nat.compare_eq_lt.mpr (Nat.zero_lt_succ _)).symm
  | case3 x xs => exact (Nat.compare_eq_gt.mpr (Nat.zero_lt_succ _)).symm
  | case4 x xs y ys heq ih =>
    have hne : xs.length ≠ ys.length := fun h' ↦ h (congrArg Nat.succ h')
    rw [ih hne] at heq
    exact absurd (Nat.compare_eq_eq.mp heq) hne
  | case5 x xs y ys _ ih =>
    rw [ih fun h' ↦ h (congrArg Nat.succ h')]
    simp [Nat.compare_eq_ite_lt]

/-- The top limbs decide the comparison of two magnitudes, unless they are equal. -/
theorem compare_concat {xs ys : Limbs} (h : xs.length = ys.length) (x y : UInt32) :
    Limbs.compare (xs ++ [x]) (ys ++ [y]) =
      match Ord.compare x.toNat y.toNat with
      | .eq => Limbs.compare xs ys
      | order => order := by
  induction xs generalizing ys with
  | nil =>
    rw [List.length_eq_zero_iff.mp h.symm]
    simp only [List.nil_append, Limbs.compare]
    cases Ord.compare x.toNat y.toNat <;> rfl
  | cons w ws ih =>
    obtain ⟨w', ws', rfl⟩ := List.exists_cons_of_length_eq_add_one h.symm
    simp only [List.cons_append, Limbs.compare, ih (Nat.succ.inj h)]
    cases Ord.compare x.toNat y.toNat <;> rfl

/-- Comparing the limbs below a place compares what the two magnitudes have there. -/
theorem compareBelow_eq {place : Nat} (ha : place ≤ a.length) (hb : place ≤ b.length) :
    compareBelow a b place = .ok (Limbs.compare (a.take place) (b.take place)) := by
  induction place with
  | zero => simp [compareBelow, Limbs.compare]
  | succ place ih =>
    have hx : a[place]? = some a[place] := List.getElem?_eq_getElem ha
    have hy : b[place]? = some b[place] := List.getElem?_eq_getElem hb
    have hlength : (a.take place).length = (b.take place).length := by
      rw [List.length_take_of_le (Nat.le_of_lt ha), List.length_take_of_le (Nat.le_of_lt hb)]
    rw [List.take_succ_eq_append_getElem ha, List.take_succ_eq_append_getElem hb,
      compare_concat hlength]
    simp only [compareBelow, read, hx, hy, ok_bind, ih (Nat.le_of_lt ha) (Nat.le_of_lt hb)]
    cases Ord.compare a[place].toNat b[place].toNat <;> rfl

/-- Comparing by places never leaves the magnitudes. -/
theorem compare_eq (a b : Limbs) : compare a b = .ok (Limbs.compare a b) := by
  unfold compare
  split
  · next h =>
    rw [compareBelow_eq le_rfl h.le, List.take_length, h, List.take_length]
  · next h => rw [compare_of_length_ne h]

/-- Move every limb up by an offset below one limb, with the bits carried in. -/
def shlWith (r : UInt64) : Limbs → UInt64 → Except Fault Limbs
  | [], c => .ok (if c = 0 then [] else [c.toUInt32])
  | w :: ws, c => do
    let shifted ← up w.toUInt64 r
    let t := shifted ||| c
    let carry ← narrow (high t)
    let rest ← shlWith r ws carry
    .ok (low t :: rest)

/-- Multiply by a power of two. -/
def shl (a : Limbs) (bits : Nat) : Except Fault Limbs :=
  if a = [] then .ok []
  else if bits % width = 0 then .ok (List.replicate (bits / width) 0 ++ a)
  else do
    let shifted ← shlWith (UInt64.ofNat (bits % width)) a 0
    .ok (List.replicate (bits / width) 0 ++ shifted)

/-- One more limb of a magnitude moved down: the limb at a place, with the low bits of the next. -/
def shrStep (r : UInt64) (ws out : Limbs) (place : Nat) : Except Fault Limbs := do
  let w ← read ws place
  let kept ← down w.toUInt64 r
  let gap ← sub 26 r
  let taken ← up (ws.getD (place + 1) 0).toUInt64 gap
  .ok (out ++ [low (kept ||| taken)])

/-- Divide by a power of two and drop the remainder. -/
def shr (a : Limbs) (bits : Nat) : Except Fault Limbs :=
  if a.length ≤ bits / width then .ok []
  else
    let kept := a.drop (bits / width)
    if bits % width = 0 then .ok kept
    else do
      let out ← (List.range kept.length).foldlM (shrStep (UInt64.ofNat (bits % width)) kept) []
      .ok (trim out)

/-- A limb shifted within a limb's width loses no bits. -/
theorem up_limb {r : UInt64} (hw : w.toNat < base) (hr : r.toNat ≤ width) :
    up w.toUInt64 r = .ok (w.toUInt64 <<< r) := by
  refine guarded_of ⟨Nat.lt_of_le_of_lt hr (by decide), ?_⟩ _ _
  rw [UInt32.toNat_toUInt64]
  calc w.toNat * 2 ^ r.toNat ≤ base * 2 ^ 26 :=
        Nat.mul_le_mul hw.le (Nat.pow_le_pow_right (by decide) hr)
    _ < 2 ^ 64 := by decide

/-- A word shifted by a limb's width loses no bits. -/
theorem up_word {x : UInt64} (hx : x.toNat < 2 ^ 32) : up x 26 = .ok (x <<< 26) := by
  refine guarded_of ⟨by decide, ?_⟩ _ _
  exact Nat.lt_of_le_of_lt (Nat.mul_le_mul_right _ hx.le) (by decide)

/-- Moving limbs up loses no bits, and what is carried stays in a word. -/
theorem shlWith_eq {r c : UInt64} (hws : Bounded ws) (hr : r.toNat < width)
    (hc : c.toNat < 2 ^ r.toNat) : shlWith r ws c = .ok (Limbs.shlWith r ws c) := by
  induction ws generalizing c with
  | nil => rfl
  | cons w ws ih =>
    obtain ⟨hw, hws⟩ := bounded_cons.mp hws
    have hcarry := carry_lt hw hr hc
    have hword : (high ((w.toUInt64 <<< r) ||| c)).toNat < 2 ^ 32 :=
      hcarry.trans (Nat.pow_lt_pow_right (by decide) (Nat.lt_trans hr (by decide)))
    simp only [shlWith, up_limb hw hr.le, ok_bind, narrow, guarded_of hword, ih hws hcarry]
    rfl

/-- Shifting a magnitude of limbs up loses no bits. -/
theorem shl_eq (ha : Bounded a) (bits : Nat) : shl a bits = .ok (Limbs.shl a bits) := by
  have hr : (UInt64.ofNat (bits % width)).toNat < width := by
    rw [toNat_ofNat_offset]
    exact Nat.mod_lt bits (by decide)
  unfold shl Limbs.shl
  split
  · rfl
  · split
    · rfl
    · rw [shlWith_eq ha hr (Nat.two_pow_pos _), ok_bind]

/-- The step of a shift down puts the limb of its place behind those of the places below. -/
theorem shrStep_eq {r : UInt64} {out : Limbs} {place : Nat} (hws : Bounded ws)
    (hr : r.toNat < width) (hplace : place < ws.length)
    (hout : out ++ shrWith r (ws.drop place) = shrWith r ws) :
    ∃ out', shrStep r ws out place = .ok out' ∧
      out' ++ shrWith r (ws.drop (place + 1)) = shrWith r ws := by
  have hread : ws[place]? = some ws[place] := List.getElem?_eq_getElem hplace
  have hdown : r.toNat < 64 := Nat.lt_trans hr (by decide)
  have hle : r.toNat ≤ (26 : UInt64).toNat := Nat.le_of_lt hr
  have hgap : (26 - r).toNat ≤ width := by
    rw [UInt64.toNat_sub_of_le _ _ hle]
    exact Nat.sub_le _ _
  have hhead : (ws.drop (place + 1)).headD 0 = ws.getD (place + 1) 0 := by
    simp [List.headD_eq_head?_getD, List.head?_drop]
  have hnext : (ws.getD (place + 1) 0).toNat < base := by
    rw [← hhead]
    exact (hws.drop _).headD_lt
  refine ⟨out ++ [low ((ws[place].toUInt64 >>> r) |||
    ((ws.getD (place + 1) 0).toUInt64 <<< (26 - r)))], ?_, ?_⟩
  · simp only [shrStep, read, hread, ok_bind, down, guarded_of hdown, sub, guarded_of hle,
      up_limb hnext hgap]
  · rw [List.drop_eq_getElem_cons hplace, shrWith, hhead] at hout
    simpa using hout

/-- Shifting a magnitude of limbs down never leaves it. -/
theorem shr_eq (ha : Bounded a) (bits : Nat) : shr a bits = .ok (Limbs.shr a bits) := by
  have hr : (UInt64.ofNat (bits % width)).toNat < width := by
    rw [toNat_ofNat_offset]
    exact Nat.mod_lt bits (by decide)
  unfold shr Limbs.shr
  by_cases hgone : a.length ≤ bits / width
  · rw [if_pos hgone, List.drop_of_length_le hgone]
    split <;> rfl
  · rw [if_neg hgone]
    split
    · rfl
    · let r := UInt64.ofNat (bits % width)
      let kept := a.drop (bits / width)
      obtain ⟨out, hrun, hout⟩ := foldlM_range
        (fun place out ↦ out ++ shrWith r (kept.drop place) = shrWith r kept) (s := []) rfl
        fun place hplace out hout ↦ shrStep_eq (ha.drop _) hr hplace hout
      rw [List.drop_length, shrWith, List.append_nil] at hout
      simp only [kept, r] at hrun hout
      simp only [hrun, hout, ok_bind]

end Checked

end Secp.Limbs
