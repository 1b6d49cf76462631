import Secp.Proofs.Limbs.Checked
import Secp.Proofs.Limbs.Window

/-!
# Windows worked on in place

A step of long division takes a multiple of the divisor from a window of the dividend, and may add
the divisor back. Here both go over the window in its place in the dividend, from the least
significant limb up, with what is carried passed on from limb to limb. The borrow of the subtraction
is signed: it is the sign of the limb's difference, and no base is lent beforehand.

Both loops are one loop with steps of their own. It runs to its end, and leaves in the window what
the functions on lists give, with the limbs below and above the window as they were.
-/

namespace Secp.Limbs.Checked

variable {α : Type} {pre post us v xs ys : Limbs} {w x y : UInt32}

/-- One step of a loop over a window: the limb at a place from the place where the window starts is
replaced by what it makes together with the divisor's limb and what was carried. -/
def sweepStep (f : α → UInt32 → UInt32 → Except Fault (α × UInt32)) (v : Limbs) (start : Nat)
    (state : α × Limbs) (place : Nat) : Except Fault (α × Limbs) := do
  let y ← read v place
  let x ← read state.2 (place + start)
  let (carried, w) ← f state.1 x y
  let u ← write state.2 (place + start) w
  .ok (carried, u)

/-- Run over a window from the place where it starts, as far as the divisor goes. -/
def sweep (f : α → UInt32 → UInt32 → Except Fault (α × UInt32)) (v : Limbs) (start : Nat)
    (carried : α) (u : Limbs) : Except Fault (α × Limbs) :=
  (List.range v.length).foldlM (sweepStep f v start) (carried, u)

/-- A step of a loop over a window replaces the first limb still ahead. -/
theorem sweepStep_eq {f : α → UInt32 → UInt32 → Except Fault (α × UInt32)} {c c' : α} {made : Limbs}
    (hy : v[made.length]? = some y) (hf : f c x y = .ok (c', w)) :
    sweepStep f v pre.length (c, pre ++ (made ++ x :: xs) ++ post) made.length =
      .ok (c', pre ++ ((made ++ [w]) ++ xs) ++ post) := by
  have hplace : made.length + pre.length = (pre ++ made).length := by
    rw [List.length_append, Nat.add_comm]
  have hlist (w : UInt32) :
      pre ++ (made ++ w :: xs) ++ post = pre ++ made ++ w :: (xs ++ post) := by simp
  simp only [sweepStep, read, hy, ok_bind]
  rw [hlist, ← read, read_append _ x _ hplace, ok_bind, hf, ok_bind, write_append _ x _ w hplace,
    ok_bind]
  simp

/-- What a loop over the window `us` has reached at a place: the limbs below it are replaced, the
others are ahead, and the invariant holds of what is carried and of these limbs. -/
def Swept (pre post us v : Limbs) (inv : α → Limbs → Limbs → Limbs → Prop) (place : Nat)
    (state : α × Limbs) : Prop :=
  ∃ made : Limbs, made.length = place ∧ state.2 = pre ++ (made ++ us.drop place) ++ post ∧
    inv state.1 made (us.drop place) (v.drop place)

section Sweep

variable {f : α → UInt32 → UInt32 → Except Fault (α × UInt32)}
  {inv : α → Limbs → Limbs → Limbs → Prop}

/-- A step of a loop over a window runs, when its limbs' step does and keeps the invariant. -/
theorem Swept.step {place : Nat} {state : α × Limbs} (hlength : us.length = v.length)
    (keeps : ∀ c made x xs y ys, inv c made (x :: xs) (y :: ys) →
      ∃ c' w, f c x y = .ok (c', w) ∧ inv c' (made ++ [w]) xs ys)
    (hplace : place < v.length) (h : Swept pre post us v inv place state) :
    ∃ state', sweepStep f v pre.length state place = .ok state' ∧
      Swept pre post us v inv (place + 1) state' := by
  obtain ⟨c, u⟩ := state
  obtain ⟨made, rfl, rfl, hinv⟩ := h
  have hus : made.length < us.length := hlength ▸ hplace
  dsimp only at hinv ⊢
  rw [List.drop_eq_getElem_cons hus] at hinv ⊢
  rw [List.drop_eq_getElem_cons hplace] at hinv
  obtain ⟨c', w, hf, hnext⟩ := keeps _ _ _ _ _ _ hinv
  exact ⟨_, sweepStep_eq (List.getElem?_eq_getElem hplace) hf, made ++ [w], by simp, rfl, hnext⟩

/-- A loop over a window runs, in its place, and keeps an invariant on what is carried, the limbs
already replaced, and the limbs still ahead in the window and in the divisor. -/
theorem sweep_ok (pre post : Limbs) {carried : α} (hlength : us.length = v.length)
    (first : inv carried [] us v)
    (keeps : ∀ c made x xs y ys, inv c made (x :: xs) (y :: ys) →
      ∃ c' w, f c x y = .ok (c', w) ∧ inv c' (made ++ [w]) xs ys) :
    ∃ c' us', sweep f v pre.length carried (pre ++ us ++ post) = .ok (c', pre ++ us' ++ post) ∧
      us'.length = us.length ∧ inv c' us' [] [] := by
  have hfirst : Swept pre post us v inv 0 (carried, pre ++ us ++ post) := ⟨[], rfl, rfl, first⟩
  obtain ⟨⟨c', u'⟩, hrun, us', hlength', rfl, hinv⟩ :=
    foldlM_range (Swept pre post us v inv) hfirst fun _ hplace _ h ↦ h.step hlength keeps hplace
  have hdrop : us.drop v.length = [] := by
    rw [← hlength, List.drop_length]
  rw [hdrop, List.append_nil] at hrun
  rw [hdrop, List.drop_length] at hinv
  exact ⟨c', us', hrun, hlength'.trans hlength.symm, hinv⟩

end Sweep

/-- A limb less a borrow and the low limb of a multiple, with its sign. -/
def difference (x : UInt32) (borrow p : Int) : Except Fault Int := do
  let t ← signed (x.toNat - borrow)
  signed (t - p)

/-- The low limb of a signed number. -/
def lowSigned (t : Int) : UInt32 := UInt32.ofNat (t % base).toNat

/-- Take a multiple of a divisor's limb from a limb of the window; the carry of the product and the
borrow of the difference go on. -/
def subStep (q : UInt64) (carried : UInt64 × Int) (x y : UInt32) :
    Except Fault ((UInt64 × Int) × UInt32) := do
  let product ← mul q y.toUInt64
  let p ← add product carried.1
  let t ← difference x carried.2 (low p).toNat
  .ok ((high p, if t < 0 then 1 else 0), lowSigned t)

/-- Take a multiple of the divisor from the window that starts at a place. The flag says that the
top limb's difference is negative. -/
def subScaled (q : UInt64) (v : Limbs) (start : Nat) (u : Limbs) : Except Fault (Bool × Limbs) := do
  let ((carry, borrow), u) ← sweep (subStep q) v start (0, 0) u
  let top ← read u (start + v.length)
  let carry ← signed carry.toNat
  let t ← difference top borrow carry
  let u ← write u (start + v.length) (lowSigned t)
  .ok (decide (t < 0), u)

/-- Add a divisor's limb and a carry to a limb of the window. -/
def addStep (carry : UInt64) (x y : UInt32) : Except Fault (UInt64 × UInt32) := do
  let sum ← add x.toUInt64 y.toUInt64
  let s ← add sum carry
  .ok (high s, low s)

/-- Add the divisor to the window that starts at a place. -/
def addInto (v : Limbs) (start : Nat) (u : Limbs) : Except Fault Limbs := do
  let (carry, u) ← sweep addStep v start 0 u
  let top ← read u (start + v.length)
  let s ← add top.toUInt64 carry
  write u (start + v.length) (low s)

/-- A difference of limbs runs; its low limb is that of the difference with the base lent to it, and
it is negative where what was lent is used up. -/
theorem difference_eq {b p : UInt64} (hx : x.toNat < base) (hb : b.toNat ≤ 1) :
    ∃ t, difference x b.toNat (low p).toNat = .ok t ∧
      lowSigned t = low (x.toUInt64 + baseWord.toUInt64 - b - (low p).toUInt64) ∧
      1 - high (x.toUInt64 + baseWord.toUInt64 - b - (low p).toUInt64) =
        if t < 0 then 1 else 0 := by
  have hword := toNat_differenceLimb hx hb p
  have hlow : (low p).toNat < base := low_lt p
  rw [← toNat_low] at hword
  generalize x.toUInt64 + baseWord.toUInt64 - b - (low p).toUInt64 = word at *
  generalize (low p).toNat = l at *
  -- the word holds the difference with the base added
  obtain ⟨t, ht⟩ : ∃ t : Int, t = x.toNat - b.toNat - l := ⟨_, rfl⟩
  have hsum : (word.toNat : Int) = t + base := by omega
  have hfits : -2 ^ 63 ≤ (x.toNat : Int) - b.toNat ∧ (x.toNat : Int) - b.toNat < 2 ^ 63 := by
    rw [base_eq] at *
    omega
  have hfits' : -2 ^ 63 ≤ t ∧ t < 2 ^ 63 := by
    rw [base_eq] at *
    omega
  refine ⟨t, ?_, ?_, ?_⟩
  · rw [difference, signed, guarded_of hfits, ok_bind, ← ht, signed, guarded_of hfits']
  · have hmod : (t % base).toNat = word.toNat % base := by
      rw [base_eq] at *
      omega
    have hlt : word.toNat % base < base := Nat.mod_lt _ (by decide)
    apply UInt32.toNat_inj.mp
    rw [lowSigned, hmod, toNat_low, UInt32.toNat_ofNat_of_lt' (hlt.trans (by decide))]
  · have hle : high word ≤ 1 := by
      rw [UInt64.le_iff_toNat_le, toNat_high, UInt64.toNat_one]
      rw [base_eq] at *
      omega
    apply UInt64.toNat_inj.mp
    rw [UInt64.toNat_sub_of_le _ _ hle, toNat_high, UInt64.toNat_one]
    split
    · rw [UInt64.toNat_one]
      rw [base_eq] at *
      omega
    · rw [UInt64.toNat_zero]
      rw [base_eq] at *
      omega

/-- A step of a subtraction runs; it makes the limb that the subtraction on lists makes, and passes
on the same carry and borrow. -/
theorem subStep_eq {q c b : UInt64} (hq : q.toNat < base) (hx : x.toNat < base)
    (hy : y.toNat < base) (hc : c.toNat < base) (hb : b.toNat ≤ 1) :
    ∃ word : UInt64,
      word = x.toUInt64 + baseWord.toUInt64 - b - (low (q * y.toUInt64 + c)).toUInt64 ∧
      (1 - high word).toNat ≤ 1 ∧ subStep q (c, b.toNat) x y =
        .ok ((high (q * y.toUInt64 + c), (1 - high word).toNat), low word) := by
  have hmul : q.toNat * y.toUInt64.toNat < 2 ^ 64 :=
    Nat.lt_of_lt_of_le (Nat.mul_lt_mul'' hq hy) (by decide)
  have hadd : (q * y.toUInt64).toNat + c.toNat < 2 ^ 64 := by
    have hle := Nat.mul_le_mul hq.le hy.le
    rw [toNat_mul64 hmul, UInt32.toNat_toUInt64]
    rw [base_eq] at *
    omega
  obtain ⟨t, hrun, hlow, hborrow⟩ := difference_eq hx hb (p := q * y.toUInt64 + c)
  refine ⟨_, rfl, ?_, ?_⟩
  · rw [hborrow]
    split <;> decide
  · simp only [subStep, mul, guarded_of hmul, add, guarded_of hadd, hrun, ok_bind, hlow, hborrow]
    split <;> rfl

/-- How far a subtraction has come, which on lists gives a certain result: the limbs made are the
first of it, and the limbs ahead give the others with the carry and the borrow. -/
def Subtracting (q : UInt64) (top : UInt32) (result : Limbs × Bool) (carried : UInt64 × Int)
    (made xs ys : Limbs) : Prop :=
  Bounded xs ∧ Bounded ys ∧ carried.1.toNat < base ∧ ∃ b : UInt64, b.toNat ≤ 1 ∧
    carried.2 = b.toNat ∧ result =
      (made ++ (Limbs.subScaled q (xs ++ [top]) ys carried.1 b).1,
        (Limbs.subScaled q (xs ++ [top]) ys carried.1 b).2)

/-- A step of a subtraction keeps what it will give. -/
theorem Subtracting.step {q : UInt64} {top : UInt32} {result : Limbs × Bool} {c : UInt64 × Int}
    {made : Limbs} (hq : q.toNat < base)
    (h : Subtracting q top result c made (x :: xs) (y :: ys)) :
    ∃ c' w, subStep q c x y = .ok (c', w) ∧
      Subtracting q top result c' (made ++ [w]) xs ys := by
  obtain ⟨carry, borrow⟩ := c
  obtain ⟨hxs, hys, hc, b, hb, rfl, rfl⟩ := h
  obtain ⟨hx, hxs⟩ := bounded_cons.mp hxs
  obtain ⟨hy, hys⟩ := bounded_cons.mp hys
  obtain ⟨word, hword, hb', hrun⟩ := subStep_eq hq hx hy hc hb
  refine ⟨_, _, hrun, hxs, hys, scaledCarry_lt hq hy hc, 1 - high word, hb', rfl, ?_⟩
  simp [Limbs.subScaled, hword]

/-- The top limb's difference runs, with the carry for the low limb of a multiple; it gives the top
limb of the subtraction on lists, and its sign the flag. -/
theorem difference_top (q : UInt64) {top : UInt32} {c b : UInt64} (htop : top.toNat < base)
    (hc : c.toNat < base) (hb : b.toNat ≤ 1) :
    ∃ t, difference top b.toNat c.toNat = .ok t ∧
      Limbs.subScaled q [top] [] c b = ([lowSigned t], decide (t < 0)) := by
  obtain ⟨t, hrun, hlow, hborrow⟩ := difference_eq htop hb (p := c)
  have hcarry : (low c).toNat = c.toNat := by
    rw [toNat_low, Nat.mod_eq_of_lt hc]
  have hproduct : q * (0 : UInt32).toUInt64 + c = c := by simp
  have hflag : ((1 - high (top.toUInt64 + baseWord.toUInt64 - b - (low c).toUInt64)) != 0) =
      decide (t < 0) := by
    rw [hborrow]
    by_cases ht : t < 0 <;> simp [ht]
  refine ⟨t, hcarry ▸ hrun, ?_⟩
  simp only [Limbs.subScaled, List.headD_nil, hproduct, hlow, hflag]

/-- A window of one limb more than a count has a top limb above so many. -/
theorem exists_concat {window : Limbs} {count : Nat} (h : window.length = count + 1) :
    ∃ us top, window = us ++ [top] ∧ us.length = count := by
  obtain ⟨us, lead, rfl, hus, hlead⟩ := exists_leading (show 1 ≤ window.length by omega)
  obtain ⟨top, rfl⟩ := List.length_eq_one_iff.mp hlead
  exact ⟨us, top, rfl, by omega⟩

/-- Taking a multiple of the divisor from a window runs, in its place, and gives what the
subtraction on lists gives. -/
theorem subScaled_eq (pre post : Limbs) {q : UInt64} {window : Limbs} (hq : q.toNat < base)
    (hwindow : Bounded window) (hv : Bounded v) (hwhole : window.length = v.length + 1) :
    subScaled q v pre.length (pre ++ window ++ post) = .ok ((Limbs.subScaled q window v 0 0).2,
      pre ++ (Limbs.subScaled q window v 0 0).1 ++ post) := by
  obtain ⟨us, top, rfl, hlength⟩ := exists_concat hwhole
  obtain ⟨hus, htop⟩ := bounded_append.mp hwindow
  replace htop := htop top List.mem_cons_self
  have hfirst : Subtracting q top (Limbs.subScaled q (us ++ [top]) v 0 0) (0, 0) [] us v :=
    ⟨hus, hv, by decide, 0, by decide, rfl, rfl⟩
  obtain ⟨⟨carry, borrow⟩, us', hrun, hlength', -, -, hc, b, hb, rfl, hresult⟩ :=
    sweep_ok pre (top :: post) hlength hfirst fun _ _ _ _ _ _ h ↦ h.step hq
  dsimp only at hc hresult
  obtain ⟨t, hdifference, hlast⟩ := difference_top q htop hc hb
  have hsigned : -2 ^ 63 ≤ (carry.toNat : Int) ∧ (carry.toNat : Int) < 2 ^ 63 := by
    rw [base_eq] at hc
    omega
  have hplace : pre.length + v.length = (pre ++ us').length := by
    rw [List.length_append, hlength', hlength]
  have hlist (w : UInt32) (ws : Limbs) : pre ++ (ws ++ [w]) ++ post = pre ++ ws ++ w :: post := by
    simp
  rw [List.nil_append, hlast] at hresult
  rw [hlist, subScaled, hrun, ok_bind]
  dsimp only
  rw [read_append _ _ _ hplace, ok_bind, signed, guarded_of hsigned, ok_bind, hdifference, ok_bind,
    write_append _ _ _ _ hplace, ok_bind, hresult, hlist]

/-- A sum of limbs in wide words runs; it makes the limb and the carry that words give. -/
theorem addStep_eq {c : UInt32} (hx : x.toNat < base) (hy : y.toNat < base) (hc : c.toNat ≤ 1) :
    addStep c.toUInt64 x y = .ok (((x + y + c) >>> 26).toUInt64, (x + y + c) &&& mask) := by
  have hadd : x.toUInt64.toNat + y.toUInt64.toNat < 2 ^ 64 := by
    simp only [UInt32.toNat_toUInt64]
    rw [base_eq] at *
    omega
  have hcarry : (x.toUInt64 + y.toUInt64).toNat + c.toUInt64.toNat < 2 ^ 64 := by
    rw [toNat_add64 hadd]
    simp only [UInt32.toNat_toUInt64]
    rw [base_eq] at *
    omega
  have hsum : (x.toUInt64 + y.toUInt64 + c.toUInt64).toNat = (x + y + c).toNat := by
    rw [toNat_add64 hcarry, toNat_add64 hadd, toNat_sumLimb hx hy hc]
    rfl
  have hhigh : high (x.toUInt64 + y.toUInt64 + c.toUInt64) = ((x + y + c) >>> 26).toUInt64 := by
    apply UInt64.toNat_inj.mp
    rw [toNat_high, hsum, UInt32.toNat_toUInt64, toNat_shiftRight]
  have hlow : low (x.toUInt64 + y.toUInt64 + c.toUInt64) = (x + y + c) &&& mask := by
    apply UInt32.toNat_inj.mp
    rw [toNat_low, hsum, toNat_and_mask]
  simp only [addStep, add, guarded_of hadd, guarded_of hcarry, ok_bind, hhigh, hlow]

/-- How far an addition has come, which on lists gives a certain result: the limbs made are the
first of it, and the limbs ahead give the others with the carry. -/
def Adding (top : UInt32) (result : Limbs) (carried : UInt64) (made xs ys : Limbs) : Prop :=
  Bounded xs ∧ Bounded ys ∧ ∃ c : UInt32, c.toNat ≤ 1 ∧ carried = c.toUInt64 ∧
    result = made ++ Limbs.addInto (xs ++ [top]) ys c

/-- A step of an addition keeps what it will give. -/
theorem Adding.step {top : UInt32} {c : UInt64} {result made : Limbs}
    (h : Adding top result c made (x :: xs) (y :: ys)) :
    ∃ c' w, addStep c x y = .ok (c', w) ∧ Adding top result c' (made ++ [w]) xs ys := by
  obtain ⟨hxs, hys, c, hc, rfl, rfl⟩ := h
  obtain ⟨hx, hxs⟩ := bounded_cons.mp hxs
  obtain ⟨hy, hys⟩ := bounded_cons.mp hys
  refine ⟨_, _, addStep_eq hx hy hc, hxs, hys, _, sumCarry_le hx hy hc, rfl, ?_⟩
  simp [Limbs.addInto]

/-- The top limb's sum with the carry runs; it gives the top limb of the addition on lists. -/
theorem add_top {top c : UInt32} (htop : top.toNat < base) (hc : c.toNat ≤ 1) :
    ∃ sum, add top.toUInt64 c.toUInt64 = .ok sum ∧ Limbs.addInto [top] [] c = [low sum] := by
  have hadd : top.toUInt64.toNat + c.toUInt64.toNat < 2 ^ 64 := by
    simp only [UInt32.toNat_toUInt64]
    rw [base_eq] at htop
    omega
  have hlow : low (top.toUInt64 + c.toUInt64) = (top + 0 + c) &&& mask := by
    apply UInt32.toNat_inj.mp
    rw [toNat_low, toNat_add64 hadd, toNat_and_mask, toNat_sumLimb htop (by decide) hc]
    rfl
  refine ⟨_, guarded_of hadd _ _, ?_⟩
  rw [hlow]
  rfl

/-- Adding the divisor to a window runs, in its place, and gives what the addition on lists
gives. -/
theorem addInto_eq (pre post : Limbs) {window : Limbs} (hwindow : Bounded window) (hv : Bounded v)
    (hwhole : window.length = v.length + 1) :
    addInto v pre.length (pre ++ window ++ post) =
      .ok (pre ++ Limbs.addInto window v 0 ++ post) := by
  obtain ⟨us, top, rfl, hlength⟩ := exists_concat hwhole
  obtain ⟨hus, htop⟩ := bounded_append.mp hwindow
  replace htop := htop top List.mem_cons_self
  have hfirst : Adding top (Limbs.addInto (us ++ [top]) v 0) 0 [] us v :=
    ⟨hus, hv, 0, by decide, rfl, rfl⟩
  obtain ⟨carry, us', hrun, hlength', -, -, c, hc, rfl, hresult⟩ :=
    sweep_ok pre (top :: post) hlength hfirst fun _ _ _ _ _ _ h ↦ h.step
  have hplace : pre.length + v.length = (pre ++ us').length := by
    rw [List.length_append, hlength', hlength]
  have hlist (w : UInt32) (ws : Limbs) : pre ++ (ws ++ [w]) ++ post = pre ++ ws ++ w :: post := by
    simp
  obtain ⟨sum, hadd, hlast⟩ := add_top htop hc
  rw [List.nil_append, hlast] at hresult
  rw [hlist, addInto, hrun, ok_bind]
  dsimp only
  rw [read_append _ _ _ hplace, ok_bind, hadd, ok_bind, write_append _ _ _ _ hplace, hresult, hlist]

end Secp.Limbs.Checked
