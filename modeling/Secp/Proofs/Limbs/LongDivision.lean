import Secp.Proofs.Limbs.InPlace
import Secp.Proofs.Limbs.Quotient

/-!
# Long division with every step checked

Division as a machine runs it: the quotient digits are written into a buffer from the top place
down, and the dividend is worked on in place, one window of it at a time. The window's loops pass a
carry and a signed borrow from limb to limb, the correction of an estimate goes on until it is no
longer too large, and each digit is checked to be a limb when it is written.

No step stops with a fault, and the run gives what division on lists gives. So long division is
exact.
-/

namespace Secp.Limbs

variable {a b us v ws : Limbs}

namespace Checked

variable {pre post : Limbs}

/-- Write a quotient digit, which must be a limb. -/
def writeDigit (digits : Limbs) (place : Nat) (digit : UInt64) : Except Fault Limbs := do
  let limb ← guarded (digit.toNat < base) .wideDigit digit.toUInt32
  write digits place limb

/-- One digit of a division by a word, from the limb at a place and the remainder so far. -/
def divWordStep (d : UInt64) (a : Limbs) (place : Nat) (state : Limbs × UInt64) :
    Except Fault (Limbs × UInt64) := do
  let shifted ← up state.2 26
  let w ← read a place
  let t := shifted ||| w.toUInt64
  let digit ← div t d
  let digits ← writeDigit state.1 place digit
  let rest ← mod t d
  .ok (digits, rest)

/-- Quotient and remainder of a division by a word. -/
def divWord (a : Limbs) (d : UInt32) : Except Fault (Limbs × UInt32) := do
  guarded (d ≠ 0) .zeroDivisor ()
  let (digits, rest) ←
    (List.range a.length).foldrM (divWordStep d.toUInt64 a) (List.replicate a.length 0, 0)
  let rest ← narrow rest
  .ok (trim digits, rest.toUInt32)

/-- A digit written behind places still open. -/
theorem writeDigit_replicate {place : Nat} {digit : UInt64} (h : digit.toNat < base)
    (ws : Limbs) :
    writeDigit (List.replicate (place + 1) 0 ++ ws) place digit =
      .ok (List.replicate place 0 ++ digit.toUInt32 :: ws) := by
  rw [writeDigit, guarded_of h, ok_bind, List.replicate_succ', List.append_assoc]
  exact write_append _ 0 ws _ List.length_replicate.symm

/-- The buffer of digits and the remainder, where the limbs from a place up are divided by a
word. -/
def divWordState (d : UInt64) (a : Limbs) (place : Nat) : Limbs × UInt64 :=
  (List.replicate place 0 ++ (divWordWith d (a.drop place)).1, (divWordWith d (a.drop place)).2)

/-- A step of a division by a word runs, and writes the digit that division gives. -/
theorem divWordStep_eq {d : UInt64} {place : Nat} (ha : Bounded a) (hpos : 0 < d.toNat)
    (hd : d.toNat < 2 ^ 32) (hplace : place < a.length) :
    divWordStep d a place (divWordState d a (place + 1)) = .ok (divWordState d a place) := by
  have hread : a[place]? = some a[place] := List.getElem?_eq_getElem hplace
  have hw : a[place].toNat < base := ha _ (List.getElem_mem hplace)
  have hne : d ≠ 0 := by
    rintro rfl
    exact absurd hpos (Nat.lt_irrefl 0)
  obtain ⟨-, -, hlt⟩ := divWordWith_spec (ha.drop (place + 1)) hpos hd
  rw [divWordState, divWordState, List.drop_eq_getElem_cons hplace, divWordWith]
  generalize divWordWith d (a.drop (place + 1)) = below at *
  obtain ⟨digits, rest⟩ := below
  have hrest : rest.toNat < 2 ^ 32 := hlt.trans hd
  have hdigit : (((rest <<< 26) ||| a[place].toUInt64) / d).toNat < base := by
    have ht : ((rest <<< 26) ||| a[place].toUInt64).toNat = rest.toNat * base + a[place].toNat :=
      toNat_shiftLimb hrest hw
    rw [UInt64.toNat_div, ht]
    exact extended_div_lt hw hlt
  simp only [divWordStep, up_word hrest, ok_bind, read, hread, div, guarded_of hne,
    writeDigit_replicate hdigit, mod]

/-- Division by a word runs and gives what it gives on lists. -/
theorem divWord_eq {d : UInt32} (ha : Bounded a) (hd : d ≠ 0) :
    divWord a d = .ok (Limbs.divWord a d) := by
  have hpos : 0 < d.toUInt64.toNat :=
    Nat.pos_of_ne_zero fun hzero ↦ hd (UInt32.toNat_inj.mp hzero)
  have hlt : d.toUInt64.toNat < 2 ^ 32 := d.toNat_lt
  have hfirst : (List.replicate a.length 0, 0) = divWordState d.toUInt64 a a.length := by
    simp [divWordState, divWordWith]
  obtain ⟨state, hrun, rfl⟩ :=
    foldrM_range (fun place state ↦ state = divWordState d.toUInt64 a place) hfirst
      fun place hplace state hstate ↦ ⟨_, hstate ▸ divWordStep_eq ha hpos hlt hplace, rfl⟩
  obtain ⟨-, -, hrest⟩ := divWordWith_spec ha hpos hlt
  have hword : (divWordState d.toUInt64 a 0).2.toNat < 2 ^ 32 := hrest.trans hlt
  simp only [divWord, guarded_of hd, hrun, ok_bind, narrow, guarded_of hword]
  rfl

/-- Whether an estimate is too large: it is no limb, or exceeds the quotient of the leading limbs.
The third limb of the window is looked up only where it decides. -/
def tooLarge (v₂ : UInt64) (u : Limbs) (top : Nat) (q r : UInt64) : Except Fault Bool :=
  if mask.toUInt64 < q then .ok true
  else do
    let product ← mul q v₂
    let shifted ← up r 26
    let place ← minus top 2
    let u₂ ← read u place
    .ok (decide ((shifted ||| u₂.toUInt64) < product))

/-- Correct an estimate and its remainder until it is not too large, or the remainder is no limb any
more. -/
def correct (v₁ v₂ : UInt64) (u : Limbs) (top : Nat) (q r : UInt64) : Except Fault UInt64 := do
  let large ← tooLarge v₂ u top q r
  if large then
    if h : 0 < q.toNat then
      let r ← add r v₁
      if mask.toUInt64 < r then .ok (q - 1) else correct v₁ v₂ u top (q - 1) r
    else .error .overflow
  else .ok q
termination_by q.toNat
decreasing_by
  have hle : (1 : UInt64) ≤ q := UInt64.le_iff_toNat_le.mpr h
  rw [UInt64.toNat_sub_of_le _ _ hle]
  exact Nat.sub_lt h Nat.one_pos

/-- Estimate of one quotient limb from the leading limbs of the divisor and of the window whose top
limb is at a place. -/
def estimate (v₁ v₂ : UInt64) (u : Limbs) (top : Nat) : Except Fault UInt64 := do
  let u₀ ← read u top
  let shifted ← up u₀.toUInt64 26
  let place ← minus top 1
  let u₁ ← read u place
  let t := shifted ||| u₁.toUInt64
  let q ← div t v₁
  let r ← mod t v₁
  correct v₁ v₂ u top q r

/-- The test of an estimate runs. -/
theorem tooLarge_eq {v₂ q r : UInt64} {u : Limbs} {top : Nat} {u₂ : UInt32}
    (hv₂ : v₂.toNat < base) (hr : r.toNat < base) (htop : 2 ≤ top)
    (hread : read u (top - 2) = .ok u₂) :
    tooLarge v₂ u top q r =
      .ok (decide (mask.toUInt64 < q ∨ (r <<< 26 ||| u₂.toUInt64) < q * v₂)) := by
  unfold tooLarge
  by_cases hq : mask.toUInt64 < q
  · simp [hq]
  · have hlimb : q.toNat < base := Nat.lt_of_not_le hq
    have hmul : q.toNat * v₂.toNat < 2 ^ 64 :=
      Nat.lt_of_lt_of_le (Nat.mul_lt_mul'' hlimb hv₂) (by decide)
    simp only [hq, if_false, false_or, mul, guarded_of hmul, up_word (hr.trans (by decide)), minus,
      guarded_of htop, hread, ok_bind]

/-- Correction runs and ends with what as many corrections as can be needed give. -/
theorem correct_eq {v₁ v₂ q r : UInt64} {u : Limbs} {top count : Nat} {u₂ : UInt32}
    (hv₁ : v₁.toNat < base) (hv₂ : v₂.toNat < base) (htop : 2 ≤ top)
    (hread : read u (top - 2) = .ok u₂) (hr : r.toNat < base)
    (hcount : base ≤ r.toNat + count * v₁.toNat) :
    correct v₁ v₂ u top q r = .ok (Limbs.correct v₁ v₂ u₂.toUInt64 count q r) := by
  induction count generalizing q r with
  | zero => omega
  | succ count ih =>
    unfold correct Limbs.correct
    rw [tooLarge_eq hv₂ hr htop hread, ok_bind]
    by_cases hlarge : mask.toUInt64 < q ∨ (r <<< 26 ||| u₂.toUInt64) < q * v₂
    · have hpos : 0 < q.toNat := by
        by_contra hzero
        have hq : q = 0 := UInt64.toNat_inj.mp (Nat.eq_zero_of_not_pos hzero)
        subst hq
        simp at hlarge
      have hfits : r.toNat + v₁.toNat < 2 ^ 64 := by
        rw [base_eq] at hr hv₁
        omega
      have hnext : (r + v₁).toNat = r.toNat + v₁.toNat := toNat_add64 hfits
      simp only [hlarge, decide_true, if_true, dif_pos hpos, add, guarded_of hfits, ok_bind]
      by_cases hstop : mask.toUInt64 < r + v₁
      · simp only [if_pos hstop]
      · simp only [if_neg hstop]
        apply ih (Nat.lt_of_not_le hstop)
        rw [hnext, Nat.add_assoc, Nat.add_comm v₁.toNat, ← Nat.succ_mul]
        exact hcount
    · simp only [hlarge, decide_false, if_false, Bool.false_eq_true]

/-- The estimate runs, with the leading limbs of the divisor and of the window in sight. -/
theorem estimate_concat {v₁ v₂ u₀ u₁ u₂ : UInt32} (hv₁ : v₁.toNat < base)
    (hhalf : base ≤ 2 * v₁.toNat) (hv₂ : v₂.toNat < base) :
    estimate v₁.toUInt64 v₂.toUInt64 (pre ++ (us ++ [u₂, u₁, u₀]) ++ post)
        (pre.length + (us.length + 2)) =
      .ok (Limbs.estimate (ws ++ [v₂, v₁]) (us ++ [u₂, u₁, u₀])) := by
  have hread₀ : read (pre ++ (us ++ [u₂, u₁, u₀]) ++ post) (pre.length + (us.length + 2)) =
      .ok u₀ := by
    simpa using read_append (pre ++ us ++ [u₂, u₁]) u₀ post rfl
  have hread₁ : read (pre ++ (us ++ [u₂, u₁, u₀]) ++ post) (pre.length + (us.length + 1)) =
      .ok u₁ := by
    simpa using read_append (pre ++ us ++ [u₂]) u₁ (u₀ :: post) rfl
  have hread₂ : read (pre ++ (us ++ [u₂, u₁, u₀]) ++ post) (pre.length + us.length) = .ok u₂ := by
    simpa using read_append (pre ++ us) u₂ (u₁ :: u₀ :: post) rfl
  have hone : 1 ≤ pre.length + (us.length + 2) := by omega
  have htwo : 2 ≤ pre.length + (us.length + 2) := by omega
  rw [← UInt32.toNat_toUInt64] at hv₁ hhalf hv₂
  have hpos : 0 < v₁.toUInt64.toNat := by
    rw [base_eq] at hhalf
    omega
  have hne : v₁.toUInt64 ≠ 0 := by
    intro hzero
    rw [hzero] at hpos
    exact absurd hpos (Nat.lt_irrefl 0)
  have hrest : (((u₀.toUInt64 <<< 26) ||| u₁.toUInt64) % v₁.toUInt64).toNat < base := by
    rw [UInt64.toNat_mod]
    exact (Nat.mod_lt _ hpos).trans hv₁
  rw [estimate, hread₀, ok_bind, up_word (x := u₀.toUInt64) u₀.toNat_lt, ok_bind, minus,
    guarded_of hone, ok_bind, Nat.add_succ_sub_one, hread₁, ok_bind]
  dsimp only
  rw [div, guarded_of hne, ok_bind, mod, guarded_of hne, ok_bind,
    correct_eq hv₁ hv₂ htwo hread₂ hrest (hhalf.trans (Nat.le_add_left _ _))]
  simp [Limbs.estimate]

/-- The estimate of a window's quotient limb runs and gives what it gives on lists. -/
theorem estimate_eq (pre post : Limbs) {v₁ v₂ : UInt32} {window : Limbs}
    (hv : Normalized (ws ++ [v₂, v₁]))
    (hlength : window.length = (ws ++ [v₂, v₁]).length + 1) :
    estimate v₁.toUInt64 v₂.toUInt64 (pre ++ window ++ post)
        (pre.length + (ws ++ [v₂, v₁]).length) =
      .ok (Limbs.estimate (ws ++ [v₂, v₁]) window) := by
  have hcount : (ws ++ [v₂, v₁]).length = ws.length + 2 := List.length_append
  obtain ⟨us, lead, rfl, hus, hlead⟩ := exists_leading (show 3 ≤ window.length by omega)
  obtain ⟨u₂, u₁, u₀, rfl⟩ := List.length_eq_three.mp hlead
  have hlimbs := (bounded_append.mp hv.bounded).2
  have hbelow : us.length = ws.length := by omega
  rw [hcount, ← hbelow]
  exact estimate_concat (hlimbs v₁ (by simp)) hv.base_le (hlimbs v₂ (by simp))

/-- One quotient limb of the window that starts at a place, with the window reduced to the remainder
in its place. -/
def divStep (v : Limbs) (v₁ v₂ : UInt64) (place : Nat) (state : Limbs × Limbs) :
    Except Fault (Limbs × Limbs) := do
  let q ← estimate v₁ v₂ state.1 (place + v.length)
  let (negative, u) ← subScaled q v place state.1
  if negative then
    let q ← sub q 1
    let u ← addInto v place u
    let digits ← writeDigit state.2 place q
    .ok (u, digits)
  else
    let digits ← writeDigit state.2 place q
    .ok (u, digits)

/-- A step of long division runs, writes the quotient limb that the step on lists gives, and leaves
its remainder in the window. -/
theorem divStep_eq (pre post digits : Limbs) {v₁ v₂ : UInt32} {window : Limbs}
    (hv : Normalized (ws ++ [v₂, v₁])) (hwindow : Bounded window)
    (hlength : window.length = (ws ++ [v₂, v₁]).length + 1)
    (hlt : toNat window < base * toNat (ws ++ [v₂, v₁])) :
    ∃ spent, divStep (ws ++ [v₂, v₁]) v₁.toUInt64 v₂.toUInt64 pre.length
        (pre ++ window ++ post, List.replicate (pre.length + 1) 0 ++ digits) =
      .ok (pre ++ (Limbs.divStep (ws ++ [v₂, v₁]) window).2 ++ spent,
        List.replicate pre.length 0 ++ (Limbs.divStep (ws ++ [v₂, v₁]) window).1 :: digits) := by
  have hestimate := estimate_eq pre post hv hlength
  generalize ws ++ [v₂, v₁] = v at *
  obtain ⟨hlimb, -, -⟩ := estimate_bounds hv hwindow hlength hlt
  have hsub := subScaled_eq pre post hlimb hwindow hv.bounded hlength
  have hfits : (Limbs.estimate v window).toNat * toNat v < base ^ window.length := by
    rw [hlength, Nat.pow_succ']
    exact Nat.mul_lt_mul'' hlimb hv.bounded.toNat_lt
  have hsplit (ws : Limbs) : pre ++ ws ++ post =
      pre ++ ws.take v.length ++ (ws.drop v.length ++ post) := by
    rw [List.append_assoc, List.append_assoc, ← List.append_assoc (ws.take _),
      List.take_append_drop]
  rw [divStep, hestimate, ok_bind, hsub, ok_bind]
  dsimp only
  cases hborrowed : (Limbs.subScaled (Limbs.estimate v window) window v 0 0).2 with
  | false =>
    refine ⟨(Limbs.subScaled (Limbs.estimate v window) window v 0 0).1.drop v.length ++ post, ?_⟩
    rw [divStep_of_kept hborrowed, writeDigit_replicate hlimb, hsplit]
    rfl
  | true =>
    have hpos := pos_of_borrowed hwindow hv.bounded hlimb hfits hborrowed
    have hone : (1 : UInt64).toNat ≤ (Limbs.estimate v window).toNat := hpos
    have hpred : (Limbs.estimate v window - 1).toNat < base := by
      rw [UInt64.toNat_sub_of_le _ _ hone]
      exact Nat.lt_of_le_of_lt (Nat.sub_le _ _) hlimb
    have hadd := addInto_eq pre post
      (bounded_subScaled (Limbs.estimate v window) window v 0 0) hv.bounded
      ((length_subScaled _ _ _ _ _).trans hlength)
    refine ⟨(Limbs.addInto (Limbs.subScaled (Limbs.estimate v window) window v 0 0).1 v 0).drop
      v.length ++ post, ?_⟩
    rw [divStep_of_borrowed hborrowed, if_pos rfl, sub, guarded_of hone, ok_bind, hadd, ok_bind,
      writeDigit_replicate hpred, hsplit]
    rfl

/-- What long division of the limbs `us`, behind the remainder `r`, has reached at a place: the
limbs below it are untouched, the remainder so far stands behind them, and the buffer of digits
holds those from the place up. -/
def Divided (v r us : Limbs) (place : Nat) (state : Limbs × Limbs) : Prop :=
  ∃ spent, state = (us.take place ++ (longDivide v r (us.drop place)).2 ++ spent,
    List.replicate place 0 ++ (longDivide v r (us.drop place)).1)

/-- A step of long division takes what has been reached one place further down. -/
theorem Divided.step {v₁ v₂ : UInt32} {r : Limbs} {place : Nat} {state : Limbs × Limbs}
    (hv : Normalized (ws ++ [v₂, v₁])) (hus : Bounded us) (hr : IsRemainder (ws ++ [v₂, v₁]) r)
    (hplace : place < us.length) (h : Divided (ws ++ [v₂, v₁]) r us (place + 1) state) :
    ∃ state', divStep (ws ++ [v₂, v₁]) v₁.toUInt64 v₂.toUInt64 place state = .ok state' ∧
      Divided (ws ++ [v₂, v₁]) r us place state' := by
  obtain ⟨spent, rfl⟩ := h
  obtain ⟨-, -, hrest⟩ := longDivide_spec hv (hus.drop (place + 1)) hr
  unfold Divided
  rw [List.drop_eq_getElem_cons hplace, longDivide]
  generalize longDivide (ws ++ [v₂, v₁]) r (us.drop (place + 1)) = below at *
  obtain ⟨digits, rest⟩ := below
  have hu : us[place].toNat < base := hus _ (List.getElem_mem hplace)
  have hlength : (us.take place).length = place := List.length_take_of_le (Nat.le_of_lt hplace)
  have hwindow : us.take (place + 1) ++ rest ++ spent =
      us.take place ++ (us[place] :: rest) ++ spent := by
    simp only [List.take_succ_eq_append_getElem hplace, List.append_assoc, List.cons_append,
      List.nil_append]
  obtain ⟨spent', hrun⟩ := divStep_eq (us.take place) spent digits hv
    (bounded_cons.mpr ⟨hu, hrest.bounded⟩) (congrArg Nat.succ hrest.length_eq)
    (hrest.toNat_window_lt hu)
  rw [hlength, ← hwindow] at hrun
  exact ⟨_, hrun, spent', rfl⟩

/-- Long division of a buffer runs from the top place down. It writes the quotient limbs that long
division on lists gives, and leaves its remainder at the bottom of the buffer. -/
theorem longDivide_eq {v₁ v₂ : UInt32} {r : Limbs} (hv : Normalized (ws ++ [v₂, v₁]))
    (hus : Bounded us) (hr : IsRemainder (ws ++ [v₂, v₁]) r) :
    ∃ spent, (List.range us.length).foldrM
        (divStep (ws ++ [v₂, v₁]) v₁.toUInt64 v₂.toUInt64)
        (us ++ r, List.replicate us.length 0) =
      .ok ((longDivide (ws ++ [v₂, v₁]) r us).2 ++ spent,
        (longDivide (ws ++ [v₂, v₁]) r us).1) := by
  have hfirst : Divided (ws ++ [v₂, v₁]) r us us.length
      (us ++ r, List.replicate us.length 0) := ⟨[], by simp [longDivide]⟩
  obtain ⟨state, hrun, spent, rfl⟩ := foldrM_range (Divided (ws ++ [v₂, v₁]) r us) hfirst
    fun _ hplace _ h ↦ h.step hv hus hr hplace
  exact ⟨spent, hrun⟩

/-- Long division of a dividend by a divisor that have been shifted up alike. -/
def divPrepared (v u : Limbs) (s : Nat) : Except Fault (Limbs × Limbs) := do
  let m ← minus u.length v.length
  let place ← minus v.length 1
  let v₁ ← read v place
  let place ← minus v.length 2
  let v₂ ← read v place
  let (u, digits) ←
    (List.range m).foldrM (divStep v v₁.toUInt64 v₂.toUInt64) (u, List.replicate m 0)
  guarded (v.length ≤ u.length) .outOfBounds ()
  let r ← shr (trim (u.take v.length)) s
  .ok (trim digits, r)

/-- Quotient and remainder of two magnitudes. -/
def divRem (a b : Limbs) : Except Fault (Limbs × Limbs) := do
  guarded (b ≠ []) .zeroDivisor ()
  let order ← compare a b
  if order = .lt then .ok ([], a)
  else if b.length = 1 then
    let d ← read b 0
    let (q, r) ← divWord a d
    .ok (q, trim [r])
  else
    let place ← minus b.length 1
    let top ← read b place
    let s ← minus width (Number.bitLength top.toNat)
    let v ← shl b s
    guarded (v.length = b.length) .lengthChanged ()
    let u ← shl a s
    divPrepared v (u.take (a.length + 1) ++ List.replicate (a.length + 1 - u.length) 0) s

/-- Long division of the prepared operands runs and gives what it gives on lists. -/
theorem divPrepared_eq {u : Limbs} {s : Nat} (h : Prepared a b s v u) (ha : Bounded a) :
    divPrepared v u s = .ok
      (trim (longDivide v (u.drop (u.length - v.length)) (u.take (u.length - v.length))).1,
        Limbs.shr (trim (longDivide v (u.drop (u.length - v.length))
          (u.take (u.length - v.length))).2) s) := by
  have hfirst := h.isRemainder_drop ha
  have hus := h.bounded.take (u.length - v.length)
  obtain ⟨-, -, hrest⟩ := longDivide_spec h.normalized hus hfirst
  obtain ⟨vs, lead, rfl, -, hlead⟩ := exists_leading h.normalized.two_le
  obtain ⟨v₂, v₁, rfl⟩ := List.length_eq_two.mp hlead
  have hone : 1 ≤ (vs ++ [v₂, v₁]).length := by simp
  have htwo : 2 ≤ (vs ++ [v₂, v₁]).length := by simp
  have hread₁ : read (vs ++ [v₂, v₁]) ((vs ++ [v₂, v₁]).length - 1) = .ok v₁ := by
    simpa using read_append (vs ++ [v₂]) v₁ [] rfl
  have hread₂ : read (vs ++ [v₂, v₁]) ((vs ++ [v₂, v₁]).length - 2) = .ok v₂ := by
    simpa using read_append vs v₂ [v₁] rfl
  obtain ⟨spent, hrun⟩ := longDivide_eq h.normalized hus hfirst
  rw [List.take_append_drop, List.length_take_of_le (Nat.sub_le _ _)] at hrun
  have hlength := hrest.length_eq
  rw [divPrepared, minus, guarded_of h.length_le, ok_bind, minus, guarded_of hone, ok_bind, hread₁,
    ok_bind, minus, guarded_of htwo, ok_bind, hread₂, ok_bind, hrun, ok_bind]
  dsimp only
  rw [guarded_of (hlength.ge.trans (List.prefix_append _ _).length_le), ok_bind,
    List.take_left' hlength, shr_eq hrest.bounded.trim, ok_bind]

/-- Division of canonical magnitudes runs and gives what it gives on lists. -/
theorem divRem_eq (ha : Canonical a) (hb : Canonical b) (hne : b ≠ []) :
    divRem a b = .ok (Limbs.divRem a b) := by
  obtain ⟨top, htop⟩ : ∃ top, b.getLast? = some top := ⟨_, List.getLast?_eq_getLast_of_ne_nil hne⟩
  obtain ⟨low, hlow, -, hlimb, hpos⟩ := hb.exists_top htop
  have hread : read b (b.length - 1) = .ok top := by
    simpa [hlow] using read_append low top [] rfl
  have hcompare := Limbs.compare_eq ha hb
  unfold Limbs.divRem
  rw [divRem, guarded_of hne, ok_bind, compare_eq, ok_bind, htop]
  dsimp only
  by_cases hless : Limbs.compare a b = .lt
  · rw [if_pos hless, if_pos hless]
  · rw [if_neg hless, if_neg hless]
    by_cases hone : b.length = 1
    · have htop0 : top ≠ 0 := by
        rintro rfl
        exact absurd hpos (Nat.lt_irrefl 0)
      rw [hone] at hread
      rw [if_pos hone, if_pos hone, hread, ok_bind, divWord_eq ha.1 htop0, ok_bind]
    · have hle : toNat b ≤ toNat a := by
        rw [hcompare] at hless
        exact Nat.le_of_not_lt (mt Nat.compare_eq_lt.mpr hless)
      have hlength : 1 ≤ b.length := List.length_pos_of_ne_nil hne
      have hprepared := prepared_shl ha hb (by omega) htop rfl hle
      rw [if_neg hone, if_neg hone, minus, guarded_of hlength, ok_bind, hread, ok_bind, minus,
        guarded_of (bitLength_le_width hlimb), ok_bind]
      generalize width - Number.bitLength top.toNat = s at *
      rw [shl_eq hb.1, ok_bind, guarded_of hprepared.length_divisor, ok_bind, shl_eq ha.1, ok_bind,
        List.take_of_length_le (length_shl_le a hprepared.shift_lt),
        divPrepared_eq hprepared ha.1]

/-- A word that is no limb is noticed, when it makes a quotient digit that is none. -/
example : divRem [0xffffffff] [1] = .error .wideDigit := by decide +kernel

end Checked

/-- Long division is exact. For canonical magnitudes, the divisor not zero, the machine's run stops
at no step, so no word overflows, every place is inside its buffer and every quotient digit written
is a limb; and it gives canonical magnitudes, the quotient and the remainder below the divisor. -/
theorem divRem_exact (ha : Canonical a) (hb : Canonical b) (hne : b ≠ []) :
    ∃ q r, divRem a b = (q, r) ∧ Checked.divRem a b = .ok (q, r) ∧ Canonical q ∧ Canonical r ∧
      toNat a = toNat q * toNat b + toNat r ∧ toNat r < toNat b := by
  have hdivision := divRem_spec ha hb hne
  exact ⟨_, _, rfl, Checked.divRem_eq ha hb hne, hdivision.canonical_quotient,
    hdivision.canonical_remainder, hdivision.sum_eq.symm, hdivision.remainder_lt⟩

/-- A division whose one estimate is too large, so that the divisor is added back. -/
theorem divRem_exact_added_back :
    estimate [1, 0, 0x2000000] [0, 0, 0x2000000, 0x1ffffff] = 0x3ffffff ∧
      Checked.divRem [0, 0, 0x2000000, 0x1ffffff] [1, 0, 0x2000000] =
        .ok ([0x3fffffe], [2, 0x3ffffff, 0x1ffffff]) := by
  have ha : Canonical [0, 0, 0x2000000, 0x1ffffff] :=
    ⟨by simp [Bounded, base_eq], by simp [Trimmed]⟩
  have hb : Canonical [1, 0, 0x2000000] := ⟨by simp [Bounded, base_eq], by simp [Trimmed]⟩
  obtain ⟨q, r, hdivision, hrun, -⟩ := divRem_exact ha hb (by decide)
  refine ⟨by decide +kernel, ?_⟩
  rw [hrun, ← hdivision]
  decide +kernel

end Secp.Limbs
