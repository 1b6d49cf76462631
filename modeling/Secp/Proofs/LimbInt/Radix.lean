import Secp.LimbInt.Radix
import Secp.Proofs.LimbInt.Arithmetic
import Secp.Proofs.Limbs.Rows
import Secp.Proofs.Limbs.Sum
import Secp.Proofs.Number.Positional
import Secp.Proofs.Outcome
import Secp.Proofs.Text.Digits

/-!
# Digits read into limbs

A chunk holds as many digits as keep its power within one limb, and all chunks but the first are
full, so a chunk multiplies what was read by the power of its length and adds its own value. What is
read is therefore the number that the digits denote. An integer is read from an optional minus sign
and digits, and from nothing else.
-/

namespace Secp

namespace LimbInt

/-- The radices that have digits. -/
theorem validRadix_iff {radix : Nat} : validRadix radix = true ↔ 2 ≤ radix ∧ radix ≤ 36 := by
  rw [validRadix, Bool.and_eq_true_iff, decide_eq_true_iff, decide_eq_true_iff]

/-- A chunk while it is extended: its power is that of its size and fits one limb. -/
structure ChunkOf (radix : Nat) (chunk : Nat × Nat) : Prop where
  size_pos : 1 ≤ chunk.1
  power_eq : chunk.2 = radix ^ chunk.1
  power_le : chunk.2 ≤ Limbs.base

/-- Extending a chunk keeps it one. -/
theorem ChunkOf.extend {radix : Nat} {chunk : Nat × Nat} (h : ChunkOf radix chunk) (count : Nat) :
    ChunkOf radix (chunkFrom radix count chunk) := by
  induction count generalizing chunk with
  | zero => exact h
  | succ count ih =>
    rw [chunkFrom]
    split
    · next hfits =>
      refine ih ⟨Nat.le_add_left _ _, ?_, hfits⟩
      rw [h.power_eq, Nat.pow_succ]
    · exact h

/-- The chunk for a radix that has digits. -/
theorem chunkOf_chunk {radix : Nat} (h : validRadix radix = true) :
    ChunkOf radix (chunk radix) := by
  refine ChunkOf.extend ⟨Nat.le_refl 1, (Nat.pow_one radix).symm, ?_⟩ 26
  exact (validRadix_iff.mp h).2.trans (by decide)

/-- Digits behind others multiply what stands before them by the radix for each of them. -/
theorem chunkValue_append (radix : Nat) (xs ys : List Nat) :
    chunkValue radix (xs ++ ys) =
      chunkValue radix xs * radix ^ ys.length + chunkValue radix ys := by
  induction ys using List.reverseRecOn with
  | nil => simp [chunkValue]
  | append_singleton ys d ih =>
    rw [← List.append_assoc]
    simp only [chunkValue, List.foldl_append, List.foldl_cons, List.foldl_nil] at ih ⊢
    rw [ih, List.length_append, List.length_singleton, Nat.pow_succ]
    ring

/-- Digits denote what the first of them do, multiplied by the radix for each of the others, and
what the others denote. -/
theorem chunkValue_take_drop (radix count : Nat) (ds : List Nat) :
    chunkValue radix ds = chunkValue radix (ds.take count) * radix ^ (ds.drop count).length +
      chunkValue radix (ds.drop count) := by
  rw [← chunkValue_append, List.take_append_drop]

/-- What digits denote does not depend on how it is computed. -/
theorem chunkValue_eq_value (radix : Nat) (ds : List Nat) :
    chunkValue radix ds = Positional.value radix ds := by
  induction ds using List.reverseRecOn with
  | nil => rfl
  | append_singleton ds d ih =>
    rw [Positional.value_concat, ← ih, chunkValue, List.foldl_concat]
    rfl

/-- A leading zero does not count. -/
theorem chunkValue_zero_cons (radix : Nat) (ds : List Nat) :
    chunkValue radix (0 :: ds) = chunkValue radix ds := by
  rw [chunkValue, List.foldl_cons, Nat.zero_mul]
  rfl

/-- Digits denote a number below the power of the radix that they count. -/
theorem chunkValue_lt {radix : Nat} {ds : List Nat} (h : ∀ d ∈ ds, d < radix) :
    chunkValue radix ds < radix ^ ds.length := by
  induction ds using List.reverseRecOn with
  | nil => exact Nat.one_pos
  | append_singleton ds d ih =>
    have hd : d < radix := h d (by simp)
    have hds := ih fun e he ↦ h e (List.mem_append_left _ he)
    have hsingle : chunkValue radix [d] = d := by simp [chunkValue]
    rw [chunkValue_append, List.length_append, List.length_singleton, Nat.pow_one, hsingle,
      Nat.pow_succ]
    calc chunkValue radix ds * radix + d < (chunkValue radix ds + 1) * radix := by
          rw [Nat.succ_mul]
          exact Nat.add_lt_add_left hd _
      _ ≤ radix ^ ds.length * radix := Nat.mul_le_mul_right _ hds

/-- Read the digits of a chunk behind those in front of it. -/
def readChunk (radix power : Nat) (limbs : Limbs) (piece : List Nat) : Limbs :=
  (limbs.mulWord (UInt32.ofNat power)).addWord (UInt32.ofNat (chunkValue radix piece))

theorem bounded_readChunk (radix power : Nat) (limbs : Limbs) (piece : List Nat) :
    (readChunk radix power limbs piece).Bounded :=
  Limbs.bounded_addWord (Limbs.bounded_mulWord limbs _) _

/-- A chunk multiplies what was read by its power and adds its value. -/
theorem toNat_readChunk {radix power : Nat} (hpower : power ≤ Limbs.base) {limbs : Limbs}
    (hlimbs : limbs.Bounded) {piece : List Nat} (hdigits : ∀ d ∈ piece, d < radix)
    (hpiece : radix ^ piece.length ≤ Limbs.base) :
    (readChunk radix power limbs piece).toNat = limbs.toNat * power + chunkValue radix piece := by
  have hlt : chunkValue radix piece < Limbs.base := (chunkValue_lt hdigits).trans_le hpiece
  have hword : (UInt32.ofNat power).toNat = power :=
    UInt32.toNat_ofNat_of_lt' (hpower.trans_lt (by decide))
  have hvalue : (UInt32.ofNat (chunkValue radix piece)).toNat = chunkValue radix piece :=
    UInt32.toNat_ofNat_of_lt' (hlt.trans (by decide))
  rw [readChunk, Limbs.toNat_addWord (Limbs.bounded_mulWord limbs _), Limbs.toNat_mulWord hlimbs,
    hword, hvalue]

/-- Full chunks multiply what was read by the radix for each of their digits and add their value. -/
theorem toNat_foldl_pieces {radix size power : Nat} (hchunk : ChunkOf radix (size, power))
    {ds : List Nat} (hdigits : ∀ d ∈ ds, d < radix) (hfull : size ∣ ds.length) {limbs : Limbs}
    (hlimbs : limbs.Bounded) :
    Limbs.toNat ((pieces size ds).foldl (readChunk radix power) limbs) =
      limbs.toNat * radix ^ ds.length + chunkValue radix ds := by
  fun_induction pieces size ds generalizing limbs with
  | case1 ds hnone =>
    have hsize : size ≠ 0 := Nat.ne_of_gt hchunk.size_pos
    obtain rfl : ds = [] := hnone.resolve_left hsize
    rw [List.foldl_nil, List.length_nil, Nat.pow_zero, Nat.mul_one]
    rfl
  | case2 ds hsome ih =>
    have hpower : power = radix ^ size := hchunk.power_eq
    have hne : ds ≠ [] := fun hnil ↦ hsome (.inr hnil)
    have hle : size ≤ ds.length := Nat.le_of_dvd (List.length_pos_iff.mpr hne) hfull
    have hfirst := toNat_readChunk hchunk.power_le hlimbs
      (fun d hd ↦ hdigits d (List.mem_of_mem_take hd)) (by
        rw [List.length_take_of_le hle, ← hpower]
        exact hchunk.power_le)
    have hdrop : size ∣ (ds.drop size).length := by
      rw [List.length_drop]
      exact Nat.dvd_sub hfull (Nat.dvd_refl size)
    have hlength : ds.length = size + (ds.drop size).length := by
      rw [List.length_drop]
      omega
    rw [List.foldl_cons, ih (fun d hd ↦ hdigits d (List.mem_of_mem_drop hd)) hdrop
      (bounded_readChunk radix power limbs _), hfirst, chunkValue_take_drop radix size ds, hlength,
      Nat.pow_add, hpower]
    ring

/-- What is read from digits is the number that they denote. -/
theorem toNat_ofDigits {radix : Nat} (hradix : validRadix radix = true) {ds : List Nat}
    (hdigits : ∀ d ∈ ds, d < radix) : (ofDigits radix ds).toNat = chunkValue radix ds := by
  have hchunk := chunkOf_chunk hradix
  unfold ofDigits
  generalize chunk radix = sizes at hchunk
  obtain ⟨size, power⟩ := sizes
  change Limbs.toNat ((leadingPieces size ds).foldl (readChunk radix power) []) = _
  unfold leadingPieces
  dsimp only
  split
  · next hrest =>
    rw [toNat_foldl_pieces hchunk hdigits (Nat.dvd_of_mod_eq_zero hrest) Limbs.bounded_nil,
      Limbs.toNat_nil, Nat.zero_mul, Nat.zero_add]
  · next hrest =>
    -- The first chunk is shorter than a full one, but nothing stands in front of it.
    have hless : ds.length % size < size := Nat.mod_lt _ hchunk.size_pos
    have hdrop : size ∣ (ds.drop (ds.length % size)).length := by
      rw [List.length_drop]
      exact Nat.dvd_sub_mod ds.length
    have hpos : 0 < radix := Nat.lt_of_lt_of_le (by decide) (validRadix_iff.mp hradix).1
    have hshort : radix ^ (ds.take (ds.length % size)).length ≤ Limbs.base := by
      calc radix ^ (ds.take (ds.length % size)).length ≤ radix ^ size :=
            Nat.pow_le_pow_right hpos ((List.length_take_le _ _).trans hless.le)
        _ = power := hchunk.power_eq.symm
        _ ≤ Limbs.base := hchunk.power_le
    have hfirst := toNat_readChunk hchunk.power_le Limbs.bounded_nil
      (fun d hd ↦ hdigits d (List.mem_of_mem_take hd)) hshort
    rw [Limbs.toNat_nil, Nat.zero_mul, Nat.zero_add] at hfirst
    rw [List.foldl_cons, toNat_foldl_pieces hchunk (fun d hd ↦ hdigits d (List.mem_of_mem_drop hd))
      hdrop (bounded_readChunk radix power [] _), hfirst, ← chunkValue_take_drop]

/-- A digit is read as its value. -/
theorem readDigit_eq_ok_iff {radix d : Nat} {c : Char} :
    readDigit radix c = .ok d ↔ Text.digitValue radix c = some d := by
  unfold readDigit
  cases Text.digitValue radix c with
  | none => exact ⟨nofun, nofun⟩
  | some value => rw [Except.ok.injEq, Option.some.injEq]

/-- A text of digits is read as their values. -/
theorem mapM_readDigit_eq_ok_iff {radix : Nat} {cs : List Char} {ds : List Nat} :
    cs.mapM (readDigit radix) = .ok ds ↔ Text.Spells radix cs ds := by
  rw [mapM_eq_ok_iff, Text.Spells]
  simp only [readDigit_eq_ok_iff]

/-- A text is a sign and what follows it: a minus sign in front is the sign of a negative number,
and without it all of the text follows. -/
inductive SplitSign : List Char → Bool → List Char → Prop
  | minus (cs : List Char) : SplitSign ('-' :: cs) true cs
  | bare {cs : List Char} (h : cs.head? ≠ some '-') : SplitSign cs false cs

/-- Every text is a sign and what follows it. -/
theorem exists_splitSign (chars : List Char) : ∃ negative cs, SplitSign chars negative cs := by
  by_cases h : chars.head? = some '-'
  · obtain ⟨cs, rfl⟩ := List.head?_eq_some_iff.mp h
    exact ⟨true, cs, .minus cs⟩
  · exact ⟨false, chars, .bare h⟩

/-- What follows a sign stands behind it. -/
theorem SplitSign.eq_append {chars cs : List Char} {negative : Bool}
    (h : SplitSign chars negative cs) : chars = (if negative then ['-'] else []) ++ cs := by
  cases h <;> rfl

/-- Digits follow the sign that stands before them, as the first of them is none. -/
theorem splitSign_append {radix : Nat} {cs : List Char} {ds : List Nat}
    (h : Text.Spells radix cs ds) (negative : Bool) :
    SplitSign ((if negative then ['-'] else []) ++ cs) negative cs := by
  cases negative with
  | true => exact .minus cs
  | false =>
    refine .bare fun hhead ↦ ?_
    obtain ⟨rest, rfl⟩ := List.head?_eq_some_iff.mp hhead
    exact h.not_minus_cons

/-- Behind its sign a text is read digit by digit, and refused when nothing is there. -/
theorem ofText_of_splitSign {s : String} {radix : Nat} (hradix : validRadix radix = true)
    {negative : Bool} {cs : List Char} (h : SplitSign s.toList negative cs) :
    ofText s radix =
      if cs = [] then .error (.invalidEncoding .emptyNumber)
      else (cs.mapM (readDigit radix)).map fun ds ↦ ofParts negative (ofDigits radix ds) := by
  rw [ofText, if_pos hradix]
  generalize s.toList = chars at h
  cases h with
  | minus => rfl
  | bare hhead =>
    split
    next negative chars hsign =>
    split at hsign
    · exact absurd rfl hhead
    · cases hsign
      rfl

/-- An integer is read from an optional minus sign and one or more digits, and from nothing else. -/
theorem ofText_eq_ok_iff {s : String} {radix : Nat} (hradix : validRadix radix = true)
    {a : LimbInt} :
    ofText s radix = .ok a ↔ ∃ negative cs ds,
      s.toList = (if negative then ['-'] else []) ++ cs ∧ ds ≠ [] ∧ Text.Spells radix cs ds ∧
        a = ofParts negative (ofDigits radix ds) := by
  constructor
  · intro h
    obtain ⟨negative, cs, hsplit⟩ := exists_splitSign s.toList
    rw [ofText_of_splitSign hradix hsplit] at h
    split at h
    · cases h
    · next hne =>
      obtain ⟨ds, hread, rfl⟩ := map_eq_ok_iff.mp h
      have hspells := mapM_readDigit_eq_ok_iff.mp hread
      refine ⟨negative, cs, ds, hsplit.eq_append, ?_, hspells, rfl⟩
      rintro rfl
      exact hne (List.eq_nil_of_length_eq_zero hspells.length_eq)
  · rintro ⟨negative, cs, ds, hs, hne, hspells, rfl⟩
    have hsplit : SplitSign s.toList negative cs := hs ▸ splitSign_append hspells negative
    have hcs : cs ≠ [] := by
      rintro rfl
      exact hne (List.eq_nil_of_length_eq_zero hspells.length_eq.symm)
    rw [ofText_of_splitSign hradix hsplit, if_neg hcs, mapM_readDigit_eq_ok_iff.mpr hspells]
    rfl

end LimbInt

end Secp
