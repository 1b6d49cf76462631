import Secp.Proofs.LimbInt.Octets
import Secp.Proofs.LimbInt.Radix
import Secp.Proofs.Limbs.Quotient

/-!
# Numerals of integers

Dividing by the power of a chunk again and again gives the digits of a magnitude in that power. Each
of them is written in full width but the top one, so together they are the digits in the radix,
without leading zeros. What is written is read again as the same integer. A text that is not read is
refused for the lack of digits, or for the first character that is none.
-/

namespace Secp.LimbInt

variable {radix : Nat} {s : String} {cs : List Char}

/-- The chunks of a magnitude are the digits of its number in the power of a chunk, when there are
enough divisions for its bits. -/
theorem chunksFrom_eq {power : UInt32} (hpower : 2 ≤ power.toNat) {count : Nat} {limbs : Limbs}
    (h : limbs.Canonical) (hcount : limbs.toNat < 2 ^ count) :
    chunksFrom power count limbs = power.toNat.digits limbs.toNat := by
  induction count generalizing limbs with
  | zero =>
    rw [Nat.pow_zero, Nat.lt_one_iff] at hcount
    rw [hcount, Nat.digits_zero, chunksFrom]
  | succ count ih =>
    rw [chunksFrom]
    split
    · next hnil => rw [hnil, Limbs.toNat_nil, Nat.digits_zero]
    · next hne =>
      have hpos : 0 < limbs.toNat := Nat.pos_of_ne_zero (h.2.toNat_ne_zero hne)
      have hnonzero : power ≠ 0 := by
        rintro rfl
        exact absurd hpower (by decide)
      obtain ⟨hquotient, hremainder⟩ := Limbs.toNat_divWord h.1 hnonzero
      have hcanonical := (Limbs.divWord_spec h.1 hnonzero).2.1
      -- every chunk takes at least one bit off
      have hless : (limbs.divWord power).1.toNat < 2 ^ count := by
        rw [hquotient]
        refine Nat.div_lt_of_lt_mul (hcount.trans_le ?_)
        rw [Nat.pow_succ']
        exact Nat.mul_le_mul_right _ hpower
      dsimp only
      rw [ih hcanonical hless, Nat.digits_def' hpower hpos, hquotient, hremainder]

/-- A magnitude is written with the digits of its number. -/
theorem toDigits_eq (hradix : validRadix radix = true) {limbs : Limbs} (h : limbs.Canonical) :
    toDigits radix limbs = (Positional.numeral radix limbs.toNat).map Text.digitChar := by
  have hchunk := chunkOf_chunk hradix
  have hbase : 1 < radix := (validRadix_iff.mp hradix).1
  unfold toDigits
  generalize chunk radix = sizes at hchunk
  obtain ⟨size, power⟩ := sizes
  have hsize : 1 ≤ size := hchunk.size_pos
  have hpower : power = radix ^ size := hchunk.power_eq
  have hword : (UInt32.ofNat power).toNat = radix ^ size := by
    rw [← hpower, UInt32.toNat_ofNat_of_lt' (hchunk.power_le.trans_lt (by decide))]
  have hleast : 2 ≤ radix ^ size := Nat.one_lt_pow (Nat.ne_of_gt hsize) hbase
  have hbits : limbs.toNat < 2 ^ limbs.bitLength := by
    rw [h.bitLength_eq]
    exact Number.lt_two_pow_bitLength _
  dsimp only
  rw [chunksFrom_eq (by rwa [hword]) h hbits, hword, Positional.numeral]
  split
  · next hnone =>
    rw [List.reverse_eq_nil_iff, Nat.digits_eq_nil_iff_eq_zero] at hnone
    rw [if_pos hnone]
    rfl
  · next top rest hsome =>
    have hne : limbs.toNat ≠ 0 := by
      intro hzero
      rw [hzero, Nat.digits_zero] at hsome
      cases hsome
    obtain ⟨top', rest', hdigits, hjoined⟩ := Text.exists_chunks_of_digits hbase hsize hne
    cases hsome.symm.trans hdigits
    rw [if_neg hne, hjoined, Text.digits_eq hbase]

/-- Limbs read from digits, under a sign, are the integer that the digits denote. -/
theorem ofParts_ofDigits (hradix : validRadix radix = true) {ds : List Nat}
    (hdigits : ∀ d ∈ ds, d < radix) (negative : Bool) :
    ofParts negative (ofDigits radix ds) =
      ofInt
        (if negative then -(Positional.value radix ds : Int) else Positional.value radix ds) := by
  have hread : Denotes (ofParts negative (ofDigits radix ds))
      (if negative then -(Positional.value radix ds : Int) else Positional.value radix ds) := by
    refine ⟨canonical_ofParts negative (bounded_ofDigits radix ds), ?_⟩
    rw [toInt_ofParts, toNat_ofDigits hradix hdigits, chunkValue_eq_value]
  exact hread.eq_ofInt

/-- A text is read as the number that the digits behind its sign denote. -/
theorem ofText_eq_ok_iff_value (hradix : validRadix radix = true) {a : LimbInt} :
    ofText s radix = .ok a ↔ ∃ negative cs ds, SplitSign s.toList negative cs ∧ ds ≠ [] ∧
      Text.Spells radix cs ds ∧ a = ofInt
        (if negative then -(Positional.value radix ds : Int) else Positional.value radix ds) := by
  rw [ofText_eq_ok_iff hradix]
  constructor
  · rintro ⟨negative, cs, ds, hs, hne, hspells, rfl⟩
    refine ⟨negative, cs, ds, ?_, hne, hspells, ofParts_ofDigits hradix hspells.lt negative⟩
    rw [hs]
    exact splitSign_append hspells negative
  · rintro ⟨negative, cs, ds, hsplit, hne, hspells, rfl⟩
    exact ⟨negative, cs, ds, hsplit.eq_append, hne, hspells,
      (ofParts_ofDigits hradix hspells.lt negative).symm⟩

/-- A character is refused as a digit when it is none, and the refusal names it. -/
theorem readDigit_eq_error_iff {c : Char} {reason : Error} :
    readDigit radix c = .error reason ↔
      Text.digitValue radix c = none ∧ reason = .invalidCharacter c radix := by
  unfold readDigit
  cases Text.digitValue radix c with
  | none => rw [Except.error.injEq, eq_comm, and_iff_right rfl]
  | some value => exact ⟨nofun, fun h ↦ nomatch h.1⟩

/-- A character is read as a digit when it is one. -/
theorem exists_readDigit_iff {c : Char} :
    (∃ d, readDigit radix c = .ok d) ↔ (Text.digitValue radix c).isSome = true := by
  simp only [readDigit_eq_ok_iff, Option.isSome_iff_exists]

/-- Why what follows a sign is refused: nothing does, or a character is the first that is no digit
of the radix. -/
inductive BadDigits (radix : Nat) : List Char → Error → Prop
  | nothing : BadDigits radix [] (.invalidEncoding .emptyNumber)
  | character {front back : List Char} {c : Char}
      (digits : ∀ x ∈ front, (Text.digitValue radix x).isSome = true)
      (bad : Text.digitValue radix c = none) :
      BadDigits radix (front ++ c :: back) (.invalidCharacter c radix)

/-- A row of characters is refused for the first that is no digit. -/
theorem mapM_readDigit_eq_error_iff (hne : cs ≠ []) {reason : Error} :
    cs.mapM (readDigit radix) = .error reason ↔ BadDigits radix cs reason := by
  rw [mapM_eq_error_iff]
  simp only [exists_readDigit_iff, readDigit_eq_error_iff]
  constructor
  · rintro ⟨front, c, back, rfl, hfront, hc, rfl⟩
    exact .character hfront hc
  · intro h
    cases h with
    | nothing => exact absurd rfl hne
    | character hfront hc => exact ⟨_, _, _, rfl, hfront, hc, rfl⟩

/-- A text is refused for what follows its sign. -/
theorem ofText_eq_error_iff (hradix : validRadix radix = true) {reason : Error} :
    ofText s radix = .error reason ↔
      ∃ negative cs, SplitSign s.toList negative cs ∧ BadDigits radix cs reason := by
  have hbehind {negative : Bool} {cs : List Char} (h : SplitSign s.toList negative cs) :
      ofText s radix = .error reason ↔ BadDigits radix cs reason := by
    rw [ofText_of_splitSign hradix h]
    split
    · next hnil =>
      constructor
      · rintro ⟨⟩
        exact hnil ▸ .nothing
      · intro hbad
        cases hbad with
        | nothing => rfl
        | character =>
          exact absurd hnil (List.append_ne_nil_of_right_ne_nil _ (List.cons_ne_nil _ _))
    · next hne => rw [map_eq_error_iff, mapM_readDigit_eq_error_iff hne]
  constructor
  · intro h
    obtain ⟨negative, cs, hsplit⟩ := exists_splitSign s.toList
    exact ⟨negative, cs, hsplit, (hbehind hsplit).mp h⟩
  · rintro ⟨negative, cs, hsplit, hbad⟩
    exact (hbehind hsplit).mpr hbad

/-- Digits as they are written: lowercase digits of the radix, a zero in front of none of them. -/
structure PlainDigits (radix : Nat) (cs : List Char) : Prop where
  digit : ∀ c ∈ cs, (Text.digitValue radix c).isSome = true
  lowercase : ∀ c ∈ cs, c.isUpper = false
  leading : cs = ['0'] ∨ ∃ c rest, cs = c :: rest ∧ c ≠ '0'

/-- Only zero is written with a zero in front. -/
theorem eq_zero_of_head?_numeral (hradix : validRadix radix = true) {n : Nat}
    (h : ((Positional.numeral radix n).map Text.digitChar).head? = some '0') : n = 0 := by
  obtain ⟨hleast, hmost⟩ := validRadix_iff.mp hradix
  obtain ⟨d, ds, hdigits, hzero⟩ := Positional.exists_numeral_eq_cons radix n
  have hd : d < radix := Positional.lt_of_mem_numeral hleast (hdigits ▸ List.mem_cons_self)
  rw [hdigits] at h
  have hvalue := Text.digitValue_digitChar hmost hd
  rw [show Text.digitChar d = '0' from Option.some.inj h] at hvalue
  obtain ⟨-, hfigure⟩ := Text.digitValue_eq_some_iff.mp hvalue
  have hcode : '0'.toNat = 48 := rfl
  exact (hzero (by omega)).1

/-- A number is written in plain digits. -/
theorem plainDigits_numeral (hradix : validRadix radix = true) (n : Nat) :
    PlainDigits radix ((Positional.numeral radix n).map Text.digitChar) := by
  obtain ⟨hleast, hmost⟩ := validRadix_iff.mp hradix
  have hlt {d : Nat} (hd : d ∈ Positional.numeral radix n) : d < radix :=
    Positional.lt_of_mem_numeral hleast hd
  refine ⟨List.forall_mem_map.mpr fun d hd ↦ ?_, List.forall_mem_map.mpr fun d hd ↦ ?_, ?_⟩
  · exact Option.isSome_of_eq_some (Text.digitValue_digitChar hmost (hlt hd))
  · exact Text.isUpper_digitChar ((hlt hd).trans_le hmost)
  · by_cases hn : n = 0
    · rw [hn]
      exact .inl rfl
    · have hfirst := mt (eq_zero_of_head?_numeral hradix) hn
      obtain ⟨d, ds, hdigits, -⟩ := Positional.exists_numeral_eq_cons radix n
      rw [hdigits] at hfirst ⊢
      exact .inr ⟨_, _, rfl, fun hchar ↦ hfirst (congrArg some hchar)⟩

/-- What is written of an integer is its sign and the digits of its magnitude. -/
theorem toList_render (hradix : validRadix radix = true) (x : Int) :
    ((ofInt x).render radix).toList = (if x < 0 then ['-'] else []) ++
      (Positional.numeral radix x.natAbs).map Text.digitChar := by
  have ha := denotes_ofInt x
  rw [render, String.toList_ofList, toDigits_eq hradix ha.canonical.1, ha.toNat_limbs,
    ha.negative_eq]
  simp only [decide_eq_true_eq]

/-- Zero is not written with a sign. -/
theorem render_ne_minus_zero (hradix : validRadix radix = true) (x : Int) :
    (ofInt x).render radix ≠ "-0" := by
  intro h
  have hchars := toList_render hradix x
  rw [h] at hchars
  change ['-', '0'] = _ at hchars
  split at hchars
  · next hneg =>
    have hdigits := (List.cons.inj hchars).2
    have hn := eq_zero_of_head?_numeral hradix (congrArg List.head? hdigits).symm
    omega
  · have hmem : '-' ∈ (Positional.numeral radix x.natAbs).map Text.digitChar := by
      rw [List.nil_append] at hchars
      rw [← hchars]
      exact List.mem_cons_self
    cases (plainDigits_numeral hradix x.natAbs).digit '-' hmem

/-- What is written of an integer is read as it. -/
theorem ofText_render (hradix : validRadix radix = true) (x : Int) :
    ofText ((ofInt x).render radix) radix = .ok (ofInt x) := by
  obtain ⟨hleast, hmost⟩ := validRadix_iff.mp hradix
  have hspells := Text.Spells.map_digitChar hmost
    fun d hd ↦ Positional.lt_of_mem_numeral (n := x.natAbs) hleast hd
  have hne : Positional.numeral radix x.natAbs ≠ [] := by
    obtain ⟨d, ds, hdigits, -⟩ := Positional.exists_numeral_eq_cons radix x.natAbs
    rw [hdigits]
    exact List.cons_ne_nil _ _
  have hvalue : (if decide (x < 0) then -(x.natAbs : Int) else x.natAbs) = x := by
    simp only [decide_eq_true_eq]
    split <;> omega
  rw [ofText_eq_ok_iff hradix]
  refine ⟨decide (x < 0), _, _, ?_, hne, hspells, ?_⟩
  · rw [toList_render hradix]
    simp only [decide_eq_true_eq]
  · rw [ofParts_ofDigits hradix hspells.lt, Positional.value_numeral, hvalue]

/-- Texts in a radix from 2 to 36 are exact. Its digits are the figures and the letters of either
case, as far as it goes. A text is read if it is an optional minus sign and one or more digits, as
the number that these denote. Another text is refused: for the lack of digits when nothing follows
the sign, and otherwise for the first character that is no digit. Every integer is written in
lowercase digits, without leading zeros and without a sign for zero, and what is written of it is
read as it. -/
theorem numerals_exact (hleast : 2 ≤ radix) (hmost : radix ≤ 36) :
    (∀ (c : Char) (d : Nat), Text.digitValue radix c = some d ↔ d < radix ∧
      (d < 10 ∧ c.toNat = '0'.toNat + d ∨
        10 ≤ d ∧ (c.toNat = 'a'.toNat + (d - 10) ∨ c.toNat = 'A'.toNat + (d - 10)))) ∧
    (∀ (s : String) (a : LimbInt), ofText s radix = .ok a ↔ ∃ negative cs ds,
      SplitSign s.toList negative cs ∧ ds ≠ [] ∧ Text.Spells radix cs ds ∧ a = ofInt
        (if negative then -(Positional.value radix ds : Int) else Positional.value radix ds)) ∧
    (∀ (s : String) (reason : Error), ofText s radix = .error reason ↔
      ∃ negative cs, SplitSign s.toList negative cs ∧ BadDigits radix cs reason) ∧
    ∀ x : Int, ∃ s, (ofInt x).toText radix = .ok s ∧
      (∃ cs, s.toList = (if x < 0 then ['-'] else []) ++ cs ∧ PlainDigits radix cs) ∧ s ≠ "-0" ∧
      ofText s radix = .ok (ofInt x) := by
  have hradix : validRadix radix = true := validRadix_iff.mpr ⟨hleast, hmost⟩
  refine ⟨fun c d ↦ ?_, fun s a ↦ ofText_eq_ok_iff_value hradix,
    fun s reason ↦ ofText_eq_error_iff hradix, fun x ↦ ?_⟩
  · have hcodes : '0'.toNat = 48 ∧ 'a'.toNat = 97 ∧ 'A'.toNat = 65 := by decide
    rw [Text.digitValue_eq_some_iff]
    omega
  · exact ⟨(ofInt x).render radix, if_pos hradix,
      ⟨_, toList_render hradix x, plainDigits_numeral hradix x.natAbs⟩,
      render_ne_minus_zero hradix x, ofText_render hradix x⟩

/-- In radix two a chunk is as long as a limb, and of this number all chunks but the first are
zeros. A second sign is no digit. -/
theorem numerals_exact_zero_chunks : 2 ≤ 2 ∧ 2 ≤ 36 ∧
    ofText "-10000000000000000000000000000000000000000000000000000" 2 = .ok (ofInt (-2 ^ 52)) ∧
    ofText "-1-0" 2 = .error (.invalidCharacter '-' 2) := by
  have hleast : 2 ≤ 2 := by decide
  have hmost : 2 ≤ 36 := by decide
  obtain ⟨-, -, hrefused, hwritten⟩ := numerals_exact hleast hmost
  refine ⟨hleast, hmost, ?_, (hrefused _ _).mpr ⟨true, ['1', '-', '0'], .minus _, ?_⟩⟩
  · obtain ⟨s, hs, -, -, hread⟩ := hwritten (-2 ^ 52)
    have hchars : (ofInt (-2 ^ 52)).toText 2 =
        .ok "-10000000000000000000000000000000000000000000000000000" := by decide +kernel
    cases hs.symm.trans hchars
    exact hread
  · have hdigits : ∀ c ∈ ['1'], (Text.digitValue 2 c).isSome = true :=
      List.forall_mem_singleton.mpr rfl
    exact .character hdigits rfl

end Secp.LimbInt
