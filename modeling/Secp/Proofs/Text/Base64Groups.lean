import Mathlib.Data.List.GetD
import Secp.Proofs.Text.Base64

/-!
# What is written in base 64 is read back

Three bytes are a number of 24 bits, and their digits are the figures of this number in base 64. So
what is put together of these figures is the number again. In a last group of one or two bytes the
figures that are left out are zero, which is what reading takes for them. So the text of bytes is
read as these bytes, with its filling and without it.
-/

namespace Secp.Base64

/-- A word that is shifted up without loss is multiplied by a power of two. -/
theorem toNat_shiftLeft {x r : UInt32} (bits : Nat) (hr : r.toNat = bits) (hbits : bits < 32)
    (hx : x.toNat * 2 ^ bits < 2 ^ 32) : (x <<< r).toNat = x.toNat * 2 ^ bits := by
  rw [UInt32.toNat_shiftLeft, hr, Nat.mod_eq_of_lt hbits, Nat.shiftLeft_eq, Nat.mod_eq_of_lt hx]

/-- A word that is shifted down is divided by a power of two. -/
theorem toNat_shiftRight {x r : UInt32} (bits : Nat) (hr : r.toNat = bits) (hbits : bits < 32) :
    (x >>> r).toNat = x.toNat / 2 ^ bits := by
  rw [UInt32.toNat_shiftRight, hr, Nat.mod_eq_of_lt hbits, Nat.shiftRight_eq_div_pow]

/-- Bits below a multiple of a power of two add to it. -/
theorem toNat_or_of_dvd {x y : UInt32} (bits : Nat) (hx : 2 ^ bits ∣ x.toNat)
    (hy : y.toNat < 2 ^ bits) : (x ||| y).toNat = x.toNat + y.toNat := by
  obtain ⟨high, hhigh⟩ := hx
  rw [UInt32.toNat_or, hhigh, Nat.two_pow_add_eq_or_of_lt hy]

/-- The word of three bytes. -/
def word (b c d : UInt8) : UInt32 := b.toUInt32 <<< 16 ||| c.toUInt32 <<< 8 ||| d.toUInt32

/-- The word of three bytes is their number. -/
theorem toNat_word (b c d : UInt8) :
    (word b c d).toNat = b.toNat * 2 ^ 16 + c.toNat * 2 ^ 8 + d.toNat := by
  have hb : b.toUInt32.toNat < 256 := b.toNat_lt
  have hc : c.toUInt32.toNat < 256 := c.toNat_lt
  have hd : d.toUInt32.toNat < 256 := d.toNat_lt
  have hfirst := toNat_shiftLeft (x := b.toUInt32) (r := 16) 16 rfl (by decide) (by omega)
  have hsecond := toNat_shiftLeft (x := c.toUInt32) (r := 8) 8 rfl (by decide) (by omega)
  have hfront := toNat_or_of_dvd (x := b.toUInt32 <<< 16) (y := c.toUInt32 <<< 8) 16
    (by omega) (by omega)
  rw [word, toNat_or_of_dvd 8 (by omega) (by omega), hfront, hfirst, hsecond]
  rfl

/-- The bytes of the word of three bytes. -/
theorem bytes_word (b c d : UInt8) :
    [(word b c d >>> 16).toUInt8, (word b c d >>> 8).toUInt8, (word b c d).toUInt8] =
      [b, c, d] := by
  have hb : b.toNat < 256 := b.toNat_lt
  have hc : c.toNat < 256 := c.toNat_lt
  have hd : d.toNat < 256 := d.toNat_lt
  have hword := toNat_word b c d
  have hfirst : (word b c d >>> 16).toUInt8 = b := by
    apply UInt8.toNat_inj.mp
    rw [UInt32.toNat_toUInt8, toNat_shiftRight 16 rfl (by decide), hword]
    omega
  have hsecond : (word b c d >>> 8).toUInt8 = c := by
    apply UInt8.toNat_inj.mp
    rw [UInt32.toNat_toUInt8, toNat_shiftRight 8 rfl (by decide), hword]
    omega
  have hthird : (word b c d).toUInt8 = d := by
    apply UInt8.toNat_inj.mp
    rw [UInt32.toNat_toUInt8, hword]
    omega
  rw [hfirst, hsecond, hthird]

/-- The four six-bit figures of a 24-bit word. -/
def figures (t : UInt32) : List UInt32 :=
  [t >>> 18 &&& 0x3f, t >>> 12 &&& 0x3f, t >>> 6 &&& 0x3f, t &&& 0x3f]

/-- Six bits of a word are a figure of its number. -/
theorem toNat_figure (t : UInt32) {i : Nat} (hi : i < 4) :
    ((figures t).getD i 0).toNat = t.toNat / 2 ^ (18 - 6 * i) % 64 := by
  have hmask (x : UInt32) : (x &&& 0x3f).toNat = x.toNat % 64 := by
    rw [UInt32.toNat_and]
    exact Nat.and_two_pow_sub_one_eq_mod x.toNat 6
  obtain rfl | rfl | rfl | rfl : i = 0 ∨ i = 1 ∨ i = 2 ∨ i = 3 := by omega
  · exact (hmask _).trans (by rw [toNat_shiftRight 18 rfl (by decide)])
  · exact (hmask _).trans (by rw [toNat_shiftRight 12 rfl (by decide)])
  · exact (hmask _).trans (by rw [toNat_shiftRight 6 rfl (by decide)])
  · exact (hmask t).trans (by rw [Nat.pow_zero, Nat.div_one])

/-- The word that is put together of four figures. -/
def joined (v₀ v₁ v₂ v₃ : UInt32) : UInt32 := v₀ <<< 18 ||| v₁ <<< 12 ||| v₂ <<< 6 ||| v₃

/-- The word that is put together of four figures is their number. -/
theorem toNat_joined {v₀ v₁ v₂ v₃ : UInt32} (h₀ : v₀.toNat < 64) (h₁ : v₁.toNat < 64)
    (h₂ : v₂.toNat < 64) (h₃ : v₃.toNat < 64) : (joined v₀ v₁ v₂ v₃).toNat =
      v₀.toNat * 2 ^ 18 + v₁.toNat * 2 ^ 12 + v₂.toNat * 2 ^ 6 + v₃.toNat := by
  have hv₀ := toNat_shiftLeft (x := v₀) (r := 18) 18 rfl (by decide) (by omega)
  have hv₁ := toNat_shiftLeft (x := v₁) (r := 12) 12 rfl (by decide) (by omega)
  have hv₂ := toNat_shiftLeft (x := v₂) (r := 6) 6 rfl (by decide) (by omega)
  have htwo := toNat_or_of_dvd (x := v₀ <<< 18) (y := v₁ <<< 12) 18 (by omega) (by omega)
  have hthree := toNat_or_of_dvd (x := v₀ <<< 18 ||| v₁ <<< 12) (y := v₂ <<< 6) 12 (by omega)
    (by omega)
  rw [joined, toNat_or_of_dvd 6 (by omega) h₃, hthree, htwo, hv₀, hv₁, hv₂]

/-- A 24-bit word is put together of its figures. -/
theorem joined_figures {t : UInt32} (ht : t.toNat < 2 ^ 24) :
    joined ((figures t).getD 0 0) ((figures t).getD 1 0) ((figures t).getD 2 0)
      ((figures t).getD 3 0) = t := by
  have h₀ := toNat_figure t (i := 0) (by decide)
  have h₁ := toNat_figure t (i := 1) (by decide)
  have h₂ := toNat_figure t (i := 2) (by decide)
  have h₃ := toNat_figure t (i := 3) (by decide)
  apply UInt32.toNat_inj.mp
  rw [toNat_joined (by omega) (by omega) (by omega) (by omega), h₀, h₁, h₂, h₃]
  omega

/-- The figures of a word behind those that its bytes need are zero, when all the bits that are set
are in these bytes. -/
theorem figure_eq_zero {t : UInt32} {count : Nat} (hlow : 2 ^ (24 - 8 * count) ∣ t.toNat) {i : Nat}
    (hi : count < i) : (figures t).getD i 0 = 0 := by
  by_cases hlast : i < 4
  · apply UInt32.toNat_inj.mp
    rw [toNat_figure t hlast]
    apply Nat.mod_eq_zero_of_dvd
    apply Nat.dvd_div_of_mul_dvd
    apply Nat.dvd_trans _ hlow
    rw [← Nat.pow_add 2 _ 6]
    apply Nat.pow_dvd_pow
    omega
  · exact List.getD_eq_default _ _ (Nat.le_of_not_lt hlast)

/-- The figures that the bytes of a word need give these bytes, when all the bits that are set are
in them. -/
theorem groupBytes_figures {t : UInt32} {count : Nat} (ht : t.toNat < 2 ^ 24) (hcount : count ≤ 3)
    (hlow : 2 ^ (24 - 8 * count) ∣ t.toNat) :
    groupBytes ((figures t).take (count + 1)) =
      [(t >>> 16).toUInt8, (t >>> 8).toUInt8, t.toUInt8].take count := by
  have hlength : ((figures t).take (count + 1)).length = count + 1 := by
    rw [List.length_take]
    exact Nat.min_eq_left (Nat.succ_le_succ hcount)
  -- reading takes the figures that are left out for zero, as they are
  have hfigure (i : Nat) : ((figures t).take (count + 1)).getD i 0 = (figures t).getD i 0 := by
    by_cases hi : i < count + 1
    · simp [List.getD_eq_getElem?_getD, hi]
    · rw [figure_eq_zero hlow (by omega), List.getD_eq_default _ _ (by omega)]
  have hjoined := joined_figures ht
  rw [joined] at hjoined
  simp only [groupBytes, hfigure, hlength, hjoined, Nat.add_sub_cancel]

/-- The bytes of a group are given back by the figures that they need. -/
theorem groupBytes_word {b c d : UInt8} {count : Nat} (hcount : count ≤ 3)
    (hlow : 2 ^ (24 - 8 * count) ∣ (word b c d).toNat) :
    groupBytes ((figures (word b c d)).take (count + 1)) = [b, c, d].take count := by
  have hword := toNat_word b c d
  have hb : b.toNat < 256 := b.toNat_lt
  have hc : c.toNat < 256 := c.toNat_lt
  have hd : d.toNat < 256 := d.toNat_lt
  rw [groupBytes_figures (by omega) hcount hlow, bytes_word]

/-- The digit of a figure is in the alphabet, and has the figure for its value. -/
theorem value_digit {v : UInt32} (hv : v.toNat < 64) :
    digit v ∈ alphabet ∧ value (digit v) = v := by
  have hall : ∀ n < 64, digit (UInt32.ofNat n) ∈ alphabet ∧
      value (digit (UInt32.ofNat n)) = UInt32.ofNat n := by decide +kernel
  have hdigit := hall v.toNat hv
  rwa [UInt32.ofNat_toNat] at hdigit

/-- The figures of a word have six bits. -/
theorem lt_of_mem_figures {t v : UInt32} (hv : v ∈ figures t) : v.toNat < 64 := by
  obtain ⟨i, hi, rfl⟩ := List.mem_iff_getElem.mp hv
  rw [← List.getD_eq_getElem _ 0 hi, toNat_figure t hi]
  exact Nat.mod_lt _ (by decide)

/-- The characters of a group are the digits of its figures. -/
theorem group_eq (t : UInt32) : group t = (figures t).map digit := rfl

/-- The characters of a group are in the alphabet. -/
theorem mem_alphabet_of_mem_group {t : UInt32} {c : Char} (hc : c ∈ group t) : c ∈ alphabet := by
  rw [group_eq] at hc
  obtain ⟨v, hv, rfl⟩ := List.mem_map.mp hc
  exact (value_digit (lt_of_mem_figures hv)).1

/-- The characters of a group have its figures for their values. -/
theorem map_value_group (t : UInt32) : (group t).map value = figures t := by
  rw [group_eq, List.map_map]
  conv_rhs => rw [← List.map_id (figures t)]
  apply List.map_congr_left
  intro v hv
  exact (value_digit (lt_of_mem_figures hv)).2

/-- Digits that write bytes: they are read as these, and none is alone in its group. -/
structure Writes (digits : List Char) (data : Bytes) : Prop where
  mem_alphabet : ∀ c ∈ digits, c ∈ alphabet
  length_ne : digits.length % 4 ≠ 1
  decode_eq : decodeValues (digits.map value) = data

/-- The digits of a last group write its bytes. -/
theorem writes_take_group {b c d : UInt8} {count : Nat} (hpos : 1 ≤ count) (hcount : count ≤ 2)
    (hlow : 2 ^ (24 - 8 * count) ∣ (word b c d).toNat) :
    Writes ((group (word b c d)).take (count + 1)) ([b, c, d].take count) := by
  have hgroup : (group (word b c d)).length = 4 := rfl
  have hlength : ((group (word b c d)).take (count + 1)).length = count + 1 := by
    rw [List.length_take]
    omega
  refine ⟨fun x hx ↦ mem_alphabet_of_mem_group (List.mem_of_mem_take hx), by omega, ?_⟩
  rw [← groupBytes_word (by omega) hlow, ← map_value_group, ← List.map_take, decodeValues.eq_2]
  intro v₀ v₁ v₂ v₃ rest hfour
  have hmore := congrArg List.length hfour
  simp only [List.length_map, hlength, List.length_cons] at hmore
  omega

/-- The digits of a whole group write its bytes in front of others. -/
theorem Writes.group_append {digits : List Char} {data : Bytes} (h : Writes digits data)
    (b c d : UInt8) : Writes (group (word b c d) ++ digits) (b :: c :: d :: data) := by
  have hgroup : (group (word b c d)).length = 4 := rfl
  constructor
  · intro x hx
    rcases List.mem_append.mp hx with hfirst | hrest
    · exact mem_alphabet_of_mem_group hfirst
    · exact h.mem_alphabet x hrest
  · have hrest := h.length_ne
    rw [List.length_append]
    omega
  · have hbytes := groupBytes_word (b := b) (c := c) (d := d) (Nat.le_refl 3) (one_dvd _)
    rw [List.map_append, map_value_group]
    change groupBytes (figures (word b c d)) ++ decodeValues (digits.map value) = _
    rw [h.decode_eq]
    exact congrArg (· ++ data) hbytes

/-- Bytes are written with digits and the filling that completes the last group. -/
theorem exists_writes (data : Bytes) : ∃ digits, Writes digits data ∧
    encodeBytes data = digits ++ List.replicate ((4 - digits.length % 4) % 4) '=' := by
  induction data using encodeBytes.induct with
  | case1 => exact ⟨[], ⟨nofun, by decide, rfl⟩, rfl⟩
  | case2 b =>
    have hword : b.toUInt32 <<< 16 = word b 0 0 := by simp [word]
    have hlow : 2 ^ (24 - 8 * 1) ∣ (word b 0 0).toNat := by
      rw [toNat_word, UInt8.toNat_zero]
      omega
    refine ⟨_, writes_take_group (by decide) (by decide) hlow, ?_⟩
    rw [encodeBytes, hword]
    rfl
  | case3 b c =>
    have hword : b.toUInt32 <<< 16 ||| c.toUInt32 <<< 8 = word b c 0 := by simp [word]
    have hlow : 2 ^ (24 - 8 * 2) ∣ (word b c 0).toNat := by
      rw [toNat_word, UInt8.toNat_zero]
      omega
    refine ⟨_, writes_take_group (by decide) (by decide) hlow, ?_⟩
    rw [encodeBytes, hword]
    rfl
  | case4 b c d rest ih =>
    obtain ⟨digits, hdigits, hrest⟩ := ih
    refine ⟨_, hdigits.group_append b c d, ?_⟩
    have hlength : (group (word b c d) ++ digits).length % 4 = digits.length % 4 := by
      rw [List.length_append]
      exact Nat.add_mod_left 4 digits.length
    rw [encodeBytes, hrest, hlength, List.append_assoc]
    rfl

/-- The text of bytes is digits that write them and the filling that completes the last group. -/
theorem exists_writes_encode (data : Bytes) : ∃ digits, Writes digits data ∧
    (encode data).toList = digits ++ List.replicate ((4 - digits.length % 4) % 4) '=' := by
  rw [encode, String.toList_ofList]
  exact exists_writes data

/-- Digits that write bytes are read as these, whatever filling of at most two is behind them. -/
theorem Writes.decode_eq_ok {digits : List Char} {data : Bytes} (h : Writes digits data)
    {s : String} {fill : Nat} (hs : s.toList = digits ++ List.replicate fill '=')
    (hfill : fill ≤ 2) : decode s = .ok data :=
  decode_eq_ok_iff.mpr ⟨digits, fill, ⟨h.mem_alphabet, hs⟩, h.length_ne, hfill, h.decode_eq⟩

/-- The text of bytes is read as these bytes. -/
theorem decode_encode (data : Bytes) : decode (encode data) = .ok data := by
  obtain ⟨digits, hdigits, htext⟩ := exists_writes_encode data
  have hne := hdigits.length_ne
  exact hdigits.decode_eq_ok htext (by omega)

/-- Without the filling there are the digits. -/
theorem Writes.filter_eq {digits : List Char} {data : Bytes} (h : Writes digits data) (fill : Nat) :
    (digits ++ List.replicate fill '=').filter (· ≠ '=') = digits := by
  have hdigits : digits.filter (· ≠ '=') = digits := by
    rw [List.filter_eq_self]
    intro c hc
    rw [decide_eq_true_eq]
    rintro rfl
    exact absurd (h.mem_alphabet '=' hc) (by decide +kernel)
  have hfilling : (List.replicate fill '=').filter (· ≠ '=') = [] := by simp
  rw [List.filter_append, hdigits, hfilling, List.append_nil]

/-- The text of bytes without its filling is read as these bytes. -/
theorem decode_filter_encode (data : Bytes) :
    decode (String.ofList ((encode data).toList.filter (· ≠ '='))) = .ok data := by
  obtain ⟨digits, hdigits, htext⟩ := exists_writes_encode data
  have hbody : (String.ofList digits).toList = digits ++ List.replicate 0 '=' := by
    rw [String.toList_ofList, List.replicate_zero, List.append_nil]
  rw [htext, hdigits.filter_eq]
  exact hdigits.decode_eq_ok hbody (Nat.zero_le 2)

end Secp.Base64
