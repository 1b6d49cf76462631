import Mathlib.Data.List.Forall2
import Secp.Proofs.LimbInt.Armour
import Secp.Proofs.Text.Digits
import Secp.Share.KeyShares

/-!
# Backup lines are read back

A line is a point, a full stop and the threshold. The threshold is a numeral and the coordinates are
base-58 texts, none of which has a full stop in it. So the last full stop of a line is in front of
the threshold, and the first one is between the coordinates. Lines are read exactly when each of
them is and all have one threshold, in any number and in any order.
-/

namespace Secp

namespace Text

/-- A row is cut at a separator that is not in its front. -/
theorem takeWhile_append_cons {sep : Char} {front : List Char} (h : sep ∉ front)
    (back : List Char) : (front ++ sep :: back).takeWhile (· ≠ sep) = front := by
  have hfront : ∀ c ∈ front, decide (c ≠ sep) = true := by
    intro c hc
    rw [decide_eq_true_eq]
    rintro rfl
    exact h hc
  rw [List.takeWhile_append_of_pos hfront, List.takeWhile_cons_of_neg (by simp), List.append_nil]

/-- Behind its front a row goes on with the separator. -/
theorem dropWhile_append_cons {sep : Char} {front : List Char} (h : sep ∉ front)
    (back : List Char) : (front ++ sep :: back).dropWhile (· ≠ sep) = sep :: back := by
  have hsplit := List.takeWhile_append_dropWhile (p := (· ≠ sep)) (l := front ++ sep :: back)
  rw [takeWhile_append_cons h] at hsplit
  exact List.append_cancel_left hsplit

/-- A figure is read as its value. -/
theorem digitValue_of_isDigit {c : Char} (h : c.isDigit = true) :
    digitValue 10 c = some (c.toNat - 48) := by
  obtain ⟨hlow, hhigh⟩ : 48 ≤ c.toNat ∧ c.toNat ≤ 57 := Char.isDigit_iff_toNat.mp h
  rw [digitValue_eq_some_iff]
  omega

/-- Figures are read as their values. -/
theorem mapM_digitValue {cs : List Char} (h : ∀ c ∈ cs, c.isDigit = true) :
    cs.mapM (digitValue 10) = some (cs.map fun c ↦ c.toNat - 48) := by
  induction cs with
  | nil => rfl
  | cons c cs ih =>
    obtain ⟨hc, hcs⟩ := List.forall_mem_cons.mp h
    rw [List.mapM_cons, digitValue_of_isDigit hc, ih hcs]
    rfl

end Text

namespace SharePoint

/-- The coordinates of a point in the field. -/
def Reduced (p : SharePoint) : Prop :=
  (0 ≤ p.x ∧ p.x < sparsePrime) ∧ 0 ≤ p.y ∧ p.y < sparsePrime

instance (p : SharePoint) : Decidable p.Reduced :=
  inferInstanceAs (Decidable ((_ ∧ _) ∧ _ ∧ _))

/-- There is no full stop in a base-58 text. -/
theorem stop_notMem_toBase58 (a : LimbInt) : '.' ∉ a.toBase58.toList := by
  have hdecode : Base58.decode a.toBase58 = .ok a.toBytesBE := Base58.decode_eq_ok_iff.mpr rfl
  intro hmem
  exact absurd (Base58.exists_decode_iff.mp ⟨_, hdecode⟩ '.' hmem) (by decide +kernel)

/-- The coordinates are read back without their signs. -/
theorem parse_render (p : SharePoint) : parse p.render = .ok (reduced |p.x| |p.y|) := by
  have hrender : p.render.toList = (LimbInt.ofInt p.x).toBase58.toList ++
      '.' :: (LimbInt.ofInt p.y).toBase58.toList := by
    simp [render]
  have hx := (LimbInt.denotes_ofInt p.x).ofBase58_toBase58
  have hy := (LimbInt.denotes_ofInt p.y).ofBase58_toBase58
  have hstop := stop_notMem_toBase58 (LimbInt.ofInt p.x)
  rw [parse, hrender, Text.takeWhile_append_cons hstop, Text.dropWhile_append_cons hstop]
  simp only [String.ofList_toList, hx, hy, ok_bind, (LimbInt.denotes_ofInt _).toInt_eq]

/-- A point of the field is read back. -/
theorem parse_render_of_reduced {p : SharePoint} (h : p.Reduced) : parse p.render = .ok p := by
  obtain ⟨⟨hx, hx'⟩, hy, hy'⟩ := h
  rw [parse_render, reduced, abs_of_nonneg hx, abs_of_nonneg hy, Int.emod_eq_of_lt hx hx',
    Int.emod_eq_of_lt hy hy']

end SharePoint

namespace KeyShares

/-- A threshold of at most 64 bits is read back from its numeral. -/
theorem readThreshold_numeral {t : Nat} (h : t < 2 ^ 64) :
    readThreshold (toString t).toList = some t := by
  have hnumeral : (toString t).toList = Nat.toDigits 10 t := Nat.toList_repr
  have hdigits : ∀ c ∈ Nat.toDigits 10 t, c.isDigit = true :=
    fun c hc ↦ Nat.isDigit_of_mem_toDigits (by decide) (by decide) hc
  have hplus : (Nat.toDigits 10 t).head? ≠ some '+' := by
    intro hhead
    exact absurd (hdigits '+' (List.mem_of_head? hhead)) (by decide)
  have hvalue : ((Nat.toDigits 10 t).map fun c ↦ c.toNat - 48).foldl
      (fun n d ↦ 10 * n + d) 0 = t := by
    rw [List.foldl_map]
    exact Nat.ofDigitChars_ten_toDigits
  rw [hnumeral, readThreshold, if_neg hplus, if_neg Nat.toDigits_ne_nil,
    Text.mapM_digitValue hdigits]
  simp only [Option.bind_some, hvalue]
  rw [if_pos h]

/-- There is no full stop in a numeral. -/
theorem stop_notMem_numeral (t : Nat) : '.' ∉ (toString t).toList := by
  have hnumeral : (toString t).toList = Nat.toDigits 10 t := Nat.toList_repr
  rw [hnumeral]
  intro hmem
  exact absurd (Nat.isDigit_of_mem_toDigits (by decide) (by decide) hmem) (by decide)

/-- A line is read as what is in front of its threshold, and the threshold. -/
theorem readLine_append (text : String) {t : Nat} (h : t < 2 ^ 64) :
    readLine (text ++ "." ++ toString t) = .ok (text, t) := by
  have hline : (text ++ "." ++ toString t).toList.reverse =
      (toString t).toList.reverse ++ '.' :: text.toList.reverse := by
    simp
  have hstop : '.' ∉ (toString t).toList.reverse := by
    rw [List.mem_reverse]
    exact stop_notMem_numeral t
  rw [readLine, hline, Text.dropWhile_append_cons hstop, Text.takeWhile_append_cons hstop]
  simp only [List.reverse_reverse, readThreshold_numeral h, String.ofList_toList]

/-- Whether a line is read as a point and a threshold. -/
def Spells (threshold : Nat) (line : String) (p : SharePoint) : Prop :=
  ∃ text, readLine line = .ok (text, threshold) ∧ SharePoint.parse text = .ok p

/-- Lines are read behind points that are known exactly when each of them is, with their
threshold. -/
theorem ofLinesFrom_eq_ok_iff {shares result : KeyShares} {lines : List String} :
    ofLinesFrom shares lines = .ok result ↔ ∃ points,
      List.Forall₂ (Spells shares.threshold) lines points ∧
        result = ⟨shares.points ++ points, shares.threshold⟩ := by
  induction lines generalizing shares with
  | nil =>
    rw [ofLinesFrom, Except.ok.injEq]
    constructor
    · rintro rfl
      exact ⟨[], .nil, by rw [List.append_nil]⟩
    · rintro ⟨points, hpoints, rfl⟩
      rw [List.forall₂_nil_left_iff.mp hpoints, List.append_nil]
  | cons line lines ih =>
    rw [ofLinesFrom, bind_eq_ok_iff]
    constructor
    · rintro ⟨⟨text, t⟩, hread, h⟩
      dsimp only at h
      split at h
      · cases h
      · next ht =>
        obtain ⟨p, hp, h⟩ := bind_eq_ok_iff.mp h
        obtain ⟨points, hpoints, rfl⟩ := ih.mp h
        obtain rfl := not_not.mp ht
        exact ⟨p :: points, .cons ⟨text, hread, hp⟩ hpoints, by simp⟩
    · rintro ⟨points, hpoints, rfl⟩
      obtain ⟨p, rest, ⟨text, hread, hp⟩, hrest, rfl⟩ := List.forall₂_cons_left_iff.mp hpoints
      refine ⟨(text, shares.threshold), hread, ?_⟩
      dsimp only
      rw [if_neg (not_not.mpr rfl), hp, ok_bind, ih]
      exact ⟨rest, hrest, by simp⟩

/-- Lines are read exactly when there are any, each of them is read, and all have one threshold. -/
theorem ofLines_eq_ok_iff {lines : List String} {shares : KeyShares} :
    ofLines lines = .ok shares ↔
      lines ≠ [] ∧ List.Forall₂ (Spells shares.threshold) lines shares.points := by
  cases lines with
  | nil => exact ⟨nofun, fun ⟨hne, _⟩ ↦ absurd rfl hne⟩
  | cons line lines =>
    rw [ofLines, bind_eq_ok_iff]
    constructor
    · rintro ⟨⟨text, t⟩, -, h⟩
      obtain ⟨points, hpoints, rfl⟩ := ofLinesFrom_eq_ok_iff.mp h
      exact ⟨List.cons_ne_nil _ _, hpoints⟩
    · rintro ⟨-, h⟩
      obtain ⟨p, rest, ⟨text, hread, hp⟩, -, -⟩ := List.forall₂_cons_left_iff.mp h
      exact ⟨(text, shares.threshold), hread, ofLinesFrom_eq_ok_iff.mpr ⟨shares.points, h, rfl⟩⟩

/-- Lines that are all read are refused for their thresholds alone. -/
theorem ofLinesFrom_eq_error {shares : KeyShares} {lines : List String} {reason : Error}
    (hlines : ∀ line ∈ lines, ∃ t p, Spells t line p)
    (h : ofLinesFrom shares lines = .error reason) :
    reason = .invalidEncoding .mixedThresholds := by
  induction lines generalizing shares with
  | nil => cases h
  | cons line lines ih =>
    obtain ⟨⟨t, p, text, hread, hp⟩, hlines⟩ := List.forall_mem_cons.mp hlines
    rw [ofLinesFrom, hread, ok_bind] at h
    dsimp only at h
    split at h
    · exact (Except.error.inj h).symm
    · rw [hp, ok_bind] at h
      exact ih hlines h

/-- Lines that are all read are refused for their thresholds, if there are any. -/
theorem ofLines_eq_error {lines : List String} {reason : Error} (hne : lines ≠ [])
    (hlines : ∀ line ∈ lines, ∃ t p, Spells t line p) (h : ofLines lines = .error reason) :
    reason = .invalidEncoding .mixedThresholds := by
  cases lines with
  | nil => exact absurd rfl hne
  | cons line lines =>
    obtain ⟨t, p, text, hread, hp⟩ := hlines line List.mem_cons_self
    rw [ofLines, hread, ok_bind] at h
    exact ofLinesFrom_eq_error hlines h

/-- Shares that can be backed up: there are some, their points are those of the field, and the
threshold takes at most 64 bits. -/
structure Storable (shares : KeyShares) : Prop where
  ne_nil : shares.points ≠ []
  reduced : ∀ p ∈ shares.points, p.Reduced
  threshold_lt : shares.threshold < 2 ^ 64

/-- The line of a point is read as the point and the threshold. -/
theorem Storable.spells_line {shares : KeyShares} (h : Storable shares) {p : SharePoint}
    (hp : p ∈ shares.points) :
    Spells shares.threshold (p.render ++ "." ++ toString shares.threshold) p :=
  ⟨p.render, readLine_append p.render h.threshold_lt,
    SharePoint.parse_render_of_reduced (h.reduced p hp)⟩

/-- A line of a backup is read with its threshold. -/
theorem Storable.exists_spells {shares : KeyShares} (h : Storable shares) {line : String}
    (hline : line ∈ shares.toLines) : ∃ p, Spells shares.threshold line p := by
  obtain ⟨p, hp, rfl⟩ := List.mem_map.mp hline
  exact ⟨p, h.spells_line hp⟩

/-- Of a line there is one threshold. -/
theorem Spells.threshold_unique {line : String} {t t' : Nat} {p p' : SharePoint}
    (h : Spells t line p) (h' : Spells t' line p') : t = t' := by
  obtain ⟨text, hread, -⟩ := h
  obtain ⟨text', hread', -⟩ := h'
  exact congrArg Prod.snd (Except.ok.inj (hread.symm.trans hread'))

/-- Lines that are read together have one threshold. -/
theorem threshold_of_ofLines {lines : List String} {result : KeyShares}
    (h : ofLines lines = .ok result) {line : String} (hline : line ∈ lines) {t : Nat}
    {p : SharePoint} (hspells : Spells t line p) : t = result.threshold := by
  obtain ⟨-, hall⟩ := ofLines_eq_ok_iff.mp h
  obtain ⟨i, hi, rfl⟩ := List.mem_iff_getElem.mp hline
  have hread := hall.get hi (hall.length_eq ▸ hi)
  exact hspells.threshold_unique hread

/-- A backup is read back: the same points in the same order, and the same threshold. -/
theorem Storable.ofLines_toLines {shares : KeyShares} (h : Storable shares) :
    ofLines shares.toLines = .ok shares := by
  have hne : shares.toLines ≠ [] := mt List.map_eq_nil_iff.mp h.ne_nil
  refine ofLines_eq_ok_iff.mpr ⟨hne, ?_⟩
  rw [toLines, List.forall₂_map_left_iff, List.forall₂_same]
  exact fun p hp ↦ h.spells_line hp

/-- Lines among which there are some of two backups of different thresholds are not read. -/
theorem Storable.exists_ofLines_eq_error {shares other : KeyShares} (h : Storable shares)
    (hother : Storable other) (hne : other.threshold ≠ shares.threshold) {lines : List String}
    (hfirst : ∃ line ∈ lines, line ∈ shares.toLines)
    (hsecond : ∃ line ∈ lines, line ∈ other.toLines) : ∃ reason, ofLines lines = .error reason := by
  obtain ⟨line, hline, hmem⟩ := hfirst
  obtain ⟨line', hline', hmem'⟩ := hsecond
  obtain ⟨p, hp⟩ := h.exists_spells hmem
  obtain ⟨p', hp'⟩ := hother.exists_spells hmem'
  cases hread : ofLines lines with
  | error reason => exact ⟨reason, rfl⟩
  | ok result =>
    have ht : shares.threshold = result.threshold := threshold_of_ofLines hread hline hp
    have ht' : other.threshold = result.threshold := threshold_of_ofLines hread hline' hp'
    exact absurd (ht'.trans ht.symm) hne

/-- A backup of at least one point of the field is read back: the same points in the same order, and
the same threshold. Lines are refused if some of them are from it and some from a backup of another
threshold, whatever their number and their order and whatever the other lines are. If there are no
other lines, they are refused because their thresholds differ. -/
theorem backups_read_back {shares : KeyShares} (h : Storable shares) :
    ofLines shares.toLines = .ok shares ∧
      ∀ other : KeyShares, Storable other → other.threshold ≠ shares.threshold →
        ∀ lines : List String, (∃ line ∈ lines, line ∈ shares.toLines) →
          (∃ line ∈ lines, line ∈ other.toLines) →
          (∃ reason, ofLines lines = .error reason) ∧
            ((∀ line ∈ lines, line ∈ shares.toLines ∨ line ∈ other.toLines) →
              ofLines lines = .error (.invalidEncoding .mixedThresholds)) := by
  refine ⟨h.ofLines_toLines, fun other hother hne lines hfirst hsecond ↦ ?_⟩
  obtain ⟨reason, hreason⟩ := h.exists_ofLines_eq_error hother hne hfirst hsecond
  refine ⟨⟨reason, hreason⟩, fun hall ↦ ?_⟩
  have hlines : lines ≠ [] := by
    obtain ⟨line, hline, -⟩ := hfirst
    exact List.ne_nil_of_mem hline
  have hspells : ∀ line ∈ lines, ∃ t p, Spells t line p := by
    intro line hline
    rcases hall line hline with hmem | hmem
    · exact ⟨_, h.exists_spells hmem⟩
    · exact ⟨_, hother.exists_spells hmem⟩
  rw [hreason, ofLines_eq_error hlines hspells hreason]

/-- Two points with a zero for a coordinate, whose text is one figure, are read back. With a line of
the threshold three in front of it, a line of theirs is refused. -/
theorem backups_read_back_zero_coordinates :
    (⟨[⟨0, 58⟩, ⟨58, 0⟩], 2⟩ : KeyShares).toLines = ["1.21.2", "21.1.2"] ∧
      ofLines ["1.21.2", "21.1.2"] = .ok ⟨[⟨0, 58⟩, ⟨58, 0⟩], 2⟩ ∧
      ofLines ["2.2.3", "21.1.2"] = .error (.invalidEncoding .mixedThresholds) := by
  have hlines : (⟨[⟨0, 58⟩, ⟨58, 0⟩], 2⟩ : KeyShares).toLines = ["1.21.2", "21.1.2"] := by
    decide +kernel
  have hother : (⟨[⟨1, 1⟩], 3⟩ : KeyShares).toLines = ["2.2.3"] := by decide +kernel
  have hstorable : Storable ⟨[⟨0, 58⟩, ⟨58, 0⟩], 2⟩ := ⟨by decide, by decide, by decide⟩
  have hstorable' : Storable ⟨[⟨1, 1⟩], 3⟩ := ⟨by decide, by decide, by decide⟩
  obtain ⟨hread, hmixed⟩ := backups_read_back hstorable
  obtain ⟨-, hrefused⟩ := hmixed _ hstorable' (by decide) ["2.2.3", "21.1.2"]
    (by simp [hlines]) (by simp [hother])
  rw [hlines] at hread
  exact ⟨hlines, hread, hrefused (by simp [hlines, hother])⟩

end KeyShares

end Secp
