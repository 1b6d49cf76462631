import Secp.Proofs.Key.Public

/-!
# Texts that are read as public keys

The hexadecimal digits of an encoded point are read as the key that its bytes are read as. As the
digits pass through an integer, the key is also read from those digits with a zero or a minus sign
in front, and with a minus sign in place of the first digit, which is zero in every encoded point.
No other text is read.
-/

namespace Secp.PublicKey

/-- A key is read from some bytes, and not from none. -/
theorem ne_nil_of_ofBytes {b : Bytes} {key : PublicKey} (h : ofBytes b = .ok key) : b ≠ [] := by
  rintro rfl
  cases h

/-- A key is read from the texts that spell or misspell the bytes that it is read from. -/
theorem ofHex_eq_ok_iff {s : String} {key : PublicKey} :
    ofHex s = .ok key ↔
      ∃ b : Bytes, (b.SpelledBy s.toList ∨ b.MisspelledBy s.toList) ∧ ofBytes b = .ok key := by
  simp only [ofHex, bind_eq_ok_iff]
  constructor
  · rintro ⟨n, hread, b, hpadded, hkey⟩
    have hfrom := Bytes.exists_padded_ofHex_iff.mp ⟨n, hread, hpadded⟩
    exact ⟨b, (Bytes.readFrom_iff (ne_nil_of_ofBytes hkey)).mp hfrom, hkey⟩
  · rintro ⟨b, htext, hkey⟩
    have hfrom := (Bytes.readFrom_iff (ne_nil_of_ofBytes hkey)).mpr htext
    obtain ⟨n, hread, hpadded⟩ := Bytes.exists_padded_ofHex_iff.mpr hfrom
    exact ⟨n, hread, b, hpadded, hkey⟩

/-- A key is read from the text exactly when the text spells bytes from which the key is read. -/
def ReadAsSpelled (s : String) : Prop :=
  ∀ key, ofHex s = .ok key ↔ ∃ b : Bytes, b.SpelledBy s.toList ∧ ofBytes b = .ok key

/-- A text is read as what it spells unless it misspells the bytes of a key. -/
theorem readAsSpelled_iff {s : String} :
    ReadAsSpelled s ↔ ∀ (b : Bytes) (key : PublicKey), ofBytes b = .ok key →
      ¬ b.MisspelledBy s.toList := by
  constructor
  · intro h b key hkey hmisspelled
    have hread := ofHex_eq_ok_iff.mpr ⟨b, .inr hmisspelled, hkey⟩
    obtain ⟨b', hspelled, -⟩ := (h key).mp hread
    exact hmisspelled.not_spelledBy hspelled
  · intro h key
    rw [ofHex_eq_ok_iff]
    refine exists_congr fun b ↦ and_congr_left fun hkey ↦ ?_
    exact or_iff_left (h b key hkey)

/-- Bytes are spelled by the texts of an even number of digits. A key is read from the texts that
spell or misspell the bytes that it is read from, and from no others. So a text is read as what it
spells unless it misspells the bytes of a key, and always when it has an even number of characters
and does not start with a minus sign. -/
theorem hex_texts_read (s : String) :
    ((∃! b : Bytes, b.SpelledBy s.toList) ↔
      s.toList.length % 2 = 0 ∧ ∀ c ∈ s.toList, (Text.digitValue 16 c).isSome = true) ∧
    (∀ key, ofHex s = .ok key ↔
      ∃ b : Bytes, (b.SpelledBy s.toList ∨ b.MisspelledBy s.toList) ∧ ofBytes b = .ok key) ∧
    (ReadAsSpelled s ↔ ∀ (b : Bytes) (key : PublicKey), ofBytes b = .ok key →
      ¬ b.MisspelledBy s.toList) ∧
    (s.toList.length % 2 = 0 → s.toList.head? ≠ some '-' → ReadAsSpelled s) := by
  refine ⟨Bytes.existsUnique_spelledBy_iff, fun key ↦ ofHex_eq_ok_iff, readAsSpelled_iff,
    fun heven hminus ↦ ?_⟩
  refine readAsSpelled_iff.mpr fun b key _ hmisspelled ↦ ?_
  rcases hmisspelled.odd_or_minus with hodd | hhead
  · omega
  · exact hminus hhead

/-- The compressed encoding of the generator in digits. -/
def generatorText : String := "0279be667ef9dcbbac55a06295ce870b07029bfcdb2dce28d959f2815b16f81798"

/-- The generator's text is read as what it spells, and as a key. -/
theorem hex_texts_read_generator :
    generatorText.toList.length % 2 = 0 ∧ generatorText.toList.head? ≠ some '-' ∧
      ReadAsSpelled generatorText ∧ (ofHex generatorText).isOk = true := by
  have heven : generatorText.toList.length % 2 = 0 := by decide
  have hminus : generatorText.toList.head? ≠ some '-' := by decide
  exact ⟨heven, hminus, (hex_texts_read generatorText).2.2.2 heven hminus, by decide +kernel⟩

/-- With a minus sign in front the generator's text is read too, although it spells no bytes. -/
theorem minus_dropped_generator :
    ∃ key, ofHex ("-" ++ generatorText) = .ok key ∧
      ¬ ∃ b : Bytes, b.SpelledBy ("-" ++ generatorText).toList ∧ ofBytes b = .ok key := by
  have hread : (ofHex ("-" ++ generatorText)).isOk = true := by decide +kernel
  obtain ⟨key, hkey⟩ := exists_eq_ok hread
  refine ⟨key, hkey, ?_⟩
  rintro ⟨b, hspelled, -⟩
  exact hspelled.head?_ne_minus (by decide)

end Secp.PublicKey
