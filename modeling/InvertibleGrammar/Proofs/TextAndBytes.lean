import InvertibleGrammar.Proofs.BytewiseWriting
import InvertibleGrammar.Proofs.SuccessfulWriting

/-!
# Text and bytes agree

A text and its bytes cannot be told apart by a grammar and its counterpart.
-/

namespace InvertibleGrammar

namespace Grammar

/-- A text and its bytes come to the same under a grammar and its counterpart. In reading,
both find related values or meet the same failure, with every nested failure and position,
and what the one leaves, also in failure, is what the other leaves in bytes. In writing,
related values are both accepted or both refused for the same failure, and the buffer of
the one, also in failure, is that of the other in bytes. -/
theorem text_bytes_agree {α β : Type} {R : α → β → Prop} {grammar : Grammar Char α}
    {grammar' : Grammar UInt8 β} (h : Counterpart R grammar grammar') :
    (∀ input : Run Char, input.Fits →
      (grammar.read input).Agrees R (grammar'.read (Utf8.encode input))) ∧
    ∀ a b, R a b → ∀ buffer : Run Char,
      grammar'.write b (Utf8.encode buffer) = (grammar.write a buffer).encoded :=
  ⟨h.read_agrees, h.write_agrees⟩

/-- Strings with a semicolon and an arrow between them. -/
def fields : Grammar Char (List String) :=
  separated (.convert (runOf (· != ';')) .string) (.text ";→")

/-- The same in bytes. -/
def byteFields : Grammar UInt8 (List String) :=
  separated (.convert (runOf (· != 59)) .utf8) (.text ";→")

/-- Only the semicolon is not accepted, in either mode. -/
theorem semicolon_follows : Utf8.Follows (· != ';') (· != 59) true where
  ascii c hc := by
    by_cases h : c = ';'
    · rw [h]
      rfl
    · have hbyte : UInt8.ofNat c.toNat ≠ 59 := by
        intro heq
        apply h
        rw [← Utf8.toChar_ofNat hc, heq]
        rfl
      rw [bne_iff_ne.mpr hbyte, bne_iff_ne.mpr h]
  char c hc := by
    have hne : c ≠ ';' := by
      rintro rfl
      exact absurd hc (by decide)
    simp [hne]
  byte b hb := by
    have hne : b ≠ 59 := by
      rintro rfl
      exact absurd hb (by decide)
    simp [hne]

theorem fields_counterpart : Counterpart (List.Forall₂ SameString) fields byteFields := by
  have hseparator : (text ";→" : Grammar UInt8 Unit) = .literal (Utf8.encode (Run.spelling ";→")) :=
    congrArg literal (Utf8.flatMap_spell _)
  rw [byteFields, hseparator]
  exact .repetition _ (.convert (.run semicolon_follows fun _ => rfl)
    Conversion.string_respects_utf8) (.literal _) .empty

/-- A field may hold anything but a semicolon. Where an arrow does not follow one, both
modes stop before it. -/
theorem text_bytes_agree_fields :
    Counterpart (List.Forall₂ SameString) fields byteFields ∧
    Run.Fits "größe;→é;x".toList ∧ List.Forall₂ SameString ["größe", "é"] ["größe", "é"] ∧
    (byteFields.read (Utf8.encode "größe;→é;x".toList)).Yields ["größe", "é"]
      (Utf8.encode ";x".toList) ∧
    (byteFields.write ["größe", "é"] (Utf8.encode "→".toList)).Leaves
      (Utf8.encode "→größe;→é".toList) := by
  have hfits : Run.Fits "größe;→é;x".toList := by decide
  have hvalues : List.Forall₂ SameString ["größe", "é"] ["größe", "é"] :=
    .cons ⟨rfl, by decide⟩ (.cons ⟨rfl, by decide⟩ .nil)
  have htext : (fields.read "größe;→é;x".toList).Yields ["größe", "é"] ";x".toList :=
    ⟨by with_unfolding_all rfl, by with_unfolding_all rfl⟩
  have hwritten : (fields.write ["größe", "é"] "→".toList).Leaves "→größe;→é".toList :=
    ⟨by with_unfolding_all rfl, by with_unfolding_all rfl⟩
  obtain ⟨hreads, hwrites⟩ := text_bytes_agree fields_counterpart
  refine ⟨fields_counterpart, hfits, hvalues, ?_, ?_⟩
  · obtain ⟨values, hsame, hbytes⟩ := (hreads _ hfits).yields htext
    have hequal : List.Forall₂ Eq ["größe", "é"] values := hsame.imp fun _ _ h => h.eq
    rw [List.forall₂_eq_eq_eq] at hequal
    rw [hequal]
    exact hbytes
  · rw [hwrites _ _ hvalues]
    exact ⟨hwritten.1, congrArg Utf8.encode hwritten.2⟩

end Grammar

end InvertibleGrammar
