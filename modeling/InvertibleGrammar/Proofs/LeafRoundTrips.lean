import InvertibleGrammar.Proofs.FailedReading
import InvertibleGrammar.Proofs.Numerals
import InvertibleGrammar.Proofs.RoundTrip

/-!
# Round trips of leaves

Before which rests the value of a leaf is read back. Words are read back before any
rest, a run where it cannot go on into the rest, and a numeral where no further digit
follows. The end of the input is read back at the end only.
-/

namespace InvertibleGrammar

variable {σ : Type} [Symbol σ]

/-- ASCII texts are what their spelling stands for. -/
theorem Run.map_toChar_spelling {text : String} (h : ∀ c ∈ text.toList, c.toNat < 128) :
    (spelling text : Run σ).map Symbol.toChar = text.toList :=
  Numeral.map_toChar_flatMap_spell h

variable [DecidableEq σ]

/-- A word does not start an input that starts with another character. -/
theorem Run.strip?_spelling_eq_none {word other : String} {rest : Run σ}
    (hword : ∀ c ∈ word.toList, c.toNat < 128) (hother : ∀ c ∈ other.toList, c.toNat < 128)
    (hne : ∀ after, other.toList ++ rest.map Symbol.toChar ≠ word.toList ++ after) :
    strip? (spelling word) (spelling other ++ rest) = none := by
  cases hstrip : strip? (spelling word) (spelling other ++ rest) with
  | none => rfl
  | some after =>
      have hchars := congrArg (List.map Symbol.toChar) (strip?_eq_some_iff.mp hstrip)
      rw [List.map_append, List.map_append, map_toChar_spelling hword,
        map_toChar_spelling hother] at hchars
      exact absurd hchars (hne _)

/-- Of some words, one is read back if none of those before it starts the input. -/
theorem Reader.words_yields {α : Type} {expected : String} (earlier : List (Run σ × α))
    {later : List (Run σ × α)} {word rest : Run σ} {value : α}
    (h : ∀ entry ∈ earlier, entry.1.strip? (word ++ rest) = none) :
    (words expected (earlier ++ (word, value) :: later) (word ++ rest)).Yields value rest := by
  have hword : word.strip? (word ++ rest) = some rest := Run.strip?_eq_some_iff.mpr rfl
  have hearlier : earlier.findSome? (fun entry => (entry.1.strip? (word ++ rest)).map
      fun rest => (entry.2, rest)) = none := by
    rw [List.findSome?_eq_none_iff]
    intro entry hentry
    rw [h entry hentry, Option.map_none]
  have hfound : (earlier ++ (word, value) :: later).findSome?
      (fun entry => (entry.1.strip? (word ++ rest)).map fun rest => (entry.2, rest)) =
      some (value, rest) := by
    rw [List.findSome?_append, hearlier, Option.none_or,
      List.findSome?_cons_of_isSome (by simp [hword])]
    simp [hword]
  simp only [words]
  split
  · rename_i found left hmet
    obtain ⟨rfl, rfl⟩ := Prod.mk.inj (Option.some.inj (hmet.symm.trans hfound))
    exact ⟨rfl, rfl⟩
  · rename_i hmet
    cases hmet.symm.trans hfound

namespace Grammar

theorem literal_roundTrips (text rest : Run σ) : (literal text).RoundTrips () rest :=
  (literal text).roundTrips_of_prints (Writer.literal_prints text)
    (Reader.words_yields [] (by simp))

theorem boolean_roundTrips (value : Bool) (rest : Run σ) :
    (boolean : Grammar σ Bool).RoundTrips value rest := by
  have hprints : (boolean : Grammar σ Bool).write.Prints value _ := Writer.boolean_prints value
  apply boolean.roundTrips_of_prints hprints
  cases value with
  | true => exact Reader.words_yields [] (by simp)
  | false =>
      have htrue : (Run.spelling "true").strip? (Run.spelling "false" ++ rest) = none :=
        Run.strip?_spelling_eq_none (by simp) (by simp) fun after h => by
          cases (List.cons.inj h).1
      apply Reader.words_yields [(Run.spelling "true", true)]
      intro entry hentry
      rw [List.mem_singleton.mp hentry]
      exact htrue

/-- A zero stands alone, so a digit may follow that one. -/
theorem integer_roundTrips {t : IntType} {value : t.Value} {rest : Run σ}
    (h : value.val = 0 ∨ ∀ s ∈ rest.head?, (Symbol.toChar s).isDigit = false) :
    (integer t).RoundTrips value rest := by
  have hprints : (integer t : Grammar σ t.Value).write.Prints value _ :=
    Writer.integer_prints value
  apply (integer t).roundTrips_of_prints hprints
  simp only [read, Reader.integer, Numeral.read_spelling value h]
  exact ⟨rfl, rfl⟩

/-- A run of the greatest length is never continued. -/
theorem run_roundTrips {accepts : σ → Bool} {length : CountRange} {value rest : Run σ}
    (haccepts : value.all accepts = true) (hlength : length.contains value.length = true)
    (hlongest : value.length = length.max.toNat ∨ ∀ s ∈ rest.head?, accepts s = false) :
    (run accepts length).RoundTrips value rest := by
  apply (run accepts length).roundTrips_of_prints (Writer.run_prints haccepts hlength)
  obtain ⟨hmin, hmax⟩ := CountRange.contains_iff.mp hlength
  have hmatched : Run.Matched accepts length.max.toNat value rest :=
    ⟨List.all_eq_true.mp haccepts, hmax, hlongest⟩
  simp only [read, Reader.run, hmatched.splitWhile_eq]
  rw [if_neg (Nat.not_lt.mpr hmin)]
  exact ⟨rfl, rfl⟩

omit [DecidableEq σ] in
theorem integer_output {t : IntType} (n : t.Value) :
    (integer t : Grammar σ t.Value).output n = Numeral.spelling n.val :=
  output_eq_of_prints (Writer.integer_prints n)

theorem empty_roundTrips (rest : Run σ) : (empty : Grammar σ Unit).RoundTrips () rest :=
  ⟨rfl, Reader.empty_yields_iff.mpr rfl⟩

theorem endOfInput_roundTrips : (endOfInput : Grammar σ Unit).RoundTrips () [] :=
  ⟨rfl, Reader.endOfInput_yields_iff.mpr ⟨rfl, rfl⟩⟩

end Grammar

end InvertibleGrammar
