import InvertibleGrammar.Proofs.CanonicalNumerals
import InvertibleGrammar.Proofs.SeparatedLists

/-!
# Lists of numbers

Numbers with a fixed separator between them are decoded again just if the separator shows
where a number ends, that is, if it is there and does not start with a digit. A minus sign
is no digit, so it separates negative numbers as well. Whatever the separator is, some list
is read from every input, and the input is written again from the list and the rest.
-/

namespace InvertibleGrammar

variable {σ : Type} [Symbol σ]

/-- The run starts with a symbol, and that symbol is no digit. -/
def Run.EndsNumbers (run : Run σ) : Prop :=
  run.Ends fun s => (Symbol.toChar s).isDigit

/-- A numeral takes a symbol at least, since nothing cannot be read as a number. -/
theorem Numeral.spelling_ne_nil {t : IntType} (n : t.Value) : (spelling n.val : Run σ) ≠ [] := by
  intro hnil
  have hread : read t (spelling n.val ++ [] : Run σ) = .ok (n, []) :=
    read_spelling n (Or.inr (by simp))
  rw [hnil] at hread
  cases hread

/-- The numeral of one is a single digit. -/
theorem Numeral.exists_spelling_one (σ : Type) [Symbol σ] :
    ∃ digit : σ, (spelling 1 : Run σ) = [digit] ∧ (Symbol.toChar digit).isDigit = true := by
  have hchars : (spelling 1 : Run σ).map Symbol.toChar = ['1'] := map_toChar_spell_toDigits σ 1
  obtain ⟨digit, hspelling, hdigit⟩ := List.map_eq_singleton_iff.mp hchars
  exact ⟨digit, hspelling, by rw [hdigit]; rfl⟩

namespace Grammar

variable [DecidableEq σ] {t : IntType} {separator : Run σ}

omit [DecidableEq σ] in
/-- Numbers are written with the separator between their numerals. -/
theorem integers_accepted {values : List t.Value} (hcount : values.length < UInt64.size) :
    ((separated (integer t) (literal separator)).write values []).result = .ok () := by
  have hterminator : Part.Accepted (⟨empty, ()⟩ : Part σ) := rfl
  refine (repetition_accepted_iff_of_prints hcount hterminator fun n _ _ => ?_).mpr fun _ _ => rfl
  rw [integer_output]
  exact Numeral.spelling_ne_nil n

/-- A separator that ends numbers lets each of them be read back. -/
theorem integers_readForms (hseparator : separator.EndsNumbers) (values : List t.Value) :
    Reader.ReadsForms (integer t).read separator (integer t).output id values := by
  intro n _ rest hrest
  exact (integer_roundTrips (Or.inr (hseparator.head?_not_accepted hrest))).2

/-- Of two ones with a separator between them, the first shows what ends a number. -/
theorem endsNumbers_of_decodeExact {one : t.Value} (hone : one.val = 1)
    (h : ((separated (integer t) (literal separator)).decodeExact
      ((separated (integer t) (literal separator)).output [one, one])).result = .ok [one, one]) :
    separator.EndsNumbers := by
  have hcount : [one, one].length < UInt64.size := by
    change 2 < UInt64.size
    decide
  have hnothing : (empty : Grammar σ Unit).output () = [] := rfl
  have hform : (separated (integer t) (literal separator)).output [one, one] =
      Run.spelling (toString one.val) ++ (separator ++ Numeral.spelling one.val) := by
    rw [separated, repetition_output (integers_accepted hcount), hnothing, List.map_cons,
      List.map_cons, List.map_nil, List.intercalate_cons_cons, List.intercalate_singleton,
      integer_output, List.append_nil, ← Numeral.spelling_eq, List.append_assoc]
  obtain ⟨middle, hfirst⟩ := Reader.exists_of_repetition_yields_cons (decodeExact_ok_iff.mp h)
  obtain ⟨hinput, hend⟩ := Numeral.read_eq_ok_iff.mp (Reader.integer_yields_iff.mp hfirst)
  rw [hform, List.append_cancel_left_eq] at hinput
  rw [← hinput] at hend
  have hnodigit := hend.resolve_left (by omega)
  have hnonempty : separator ≠ [] := by
    rintro rfl
    obtain ⟨digit, hdigit, hisDigit⟩ := Numeral.exists_spelling_one σ
    rw [hone, hdigit] at hnodigit
    exact Bool.false_ne_true ((hnodigit digit rfl).symm.trans hisDigit)
  exact (Run.ends_append_iff hnonempty _).mp
    ⟨List.append_ne_nil_of_left_ne_nil hnonempty _, hnodigit⟩

/-- Numbers with a separator are decoded again, whichever they are, just if the separator
ends numbers. Whether it does or not, some numbers are decoded from every input, and what
they are encoded as is the input up to the rest. -/
theorem decodeExact_encode_integers_iff_endsNumbers (t : IntType) (separator : Run σ) :
    ((∀ values : List t.Value, values.length < UInt64.size → ∃ text,
        ((separated (integer t) (literal separator)).encode values).result = .ok text ∧
        ((separated (integer t) (literal separator)).decodeExact text).result = .ok values) ↔
      separator.EndsNumbers) ∧
    ∀ input, ∃ values text rest,
      ((separated (integer t) (literal separator)).decode input).result = .ok (values, rest) ∧
      ((separated (integer t) (literal separator)).encode values).result = .ok text ∧
      input = text ++ rest := by
  refine ⟨⟨?_, ?_⟩, ?_⟩
  · intro h
    have hbounds := t.lo_le_zero_and_one_le_hi
    let one : t.Value := ⟨1, by omega, hbounds.2⟩
    have hcount : [one, one].length < UInt64.size := by
      change 2 < UInt64.size
      decide
    obtain ⟨text, htext, hdecoded⟩ := h [one, one] hcount
    obtain ⟨_, rfl⟩ := encode_ok_iff.mp htext
    exact endsNumbers_of_decodeExact rfl hdecoded
  · intro hseparator values hcount
    have haccepted :
        ((separated (integer t) (literal separator)).write values []).result = .ok () :=
      integers_accepted hcount
    refine ⟨_, encode_ok_iff.mpr ⟨haccepted, rfl⟩, ?_⟩
    have hdecoded := decodeExact_repetition hcount haccepted
      (integers_readForms hseparator values) (empty_roundTrips []) rfl
    rwa [List.map_id] at hdecoded
  · intro input
    have helement : Reproduces (integer t : Grammar σ t.Value).read (integer t).write :=
      reproduces_integer t
    have hliteral : Reproduces (literal separator).read (literal separator).write :=
      reproduces_literal separator
    obtain ⟨values, text, rest, hinput, hread, hprints⟩ :=
      separated_reads helement hliteral input
    exact ⟨values, text, rest, decode_ok_iff.mpr hread,
      encode_ok_iff.mpr (hprints []), hinput⟩

/-- A minus sign between negative numbers ends the first and is not taken for its sign. -/
theorem decodeExact_encode_integers_iff_endsNumbers_minus :
    Run.EndsNumbers ['-'] ∧
    let byte : IntType := ⟨true, .bits8⟩
    let values : List byte.Value := [⟨-1, by decide⟩, ⟨-2, by decide⟩]
    values.length < UInt64.size ∧
    ((separated (integer byte) (literal ['-'])).encode values).result = .ok "-1--2".toList ∧
    ((separated (integer byte) (literal ['-'])).decodeExact "-1--2".toList).result =
      .ok values := by
  have hseparator : Run.EndsNumbers ['-'] := ⟨List.cons_ne_nil _ _, by rintro _ ⟨⟩; rfl⟩
  refine ⟨hseparator, ?_⟩
  intro byte values
  have hcount : values.length < UInt64.size := by decide
  obtain ⟨text, hencoded, hdecoded⟩ :=
    (decodeExact_encode_integers_iff_endsNumbers byte ['-']).1.mpr hseparator values hcount
  obtain ⟨haccepted, hform⟩ := encode_ok_iff.mp hencoded
  have htext : text = "-1--2".toList := by
    rw [← hform, separated, repetition_output haccepted,
      funext integer_output]
    decide
  rw [← htext]
  exact ⟨hcount, hencoded, hdecoded⟩

end Grammar

end InvertibleGrammar
