import InvertibleGrammar.Proofs.CanonicalNumerals

/-!
# Whether more input could help

A fixed run, a boolean and a number are refused for one of two causes. The input ended if
it is the beginning of something that could be read. Something unexpected stands there if
nothing that comes behind the input could make up for it. Words show this by comparing
leading parts. For a number it rests on a fact about decimal forms: what a form starts
with is itself the form of a number, no further from zero, as soon as there is a digit.
So an input that holds no number at its front gets none by being continued, unless it
ended before the first digit.
-/

namespace InvertibleGrammar

variable {σ α : Type} [Symbol σ]

/-! ## What a failure tells -/

namespace Reader

/-- The reader succeeds on the input with something behind it. -/
def Completable (reader : Reader σ α) (input : Run σ) : Prop :=
  ∃ more value rest, (reader (input ++ more)).Yields value rest

/-- Where the reader fails, the cause is the end of the input if more input could help,
and something unexpected in the whole of the input if none could. -/
def Diagnoses (reader : Reader σ α) (expected : String) : Prop :=
  ∀ input cause, (reader input).result = .error cause →
    (cause = .endOfInput expected ∨ cause = .unexpected expected input.units) ∧
    (cause = .endOfInput expected ↔ reader.Completable input) ∧
    (cause = .unexpected expected input.units ↔ ∀ more, (reader (input ++ more)).Fails)

omit [Symbol σ] in
theorem not_completable_iff {reader : Reader σ α} {input : Run σ} :
    ¬ reader.Completable input ↔ ∀ more, (reader (input ++ more)).Fails := by
  constructor
  · intro h more
    by_cases hfails : (reader (input ++ more)).Fails
    · exact hfails
    · exact absurd ⟨more, Reading.exists_yields_of_not_fails hfails⟩ h
  · rintro h ⟨more, value, rest, hyields⟩
    exact hyields.not_fails (h more)

/-- The two causes exclude each other, so it is enough to know one side of each. -/
theorem diagnoses_of_cases {reader : Reader σ α} {expected : String}
    (h : ∀ input cause, (reader input).result = .error cause →
      cause = .endOfInput expected ∧ reader.Completable input ∨
        cause = .unexpected expected input.units ∧ ¬ reader.Completable input) :
    reader.Diagnoses expected := by
  intro input cause hcause
  rcases h input cause hcause with ⟨rfl, hcompletable⟩ | ⟨rfl, hlost⟩
  · refine ⟨Or.inl rfl, iff_of_true rfl hcompletable, iff_of_false (by simp) ?_⟩
    exact fun hfails => not_completable_iff.mpr hfails hcompletable
  · exact ⟨Or.inr rfl, iff_of_false (by simp) hlost, iff_of_true rfl (not_completable_iff.mp hlost)⟩

/-! ## Words -/

/-- A run that does not start an input starts a longer one only if it goes on behind it. -/
theorem units_lt_of_prefix_append {word input more : Run σ} (h : word <+: input ++ more)
    (hnot : ¬ word <+: input) : input.units < word.units ∧ input <+: word := by
  rcases List.prefix_or_prefix_of_prefix h (List.prefix_append input more) with hword | hinput
  · exact absurd hword hnot
  · obtain ⟨behind, rfl⟩ := hinput
    have hbehind : Run.units behind ≠ 0 := by
      intro hzero
      rw [Run.units_eq_zero_iff.mp hzero, List.append_nil] at hnot
      exact hnot List.prefix_rfl
    rw [Run.units_append]
    exact ⟨by omega, List.prefix_append input behind⟩

theorem words_diagnoses [DecidableEq σ] (expected : String) (meanings : List (Run σ × α)) :
    (words expected meanings).Diagnoses expected := by
  apply diagnoses_of_cases
  intro input cause hcause
  have hmissing : missing expected (meanings.map Prod.fst) input = cause :=
    (words_breaks ⟨hcause, rfl⟩).1
  have hunread := words_fails_iff.mp ⟨cause, hcause⟩
  have hbegun : ((meanings.map Prod.fst).any fun word =>
      input.units < word.units && input.leads word) = true ↔
      ∃ entry ∈ meanings, input.units < entry.1.units ∧ input <+: entry.1 := by
    simp [Run.leads]
  rw [missing] at hmissing
  split at hmissing
  · rename_i hany
    obtain ⟨entry, hentry, _, more, hmore⟩ := hbegun.mp hany
    refine Or.inl ⟨hmissing.symm, more, Reading.exists_yields_of_not_fails fun hfails => ?_⟩
    rw [hmore] at hfails
    exact words_fails_iff.mp hfails entry hentry List.prefix_rfl
  · rename_i hany
    refine Or.inr ⟨hmissing.symm, not_completable_iff.mpr fun more => ?_⟩
    apply words_fails_iff.mpr
    intro entry hentry hprefix
    exact hany (hbegun.mpr
      ⟨entry, hentry, units_lt_of_prefix_append hprefix (hunread entry hentry)⟩)

end Reader

/-! ## Leading parts of numerals -/

/-- Symbols that a spelled ASCII text starts with spell what the text starts with. -/
theorem Run.exists_of_prefix_spell {chars : List Char} {run : Run σ}
    (hascii : ∀ c ∈ chars, c.toNat < 128) (h : run <+: chars.flatMap Symbol.spell) :
    ∃ lead, lead <+: chars ∧ run = lead.flatMap Symbol.spell := by
  have hchars : (chars.flatMap Symbol.spell : Run σ).map Symbol.toChar = chars :=
    Numeral.map_toChar_flatMap_spell hascii
  have hlead : run.map Symbol.toChar <+: chars := hchars ▸ h.map Symbol.toChar
  refine ⟨_, hlead, (Numeral.flatMap_spell_toChar ?_).symm⟩
  intro symbol hsymbol
  exact hascii _ (hlead.subset (List.mem_map_of_mem hsymbol))

namespace Numeral

/-- The digits that a natural number starts with are those of a number no greater. -/
theorem exists_toDigits_of_prefix {n : Nat} {lead : List Char} (h : lead <+: Nat.toDigits 10 n)
    (hne : lead ≠ []) : ∃ m ≤ n, (m = 0 → n = 0) ∧ lead = Nat.toDigits 10 m := by
  rcases Nat.eq_zero_or_pos n with rfl | hpos
  · rw [Nat.toDigits_zero, List.prefix_cons_iff] at h
    obtain ⟨others, rfl, hothers⟩ := h.resolve_left hne
    rw [List.prefix_nil.mp hothers]
    exact ⟨0, Nat.le_refl 0, id, (Nat.toDigits_zero 10).symm⟩
  · have hdigits : ∀ c ∈ lead, c.isDigit = true := fun c hc =>
      Nat.isDigit_of_mem_toDigits (by omega) (by omega) (h.subset hc)
    obtain ⟨behind, hbehind⟩ := h
    cases lead with
    | nil => exact absurd rfl hne
    | cons first others =>
        have hfirst : first ≠ '0' := by
          intro hzero
          apply head?_toDigits_ne (Nat.ne_of_gt hpos)
          rw [← hbehind, hzero]
          rfl
        have hform := toDigits_ofDigitChars hdigits hfirst
        refine ⟨_, ?_, ?_, hform.symm⟩
        · -- the digits behind only multiply what stands before them and add to it
          calc
            Nat.ofDigitChars 10 (first :: others) 0
                ≤ 10 ^ behind.length * Nat.ofDigitChars 10 (first :: others) 0 :=
              Nat.le_mul_of_pos_left _ (Nat.pow_pos (by omega))
            _ ≤ Nat.ofDigitChars 10 behind (Nat.ofDigitChars 10 (first :: others) 0) := by
              rw [Nat.ofDigitChars_eq_ofDigitChars_zero (l := behind)]
              exact Nat.le_add_right _ _
            _ = n := by
              rw [← Nat.ofDigitChars_append, hbehind, Nat.ofDigitChars_ten_toDigits]
        · intro hzero
          rw [hzero, Nat.toDigits_zero] at hform
          exact absurd (List.cons.inj hform).1.symm hfirst

/-- What a numeral starts with, beyond the sign, is the numeral of an integer between the
one it stands for and zero. -/
theorem exists_digits_of_prefix {n : Int} {lead : List Char} (h : lead <+: digits n)
    (hne : lead ≠ []) (hminus : n < 0 → lead ≠ ['-']) :
    ∃ m, min n 0 ≤ m ∧ m ≤ max n 0 ∧ lead = digits m := by
  by_cases hneg : n < 0
  · rw [digits, if_pos hneg, List.prefix_cons_iff] at h
    obtain ⟨others, rfl, hothers⟩ := h.resolve_left hne
    have hdigit : others ≠ [] := fun hnil => hminus hneg (by rw [hnil])
    obtain ⟨m, hle, hzero, rfl⟩ := exists_toDigits_of_prefix hothers hdigit
    refine ⟨-m, by omega, by omega, (digits_neg ?_).symm⟩
    intro hm
    have hn := hzero hm
    omega
  · rw [digits, if_neg hneg] at h
    obtain ⟨m, hle, _, rfl⟩ := exists_toDigits_of_prefix h hne
    exact ⟨m, by omega, by omega, (digits_ofNat m).symm⟩

theorem toNat_lt_of_mem_digits {n : Int} {c : Char} (h : c ∈ digits n) : c.toNat < 128 := by
  have hdigit (k : Nat) (hc : c ∈ Nat.toDigits 10 k) : c.toNat < 128 :=
    toNat_lt_of_isDigit (Nat.isDigit_of_mem_toDigits (by omega) (by omega) hc)
  by_cases hneg : n < 0
  · rw [digits, if_pos hneg] at h
    rcases List.mem_cons.mp h with rfl | hc
    · decide
    · exact hdigit _ hc
  · rw [digits, if_neg hneg] at h
    exact hdigit _ h

end Numeral

namespace Numeral

variable {t : IntType} {input : Run σ}

/-- What the numeral of a value starts with is the numeral of a value, once it has a digit. -/
theorem exists_spelling_of_prefix (n : t.Value) (h : input <+: spelling n.val)
    (hdigit : ¬ AwaitsDigit t input) : ∃ m : t.Value, input = spelling m.val := by
  obtain ⟨lead, hlead, rfl⟩ :=
    Run.exists_of_prefix_spell (fun c => toNat_lt_of_mem_digits) h
  have hne : lead ≠ [] := by
    rintro rfl
    exact hdigit (Or.inl rfl)
  have hminus : n.val < 0 → lead ≠ ['-'] := by
    rintro hneg rfl
    exact hdigit (Or.inr ⟨signed_of_neg n hneg, rfl⟩)
  obtain ⟨m, hlow, hhigh, rfl⟩ := exists_digits_of_prefix hlead hne hminus
  have hbounds := t.lo_le_zero_and_one_le_hi
  have hvalue := n.property
  exact ⟨⟨m, by omega, by omega⟩, rfl⟩

/-- An input with a numeral at its front when it is continued has one before that. -/
theorem exists_standsBefore_of_append {more rest : Run σ} {n : t.Value}
    (h : StandsBefore n.val rest (input ++ more)) (hdigit : ¬ AwaitsDigit t input) :
    ∃ (m : t.Value) (after : Run σ), StandsBefore m.val after input := by
  obtain ⟨hinput, hend⟩ := h
  rcases List.append_eq_append_iff.mp hinput with ⟨behind, hform, _⟩ | ⟨after, rfl, hrest⟩
  · -- the input ends within the numeral
    obtain ⟨m, rfl⟩ := exists_spelling_of_prefix n
      ⟨behind, by rw [spelling_eq, hform]⟩ hdigit
    exact ⟨m, [], by rw [List.append_nil, spelling_eq], Or.inr (by simp)⟩
  · -- the numeral ends within the input
    refine ⟨n, after, rfl, hend.imp_right fun hstop s hs => ?_⟩
    apply hstop s
    rw [hrest, List.head?_append, Option.mem_def.mp hs, Option.some_or]
    rfl

/-- Behind an input that ends before the first digit, a one makes it a numeral. -/
theorem exists_spelling_of_awaitsDigit (h : AwaitsDigit t input) :
    ∃ (n : t.Value) (more : Run σ), input ++ more = spelling n.val := by
  have hbounds := t.lo_le_zero_and_one_le_hi
  rcases h with rfl | ⟨hsigned, rfl⟩
  · exact ⟨⟨1, by omega, hbounds.2⟩, spelling 1, rfl⟩
  · have hlow := IntType.lo_le_neg_one hsigned
    refine ⟨⟨-1, hlow, by omega⟩, spelling 1, ?_⟩
    have hform : "-".toList ++ digits 1 = digits (-1) := by decide
    rw [Run.spelling, spelling, spelling, ← List.flatMap_append, hform]

end Numeral

/-! ## Grammars -/

namespace Grammar

variable [DecidableEq σ]

theorem integer_diagnoses (t : IntType) :
    (integer t : Grammar σ t.Value).read.Diagnoses "integer" := by
  apply Reader.diagnoses_of_cases
  intro input cause hcause
  obtain ⟨hread, _⟩ := Reader.integer_breaks_iff.mp ⟨hcause, rfl⟩
  have hnone : ¬ ∃ (n : t.Value) (after : Run σ), Numeral.StandsBefore n.val after input := by
    rintro ⟨n, after, hstands⟩
    cases hread.symm.trans (Numeral.read_eq_ok_iff.mpr hstands)
  rw [Numeral.eq_missing_of_read hread, Numeral.missing]
  split
  · rename_i hawaits
    obtain ⟨n, more, hform⟩ := Numeral.exists_spelling_of_awaitsDigit hawaits
    refine Or.inl ⟨rfl, more, n, [], Reader.integer_yields_iff.mpr ?_⟩
    rw [hform, ← List.append_nil (Numeral.spelling n.val)]
    exact Numeral.read_spelling n (Or.inr (by simp))
  · rename_i hdigit
    refine Or.inr ⟨rfl, ?_⟩
    rintro ⟨more, n, rest, hyields⟩
    have hstands := Numeral.read_eq_ok_iff.mp (Reader.integer_yields_iff.mp hyields)
    exact hnone (Numeral.exists_standsBefore_of_append hstands hdigit)

/-- Where a fixed run, a boolean or a number cannot be read, the cause tells whether more
input could help. It is the end of the input just if the grammar could be read from the
input with something behind it. It is something unexpected, at the start of the whole
input, just if the grammar cannot be read whatever comes behind. There is no third cause. -/
theorem failures_diagnosed :
    (∀ text : Run σ, (literal text).read.Diagnoses "literal") ∧
    (boolean : Grammar σ Bool).read.Diagnoses "boolean" ∧
    ∀ t : IntType, (integer t : Grammar σ t.Value).read.Diagnoses "integer" :=
  ⟨fun _ => Reader.words_diagnoses _ _, Reader.words_diagnoses _ _, integer_diagnoses⟩

/-- A sign on its own may still become a number. A number below the bounds of its type stays
below them with every further digit. -/
theorem failures_diagnosed_sign :
    (((integer ⟨true, .bits8⟩).read "-".toList).result = .error (.endOfInput "integer") ∧
      (integer ⟨true, .bits8⟩).read.Completable "-".toList) ∧
    ((integer ⟨true, .bits8⟩).read "-129".toList).result = .error (.unexpected "integer" 4) ∧
      ∀ more, ((integer ⟨true, .bits8⟩).read ("-129".toList ++ more)).Fails := by
  have hdiagnoses := (@failures_diagnosed Char _ _).2.2 ⟨true, .bits8⟩
  have hsign : ((integer ⟨true, .bits8⟩).read "-".toList).result =
      .error (.endOfInput "integer") := by with_unfolding_all rfl
  have hbelow : ((integer ⟨true, .bits8⟩).read "-129".toList).result =
      .error (.unexpected "integer" 4) := by with_unfolding_all rfl
  exact ⟨⟨hsign, (hdiagnoses _ _ hsign).2.1.mp rfl⟩,
    hbelow, (hdiagnoses _ _ hbelow).2.2.mp rfl⟩

end Grammar

end InvertibleGrammar
