import InvertibleGrammar.Grammar.Directions
import InvertibleGrammar.Proofs.FailedReading
import InvertibleGrammar.Proofs.Numerals

/-!
# Canonical numerals

An integer is read exactly where its decimal form stands and ends. A form ends where no
further digit follows it, and zero ends at once. So an input holds at most one number at
its front, whatever the type. Where it holds none, the reading stays at its start and the
cause tells an input that could still become a number from one that could not.
-/

namespace InvertibleGrammar

namespace Numeral

/-! ## The decimal form -/

/-- The digits of an integer are those it is shown with. -/
theorem digits_eq_toList (n : Int) : digits n = (toString n).toList := by
  cases n with
  | ofNat m =>
      calc
        digits (Int.ofNat m) = Nat.toDigits 10 m := digits_ofNat m
        _ = m.repr.toList := Nat.toList_repr.symm
  | negSucc m =>
      calc
        digits (Int.negSucc m) = '-' :: Nat.toDigits 10 (m + 1) := digits_neg (Nat.succ_ne_zero m)
        _ = ("-" ++ (m + 1).repr).toList := by
          rw [String.toList_append, Nat.toList_repr]
          rfl

variable {σ : Type} [Symbol σ]

/-- The numeral of an integer is the text it is shown as. -/
theorem spelling_eq (n : Int) : (spelling n : Run σ) = Run.spelling (toString n) := by
  rw [spelling, digits_eq_toList, Run.spelling]

/-- The input is the decimal form of `n` before `rest`, and the form ends there: no digit
follows, unless `n` is zero. -/
def StandsBefore (n : Int) (rest input : Run σ) : Prop :=
  input = Run.spelling (toString n) ++ rest ∧
    (n = 0 ∨ ∀ s ∈ rest.head?, (Symbol.toChar s).isDigit = false)

/-! ## Numerals that are read -/

omit [Symbol σ] in
theorem drop_length_takeWhile (accepts : σ → Bool) (input : Run σ) :
    input.drop (input.takeWhile accepts).length = input.dropWhile accepts := by
  calc
    input.drop (input.takeWhile accepts).length
        = (input.takeWhile accepts ++ input.dropWhile accepts).drop
            (input.takeWhile accepts).length := by
      rw [List.takeWhile_append_dropWhile]
    _ = input.dropWhile accepts := List.drop_left

/-- Digits are read up to the first symbol that is none, unless they are a zero. -/
theorem head?_drop_magnitude (body : Run σ) :
    value (magnitude body) = 0 ∨
      ∀ s ∈ (body.drop (magnitude body).length).head?, (Symbol.toChar s).isDigit = false := by
  cases body with
  | nil => exact Or.inl rfl
  | cons first others =>
      by_cases hzero : Symbol.toChar first = '0'
      · have hrun : magnitude (first :: others) = [first] := if_pos hzero
        left
        rw [hrun, value, List.map_singleton, hzero]
        rfl
      · have hrun : magnitude (first :: others) =
            (first :: others).takeWhile fun s => (Symbol.toChar s).isDigit := if_neg hzero
        right
        rw [hrun, drop_length_takeWhile]
        intro s hs
        have hstop := List.head?_dropWhile_not (fun s => (Symbol.toChar s).isDigit)
          (first :: others)
        rw [Option.mem_def.mp hs] at hstop
        exact hstop

/-- What was read is a sign and digits, and the number is what they stand for. -/
theorem exists_magnitude_of_read {t : IntType} {input rest : Run σ} {n : t.Value}
    (h : read t input = .ok (n, rest)) :
    ∃ body : Run σ, rest = body.drop (magnitude body).length ∧
      n.val.natAbs = value (magnitude body) := by
  rcases hpair : sign t input with ⟨negative, body⟩
  simp only [read_eq, hpair] at h
  split at h
  · cases h
  · split at h
    · cases h
    · split at h
      · rename_i m hm
        obtain ⟨rfl, rfl⟩ := Prod.mk.inj (Except.ok.inj h)
        refine ⟨body, rfl, ?_⟩
        rw [IntType.ofInt?_eq_some_iff.mp hm, natAbs_signed]
      · cases h

/-- A numeral is read just where it stands. -/
theorem read_eq_ok_iff {t : IntType} {input rest : Run σ} {n : t.Value} :
    read t input = .ok (n, rest) ↔ StandsBefore n.val rest input := by
  constructor
  · intro h
    obtain ⟨body, hrest, hvalue⟩ := exists_magnitude_of_read h
    refine ⟨by rw [← spelling_eq, ← eq_spelling_of_read h], ?_⟩
    rcases head?_drop_magnitude body with hzero | hstop
    · exact Or.inl (Int.natAbs_eq_zero.mp (hvalue.trans hzero))
    · exact Or.inr (by rwa [hrest])
  · rintro ⟨rfl, hend⟩
    rw [← spelling_eq]
    exact read_spelling n hend

/-! ## Inputs that hold no numeral -/

/-- The input ends where the first digit of a numeral would stand: there is nothing at all,
or a sign on its own. -/
def AwaitsDigit (t : IntType) (input : Run σ) : Prop :=
  input = [] ∨ t.signed = true ∧ input = Run.spelling "-"

instance [DecidableEq σ] (t : IntType) (input : Run σ) : Decidable (AwaitsDigit t input) :=
  inferInstanceAs (Decidable (input = [] ∨ t.signed = true ∧ input = Run.spelling "-"))

/-- Nothing comes after the sign just if the first digit is still awaited. -/
theorem sign_eq_nil_iff {t : IntType} {input : Run σ} :
    (sign t input).2 = [] ↔ AwaitsDigit t input := by
  have hminus : (Run.spelling "-" : Run σ) = Symbol.spell '-' := List.append_nil _
  constructor
  · intro hnil
    have hsign := sign_spelling t input
    rw [hnil, List.append_nil] at hsign
    cases hnegative : (sign t input).1 with
    | false =>
        rw [hnegative] at hsign
        exact Or.inl hsign.symm
    | true =>
        rw [hnegative] at hsign
        refine Or.inr ⟨?_, by rw [hminus, ← hsign]; rfl⟩
        cases input with
        | nil => cases hnegative
        | cons symbol rest =>
            simp only [sign] at hnegative
            split at hnegative
            · rename_i hboth
              exact (Bool.and_eq_true_iff.mp hboth).1
            · cases hnegative
  · rintro (rfl | ⟨hsigned, rfl⟩)
    · rfl
    · obtain ⟨minus, hspell, hchar⟩ := List.map_eq_singleton_iff.mp
        (Symbol.map_toChar_spell '-' (by decide) : (Symbol.spell '-' : Run σ).map _ = ['-'])
      simp [hminus, hspell, sign, hsigned, hchar]

/-- The cause for which an input holds no numeral of the type: it ended before the first
digit, or it holds something else. -/
def missing [DecidableEq σ] (t : IntType) (input : Run σ) : Failure :=
  if AwaitsDigit t input then .endOfInput "integer" else .unexpected "integer" input.units

theorem eq_missing_of_read [DecidableEq σ] {t : IntType} {input : Run σ} {cause : Failure}
    (h : read t input = .error cause) : cause = missing t input := by
  have hended : (sign t input).2 = [] ↔ AwaitsDigit t input := sign_eq_nil_iff
  rcases hpair : sign t input with ⟨negative, body⟩
  simp only [read_eq, hpair, List.isEmpty_iff] at h hended
  by_cases hbody : body = []
  · rw [if_pos hbody] at h
    rw [missing, if_pos (hended.mp hbody), Except.error.inj h]
  · rw [if_neg hbody] at h
    rw [missing, if_neg (mt hended.mpr hbody)]
    split at h
    · exact (Except.error.inj h).symm
    · split at h
      · cases h
      · exact (Except.error.inj h).symm

end Numeral

/-! ## Grammars -/

variable {σ : Type} [Symbol σ]

theorem Reader.integer_yields_iff {t : IntType} {input rest : Run σ} {n : t.Value} :
    (integer t input).Yields n rest ↔ Numeral.read t input = .ok (n, rest) := by
  simp only [integer]
  split
  · rename_i found left hread
    simp [hread]
  · rename_i hread
    simp [hread]

/-- A number is read, and `rest` left, just where its decimal form stands before `rest`.
Where no number of the type stands, the reading stays at its start, and its cause is the
end of the input if there is nothing or only the sign of a signed type. -/
theorem Grammar.integer_reads_numerals [DecidableEq σ] (t : IntType) (input : Run σ) :
    (∀ (n : t.Value) (rest : Run σ), ((integer t).read input).Yields n rest ↔
      Numeral.StandsBefore n.val rest input) ∧
    ∀ (cause : Failure) (rest : Run σ), ((integer t).read input).Breaks cause rest ↔
      (¬ ∃ (n : t.Value) (after : Run σ), Numeral.StandsBefore n.val after input) ∧
        rest = input ∧ cause = Numeral.missing t input := by
  have hyields (n : t.Value) (rest : Run σ) : ((integer t).read input).Yields n rest ↔
      Numeral.StandsBefore n.val rest input :=
    Reader.integer_yields_iff.trans Numeral.read_eq_ok_iff
  refine ⟨hyields, ?_⟩
  intro cause rest
  constructor
  · intro h
    obtain ⟨hread, hrest⟩ := Reader.integer_breaks_iff.mp h
    refine ⟨?_, hrest.symm, Numeral.eq_missing_of_read hread⟩
    rintro ⟨n, after, hstands⟩
    exact ((hyields n after).mpr hstands).not_fails h.fails
  · rintro ⟨hnone, rfl, hcause⟩
    apply Reader.integer_breaks_iff.mpr
    cases hread : Numeral.read t rest with
    | ok found => exact absurd ⟨found.1, found.2, Numeral.read_eq_ok_iff.mp hread⟩ hnone
    | error met => exact ⟨by rw [hcause, Numeral.eq_missing_of_read hread], rfl⟩

/-- In eight bits with a sign, a number may be as low as -128 and no lower. -/
example : ((Grammar.integer ⟨true, .bits8⟩).read "-129".toList).Breaks
    (.unexpected "integer" 4) "-129".toList :=
  ⟨by with_unfolding_all rfl, by with_unfolding_all rfl⟩

end InvertibleGrammar
