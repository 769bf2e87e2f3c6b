import InvertibleGrammar.Proofs.DigitSums
import InvertibleGrammar.Reader

/-!
# Numerals that were read

Reading a numeral goes digit by digit, each digit multiplying what came before it
by ten. Where no leading zero is allowed, the digits of the number that comes out
are just those that were read. A numeral that was read is therefore the spelling
of its number. The other way round, the spelling of a number is read as that number
where no further digit follows it.
-/

namespace InvertibleGrammar

theorem IntType.lo_le_neg_one {t : IntType} (h : t.signed = true) : t.lo ≤ -1 := by
  obtain ⟨signed, width⟩ := t
  subst h
  cases width <;> decide

namespace Numeral

/-! ## Digits -/

/-- A digit exceeds that of zero by the number it stands for. -/
theorem sub_lt_ten_of_isDigit {c : Char} (h : c.isDigit = true) : c.toNat - '0'.toNat < 10 := by
  obtain ⟨_, hhigh⟩ := Char.isDigit_iff_toNat.mp h
  change c.toNat ≤ 57 at hhigh
  change c.toNat - 48 < 10
  omega

/-- A digit is the character of the number it stands for. -/
theorem digitChar_of_isDigit {c : Char} (h : c.isDigit = true) :
    Nat.digitChar (c.toNat - '0'.toNat) = c := by
  obtain ⟨hlow, _⟩ := Char.isDigit_iff_toNat.mp h
  rw [← Char.toNat_inj, Nat.toNat_digitChar_of_lt_ten (sub_lt_ten_of_isDigit h)]
  change 48 ≤ c.toNat at hlow
  change 48 + (c.toNat - 48) = c.toNat
  omega

theorem toDigits_of_isDigit {c : Char} (h : c.isDigit = true) :
    Nat.toDigits 10 (c.toNat - '0'.toNat) = [c] := by
  rw [Nat.toDigits_of_lt_base (sub_lt_ten_of_isDigit h), digitChar_of_isDigit h]

/-- Digits put behind a positive number are put behind its digits. -/
theorem toDigits_append {n : Nat} (hpos : 0 < n) {chars : List Char}
    (h : ∀ c ∈ chars, c.isDigit = true) :
    Nat.toDigits 10 n ++ chars = Nat.toDigits 10 (Nat.ofDigitChars 10 chars n) := by
  induction chars generalizing n with
  | nil => simp
  | cons c others ih =>
      have hc : c.isDigit = true := h c (by simp)
      have hothers : ∀ d ∈ others, d.isDigit = true := fun d hd => h d (by simp [hd])
      calc
        Nat.toDigits 10 n ++ c :: others
            = Nat.toDigits 10 n ++ Nat.toDigits 10 (c.toNat - '0'.toNat) ++ others := by
          rw [toDigits_of_isDigit hc, List.append_assoc, List.singleton_append]
        _ = Nat.toDigits 10 (10 * n + (c.toNat - '0'.toNat)) ++ others := by
          rw [Nat.toDigits_append_toDigits (by omega) hpos (sub_lt_ten_of_isDigit hc)]
        _ = Nat.toDigits 10 (Nat.ofDigitChars 10 (c :: others) n) := by
          rw [Nat.ofDigitChars_cons, ih (by omega) hothers]

/-- Digits without a leading zero are those of the number they stand for. -/
theorem toDigits_ofDigitChars {c : Char} {others : List Char}
    (h : ∀ d ∈ c :: others, d.isDigit = true) (hzero : c ≠ '0') :
    Nat.toDigits 10 (Nat.ofDigitChars 10 (c :: others) 0) = c :: others := by
  have hc : c.isDigit = true := h c (by simp)
  have hothers : ∀ d ∈ others, d.isDigit = true := fun d hd => h d (by simp [hd])
  rw [Nat.ofDigitChars_cons, Nat.mul_zero, Nat.zero_add,
    ← toDigits_append (sub_pos_of_isDigit hc hzero) hothers, toDigits_of_isDigit hc,
    List.singleton_append]

/-! ## Runs of digits -/

variable {σ : Type} [Symbol σ]

/-- ASCII symbols spell the characters they stand for. -/
theorem flatMap_spell_toChar {run : Run σ} (h : ∀ s ∈ run, (Symbol.toChar s).toNat < 128) :
    (run.map Symbol.toChar).flatMap Symbol.spell = run := by
  induction run with
  | nil => rfl
  | cons symbol rest ih =>
      have hrest := ih fun s hs => h s (by simp [hs])
      rw [List.map_cons, List.flatMap_cons, Symbol.spell_toChar symbol (h symbol (by simp)), hrest,
        List.singleton_append]

theorem toNat_lt_of_isDigit {c : Char} (h : c.isDigit = true) : c.toNat < 128 := by
  obtain ⟨_, hhigh⟩ := Char.isDigit_iff_toNat.mp h
  change c.toNat ≤ 57 at hhigh
  omega

theorem isDigit_of_mem_magnitude {input : Run σ} {symbol : σ} (h : symbol ∈ magnitude input) :
    (Symbol.toChar symbol).isDigit = true := by
  cases input with
  | nil => exact absurd h List.not_mem_nil
  | cons first rest =>
      simp only [magnitude] at h
      split at h
      · rename_i hzero
        rw [List.mem_singleton.mp h, hzero]
        rfl
      · exact List.all_eq_true.mp List.all_takeWhile symbol h

theorem prefix_magnitude (input : Run σ) : magnitude input <+: input := by
  cases input with
  | nil => exact List.prefix_rfl
  | cons first rest =>
      simp only [magnitude]
      split
      · exact ⟨rest, rfl⟩
      · exact List.takeWhile_prefix _

/-- The digits that were read are those of their number. -/
theorem toDigits_value_magnitude {input : Run σ} (hne : magnitude input ≠ []) :
    Nat.toDigits 10 (value (magnitude input)) = (magnitude input).map Symbol.toChar := by
  have hdigits : ∀ d ∈ (magnitude input).map Symbol.toChar, d.isDigit = true := by
    intro d hd
    obtain ⟨symbol, hsymbol, rfl⟩ := List.mem_map.mp hd
    exact isDigit_of_mem_magnitude hsymbol
  cases input with
  | nil => exact absurd rfl hne
  | cons first rest =>
      by_cases hzero : Symbol.toChar first = '0'
      · have hrun : magnitude (first :: rest) = [first] := if_pos hzero
        rw [value, hrun, List.map_singleton, hzero]
        rfl
      · have hrun : magnitude (first :: rest) =
            (first :: rest).takeWhile fun s => (Symbol.toChar s).isDigit := if_neg hzero
        cases hfirst : (Symbol.toChar first).isDigit with
        | false => exact absurd (by rw [hrun, List.takeWhile_cons_of_neg (by simp [hfirst])]) hne
        | true =>
            rw [List.takeWhile_cons_of_pos (by exact hfirst)] at hrun
            rw [value]
            rw [hrun, List.map_cons] at hdigits ⊢
            exact toDigits_ofDigitChars hdigits hzero

/-! ## Reading -/

theorem digits_ofNat (n : Nat) : digits n = Nat.toDigits 10 n := by
  have hnonneg : ¬ (n : Int) < 0 := by omega
  rw [digits, if_neg hnonneg, Int.natAbs_natCast]

theorem digits_neg {n : Nat} (hpos : n ≠ 0) : digits (-(n : Int)) = '-' :: Nat.toDigits 10 n := by
  have hneg : -(n : Int) < 0 := by omega
  rw [digits, if_pos hneg, Int.natAbs_neg, Int.natAbs_natCast]

/-- Taking off the sign takes the symbol that spells it. -/
theorem sign_spelling (t : IntType) (input : Run σ) :
    (if (sign t input).1 then Symbol.spell '-' else []) ++ (sign t input).2 = input := by
  cases input with
  | nil => rfl
  | cons symbol rest =>
      simp only [sign]
      split
      · rename_i hminus
        obtain ⟨_, hchar⟩ := Bool.and_eq_true_iff.mp hminus
        have hchar : Symbol.toChar symbol = '-' := of_decide_eq_true hchar
        have hspell : Symbol.spell '-' = [symbol] := by
          rw [← hchar]
          exact Symbol.spell_toChar symbol (by rw [hchar]; decide)
        simp [hspell]
      · simp

/-- The digits that were read and what follows them make up what came after the sign. -/
theorem spell_toDigits_append {body : Run σ} (hne : magnitude body ≠ []) :
    (Nat.toDigits 10 (value (magnitude body))).flatMap Symbol.spell ++
      body.drop (magnitude body).length = body := by
  have hascii : ∀ s ∈ magnitude body, (Symbol.toChar s).toNat < 128 :=
    fun s hs => toNat_lt_of_isDigit (isDigit_of_mem_magnitude hs)
  rw [toDigits_value_magnitude hne, flatMap_spell_toChar hascii]
  exact List.prefix_iff_eq_append.mp (prefix_magnitude body)

/-- What was read is the spelling of its number. -/
theorem eq_spelling_of_read {t : IntType} {input rest : Run σ} {n : t.Value}
    (h : read t input = .ok (n, rest)) : input = spelling n.val ++ rest := by
  have hsign := sign_spelling t input
  rcases hpair : sign t input with ⟨negative, body⟩
  simp only [read_eq, hpair, signed] at h hsign
  split at h
  · cases h
  · split at h
    · cases h
    · rename_i hread
      obtain ⟨hrun, hzero⟩ : magnitude body ≠ [] ∧
          (negative = true → value (magnitude body) ≠ 0) := by
        simpa using hread
      split at h
      · rename_i m hm
        obtain ⟨rfl, rfl⟩ := Prod.mk.inj (Except.ok.inj h)
        rw [← hsign, spelling, IntType.ofInt?_eq_some_iff.mp hm]
        cases negative with
        | false =>
            simp only [Bool.false_eq_true, if_false, List.nil_append, digits_ofNat]
            exact (spell_toDigits_append hrun).symm
        | true =>
            simp only [if_true, digits_neg (hzero rfl), List.flatMap_cons, List.append_assoc,
              List.append_cancel_left_eq]
            exact (spell_toDigits_append hrun).symm
      · cases h

/-! ## Reading a spelling -/

/-- ASCII characters are what their spelling stands for. -/
theorem map_toChar_flatMap_spell {chars : List Char} (h : ∀ c ∈ chars, c.toNat < 128) :
    (chars.flatMap Symbol.spell : Run σ).map Symbol.toChar = chars := by
  induction chars with
  | nil => rfl
  | cons c others ih =>
      have hothers := ih fun d hd => h d (by simp [hd])
      rw [List.flatMap_cons, List.map_append, Symbol.map_toChar_spell c (h c (by simp)), hothers,
        List.singleton_append]

/-- Spelled digits stand for themselves. -/
theorem map_toChar_spell_toDigits (σ : Type) [Symbol σ] (n : Nat) :
    ((Nat.toDigits 10 n).flatMap Symbol.spell : Run σ).map Symbol.toChar = Nat.toDigits 10 n := by
  apply map_toChar_flatMap_spell
  intro c hc
  exact toNat_lt_of_isDigit (Nat.isDigit_of_mem_toDigits (by omega) (by omega) hc)

theorem flatMap_spell_toDigits_ne_nil (n : Nat) :
    ((Nat.toDigits 10 n).flatMap Symbol.spell : Run σ) ≠ [] := by
  intro hnil
  have hchars := map_toChar_spell_toDigits σ n
  rw [hnil] at hchars
  exact Nat.toDigits_ne_nil hchars.symm

/-- The digits of a number other than zero do not start with zero. -/
theorem head?_toDigits_ne {n : Nat} (hpos : n ≠ 0) : (Nat.toDigits 10 n).head? ≠ some '0' := by
  induction n using Nat.strongRecOn with
  | ind n ih =>
      by_cases hsmall : n < 10
      · rw [Nat.toDigits_of_lt_base hsmall, List.head?_cons]
        intro h
        have hdigit := congrArg Char.toNat (Option.some.inj h)
        rw [Nat.toNat_digitChar_of_lt_ten hsmall] at hdigit
        change 48 + n = 48 at hdigit
        omega
      · have hten : n / 10 ≠ 0 := by omega
        rw [Nat.toDigits_of_base_le (by omega) (by omega), List.head?_append]
        cases hhead : (Nat.toDigits 10 (n / 10)).head? with
        | none => exact absurd (List.head?_eq_none_iff.mp hhead) Nat.toDigits_ne_nil
        | some c =>
            rw [Option.some_or, ← hhead]
            exact ih (n / 10) (by omega) hten

/-- Digits that do not start with zero are read up to the first symbol that is none. -/
theorem magnitude_cons_append {first : σ} {others rest : Run σ}
    (hzero : Symbol.toChar first ≠ '0')
    (hdigits : ∀ s ∈ first :: others, (Symbol.toChar s).isDigit = true)
    (hrest : ∀ s ∈ rest.head?, (Symbol.toChar s).isDigit = false) :
    magnitude (first :: others ++ rest) = first :: others := by
  have hstop : rest.takeWhile (fun s => (Symbol.toChar s).isDigit) = [] := by
    cases rest with
    | nil => rfl
    | cons s rest => exact List.takeWhile_cons_of_neg (by simp [hrest s rfl])
  calc
    magnitude (first :: others ++ rest)
        = (first :: others ++ rest).takeWhile fun s => (Symbol.toChar s).isDigit :=
      if_neg hzero
    _ = first :: others := by
      rw [List.takeWhile_append_of_pos hdigits, hstop, List.append_nil]

/-- The symbols of a number's digits are read as its digits where no further digit follows. -/
theorem magnitude_append {n : Nat} {run rest : Run σ}
    (hrun : run.map Symbol.toChar = Nat.toDigits 10 n)
    (hrest : n = 0 ∨ ∀ s ∈ rest.head?, (Symbol.toChar s).isDigit = false) :
    magnitude (run ++ rest) = run := by
  have hdigits : ∀ s ∈ run, (Symbol.toChar s).isDigit = true := by
    intro s hs
    have hmem : Symbol.toChar s ∈ Nat.toDigits 10 n := by
      rw [← hrun]
      exact List.mem_map_of_mem hs
    exact Nat.isDigit_of_mem_toDigits (by omega) (by omega) hmem
  cases run with
  | nil => exact absurd hrun.symm Nat.toDigits_ne_nil
  | cons first others =>
      have hhead : (Nat.toDigits 10 n).head? = some (Symbol.toChar first) := by
        rw [← hrun]
        rfl
      rcases Nat.eq_zero_or_pos n with hn | hpos
      · -- zero is the one number whose digits start with zero, and it has no other
        rw [hn, Nat.toDigits_zero] at hrun
        obtain ⟨hfirst, hothers⟩ := List.cons.inj hrun
        obtain rfl : others = [] := List.map_eq_nil_iff.mp hothers
        exact if_pos hfirst
      · have hn : n ≠ 0 := Nat.ne_of_gt hpos
        have hzero : Symbol.toChar first ≠ '0' := by
          intro hfirst
          exact head?_toDigits_ne hn (by rw [hhead, hfirst])
        exact magnitude_cons_append hzero hdigits (hrest.resolve_left hn)

/-- A type that has a negative value is signed. -/
theorem signed_of_neg {t : IntType} (n : t.Value) (h : n.val < 0) : t.signed = true := by
  have hlo := n.property.1
  cases hsigned : t.signed with
  | true => rfl
  | false =>
      have hzero : t.lo = 0 := by simp [IntType.lo, hsigned]
      omega

/-- The sign of a spelling is that of its number, and the digits follow it. -/
theorem sign_spelling_append {t : IntType} (n : t.Value) (rest : Run σ) :
    sign t (spelling n.val ++ rest) =
      (decide (n.val < 0), (Nat.toDigits 10 n.val.natAbs).flatMap Symbol.spell ++ rest) := by
  by_cases hneg : n.val < 0
  · obtain ⟨minus, hminus, hchar⟩ := List.map_eq_singleton_iff.mp
      (Symbol.map_toChar_spell '-' (by decide) : (Symbol.spell '-' : Run σ).map _ = ['-'])
    simp [spelling, digits, hneg, hminus, sign, hchar, signed_of_neg n hneg]
  · rw [spelling, digits, if_neg hneg]
    cases hrun : ((Nat.toDigits 10 n.val.natAbs).flatMap Symbol.spell : Run σ) with
    | nil => exact absurd hrun (flatMap_spell_toDigits_ne_nil n.val.natAbs)
    | cons first others =>
        have hdigit : (Symbol.toChar first).isDigit = true := by
          apply Nat.isDigit_of_mem_toDigits (b := 10) (by omega) (by omega)
          rw [← map_toChar_spell_toDigits σ n.val.natAbs, hrun]
          exact List.mem_cons_self
        have hminus : Symbol.toChar first ≠ '-' := by
          rintro hminus
          rw [hminus] at hdigit
          cases hdigit
        simp [sign, hneg, hminus]

/-- The spelling of a number is read as the number where no further digit follows it. A
zero stands alone, so a digit may follow that one. -/
theorem read_spelling {t : IntType} (n : t.Value) {rest : Run σ}
    (h : n.val = 0 ∨ ∀ s ∈ rest.head?, (Symbol.toChar s).isDigit = false) :
    read t (spelling n.val ++ rest) = .ok (n, rest) := by
  have hchars := map_toChar_spell_toDigits σ n.val.natAbs
  have hne : ((Nat.toDigits 10 n.val.natAbs).flatMap Symbol.spell : Run σ) ≠ [] :=
    flatMap_spell_toDigits_ne_nil n.val.natAbs
  have hmagnitude := magnitude_append hchars (h.imp (fun hn => by rw [hn]; rfl) id)
  have hvalue : value ((Nat.toDigits 10 n.val.natAbs).flatMap Symbol.spell : Run σ) =
      n.val.natAbs := by
    rw [value, hchars, Nat.ofDigitChars_ten_toDigits]
  have hof : t.ofInt? n.val = some n := IntType.ofInt?_eq_some_iff.mpr rfl
  simp only [read_eq, sign_spelling_append, hmagnitude, hvalue, signed_natAbs, hof]
  have hbody : ((Nat.toDigits 10 n.val.natAbs).flatMap Symbol.spell ++ rest : Run σ).isEmpty =
      false := by
    simp [hne]
  have hrun : (((Nat.toDigits 10 n.val.natAbs).flatMap Symbol.spell : Run σ).isEmpty ||
      decide (n.val < 0) && decide (n.val.natAbs = 0)) = false := by
    have hzero : n.val < 0 → n.val.natAbs ≠ 0 := by omega
    simp only [Bool.or_eq_false_iff, List.isEmpty_eq_false_iff, Bool.and_eq_false_iff,
      decide_eq_false_iff_not]
    refine ⟨hne, ?_⟩
    by_cases hneg : n.val < 0
    · exact Or.inr (hzero hneg)
    · exact Or.inl hneg
  rw [hbody, hrun, List.drop_left]
  simp

end Numeral

end InvertibleGrammar
