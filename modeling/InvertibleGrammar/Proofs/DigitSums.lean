import InvertibleGrammar.Numeral

/-!
# Sums of digits

A number is read digit by digit, and no step may leave its type. Since each step moves
away from zero, a step that leaves the type leaves it for good: the steps refuse just the
digits that stand for a number beyond the bounds. So a numeral is read as if its digits
were summed first and the sum checked once.
-/

namespace InvertibleGrammar.Numeral

/-- The number of a magnitude on either side of zero. -/
def signed (negative : Bool) (m : Nat) : Int := if negative then -(m : Int) else m

variable {t : IntType} {negative : Bool}

/-! ## Steps -/

theorem signed_add (negative : Bool) (m digit : Nat) :
    (if negative then signed negative m - digit else signed negative m + digit) =
      signed negative (m + digit) := by
  cases negative with
  | false => simp [signed]
  | true =>
      simp only [signed, if_true]
      omega

theorem signed_ten_mul (negative : Bool) (m : Nat) :
    10 * signed negative m = signed negative (10 * m) := by
  cases negative with
  | false => simp [signed]
  | true =>
      simp only [signed, if_true]
      omega

theorem natAbs_signed (negative : Bool) (m : Nat) : (signed negative m).natAbs = m := by
  cases negative with
  | false => exact Int.natAbs_natCast m
  | true => exact (Int.natAbs_neg m).trans (Int.natAbs_natCast m)

theorem signed_natAbs (n : Int) : signed (decide (n < 0)) n.natAbs = n := by
  by_cases hneg : n < 0
  · simp only [signed, hneg, decide_true, if_true]
    omega
  · simp only [signed, hneg, decide_false, Bool.false_eq_true, if_false]
    omega

theorem val_zero_eq (t : IntType) (negative : Bool) : t.zero.val = signed negative 0 := by
  cases negative with
  | false => rfl
  | true => rfl

/-- Beyond a number that a type does not have, it has none. -/
theorem ofInt?_signed_eq_none_of_le {m m' : Nat} (hle : m ≤ m')
    (h : t.ofInt? (signed negative m) = none) : t.ofInt? (signed negative m') = none := by
  have hbounds := t.lo_le_zero_and_one_le_hi
  rw [IntType.ofInt?_eq_none_iff] at h ⊢
  cases negative with
  | false =>
      simp only [signed, Bool.false_eq_true, if_false] at h ⊢
      omega
  | true =>
      simp only [signed, if_true] at h ⊢
      omega

/-- A digit is put behind a number just if the type has what comes out. The number times ten
lies in between, so it needs no care of its own. -/
theorem push?_eq {n : t.Value} {m : Nat} (h : n.val = signed negative m) (digit : Nat) :
    push? t negative n digit = t.ofInt? (signed negative (10 * m + digit)) := by
  rw [push?, h, signed_ten_mul]
  cases hshifted : t.ofInt? (signed negative (10 * m)) with
  | none => exact (ofInt?_signed_eq_none_of_le (Nat.le_add_right _ _) hshifted).symm
  | some shifted =>
      rw [Option.bind_some, IntType.ofInt?_eq_some_iff.mp hshifted, signed_add]

/-! ## Runs of digits -/

variable {σ : Type} [Symbol σ]

/-- The digits that an input starts with. A leading zero stands alone. -/
def magnitude (input : Run σ) : Run σ :=
  match input with
  | [] => []
  | symbol :: rest =>
      if Symbol.toChar symbol = '0' then [symbol]
      else (symbol :: rest).takeWhile fun s => (Symbol.toChar s).isDigit

/-- The number that a run of digits stands for. -/
def value (run : Run σ) : Nat := Nat.ofDigitChars 10 (run.map Symbol.toChar) 0

theorem sub_pos_of_isDigit {c : Char} (h : c.isDigit = true) (hzero : c ≠ '0') :
    0 < c.toNat - '0'.toNat := by
  obtain ⟨hlow, _⟩ := Char.isDigit_iff_toNat.mp h
  have hne : c.toNat ≠ '0'.toNat := fun heq => hzero (Char.toNat_inj.mp heq)
  omega

theorem le_ofDigitChars (chars : List Char) (m : Nat) : m ≤ Nat.ofDigitChars 10 chars m := by
  induction chars generalizing m with
  | nil => exact Nat.le_refl m
  | cons c others ih =>
      rw [Nat.ofDigitChars_cons]
      have hothers := ih (10 * m + (c.toNat - '0'.toNat))
      omega

/-- Putting digits behind a number one by one gives what they all make of it, if the type
has that. -/
theorem pushAll?_eq {n : t.Value} {m : Nat} (h : n.val = signed negative m) (input : Run σ) :
    pushAll? t negative n input =
      let run := input.takeWhile fun s => (Symbol.toChar s).isDigit
      (t.ofInt? (signed negative (Nat.ofDigitChars 10 (run.map Symbol.toChar) m))).map
        fun total => (total, input.drop run.length) := by
  induction input generalizing n m with
  | nil =>
      have hn : t.ofInt? (signed negative m) = some n := IntType.ofInt?_eq_some_iff.mpr h
      simp [pushAll?, hn]
  | cons symbol rest ih =>
      cases hdigit : (Symbol.toChar symbol).isDigit with
      | false =>
          have hn : t.ofInt? (signed negative m) = some n := IntType.ofInt?_eq_some_iff.mpr h
          simp [pushAll?, digit?, hdigit, hn]
      | true =>
          simp only [pushAll?, digit?, hdigit, if_true, push?_eq h,
            List.takeWhile_cons_of_pos, List.map_cons, Nat.ofDigitChars_cons]
          cases hlonger : t.ofInt? (signed negative
              (10 * m + ((Symbol.toChar symbol).toNat - '0'.toNat))) with
          | none =>
              rw [ofInt?_signed_eq_none_of_le (le_ofDigitChars _ _) hlonger]
              rfl
          | some longer =>
              exact ih (IntType.ofInt?_eq_some_iff.mp hlonger)

/-! ## Numerals -/

/-- A zero in front is the whole number, and has no sign. -/
theorem readDigits?_of_eq_zero {symbol : σ} (h : Symbol.toChar symbol = '0') (t : IntType)
    (negative : Bool) (rest : Run σ) :
    readDigits? t negative symbol rest = if negative then none else some (t.zero, rest) := by
  have hdigit : digit? symbol = some 0 := by
    rw [digit?, h]
    rfl
  have hfirst : push? t negative t.zero 0 = some t.zero := by
    rw [push?_eq (val_zero_eq t negative)]
    exact IntType.ofInt?_eq_some_iff.mpr (val_zero_eq t negative)
  simp [readDigits?, hdigit, hfirst]

/-- Another digit in front is put behind a zero, as are those after it. -/
theorem readDigits?_of_ne_zero {symbol : σ} (h : (Symbol.toChar symbol).isDigit = true)
    (hzero : Symbol.toChar symbol ≠ '0') (t : IntType) (negative : Bool) (rest : Run σ) :
    readDigits? t negative symbol rest = pushAll? t negative t.zero (symbol :: rest) := by
  have hpos := sub_pos_of_isDigit h hzero
  have hne : (Symbol.toChar symbol).toNat - '0'.toNat ≠ 0 := Nat.ne_of_gt hpos
  simp only [readDigits?, pushAll?, digit?, h, if_true, Option.bind_some, if_neg hne]

theorem value_ne_zero {symbol : σ} (h : (Symbol.toChar symbol).isDigit = true)
    (hzero : Symbol.toChar symbol ≠ '0') (others : Run σ) : value (symbol :: others) ≠ 0 := by
  have hpos := sub_pos_of_isDigit h hzero
  have hle := le_ofDigitChars (others.map Symbol.toChar) ((Symbol.toChar symbol).toNat - '0'.toNat)
  rw [value, List.map_cons, Nat.ofDigitChars_cons, Nat.mul_zero, Nat.zero_add]
  omega

/-- After a sign, digits are read as the number that they stand for, if the type has it. -/
theorem readDigits?_eq (t : IntType) (negative : Bool) (symbol : σ) (rest : Run σ) :
    readDigits? t negative symbol rest =
      let run := magnitude (symbol :: rest)
      if run.isEmpty || (negative && value run = 0) then none
      else (t.ofInt? (signed negative (value run))).map fun n =>
        (n, (symbol :: rest).drop run.length) := by
  by_cases hchar : Symbol.toChar symbol = '0'
  · have hrun : magnitude (symbol :: rest) = [symbol] := if_pos hchar
    have hvalue : value [symbol] = 0 := by
      rw [value, List.map_singleton, hchar]
      rfl
    have hfirst : t.ofInt? (signed negative 0) = some t.zero :=
      IntType.ofInt?_eq_some_iff.mpr (val_zero_eq t negative)
    rw [readDigits?_of_eq_zero hchar]
    cases negative with
    | false => simp [hrun, hvalue, hfirst]
    | true => simp [hrun, hvalue]
  · have hrun : magnitude (symbol :: rest) =
        (symbol :: rest).takeWhile fun s => (Symbol.toChar s).isDigit := if_neg hchar
    cases hdigit : (Symbol.toChar symbol).isDigit with
    | false => simp [readDigits?, digit?, hrun, hdigit]
    | true =>
        have hproper : value (magnitude (symbol :: rest)) ≠ 0 := by
          rw [hrun, List.takeWhile_cons_of_pos (by exact hdigit)]
          exact value_ne_zero hdigit hchar _
        have hne : magnitude (symbol :: rest) ≠ [] := by
          intro hnil
          exact hproper (by rw [hnil]; rfl)
        have hcondition : ((magnitude (symbol :: rest)).isEmpty ||
            (negative && decide (value (magnitude (symbol :: rest)) = 0))) = false := by
          simp [hne, hproper]
        rw [readDigits?_of_ne_zero hdigit hchar, pushAll?_eq (val_zero_eq t negative), ← hrun]
        simp only [hcondition, Bool.false_eq_true, if_false]
        rfl

/-- A numeral is read as its sign and the sum of its digits tell, if the type has that
number. -/
theorem read_eq (t : IntType) (input : Run σ) :
    read t input =
      let (negative, body) := sign t input
      let run := magnitude body
      if body.isEmpty then .error (.endOfInput "integer")
      else if run.isEmpty || (negative && value run = 0) then
        .error (.unexpected "integer" input.units)
      else
        match t.ofInt? (signed negative (value run)) with
        | some n => .ok (n, body.drop run.length)
        | none => .error (.unexpected "integer" input.units) := by
  rcases hpair : sign t input with ⟨negative, body⟩
  simp only [read, hpair]
  cases body with
  | nil => rfl
  | cons symbol rest =>
      simp only [readDigits?_eq, List.isEmpty_cons, Bool.false_eq_true, if_false]
      cases (magnitude (symbol :: rest)).isEmpty ||
          (negative && decide (value (magnitude (symbol :: rest)) = 0)) with
      | true => rfl
      | false =>
          cases t.ofInt? (signed negative (value (magnitude (symbol :: rest)))) with
          | some n => rfl
          | none => rfl

end InvertibleGrammar.Numeral
