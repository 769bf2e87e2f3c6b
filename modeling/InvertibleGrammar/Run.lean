import InvertibleGrammar.Symbol

/-!
# Runs

A run is a stretch of symbols. It serves as the input that is left to read, as a
piece taken from it, and as the output written so far. Lengths are in bytes,
counts in symbols; a run is only ever cut between symbols.
-/

namespace InvertibleGrammar

/-- A stretch of symbols. -/
abbrev Run (σ : Type) := List σ

namespace Run

variable {σ : Type}

/-- The length of a run in bytes. -/
def units [Symbol σ] : Run σ → Nat
  | [] => 0
  | symbol :: rest => Symbol.width symbol + units rest

/-- The symbols that write a text. -/
def spelling [Symbol σ] (text : String) : Run σ := text.toList.flatMap Symbol.spell

/-- The first symbol of a run and what follows it. -/
def next? : Run σ → Option (σ × Run σ)
  | [] => none
  | symbol :: rest => some (symbol, rest)

/-- What follows `lead` in an input that starts with it. -/
def strip? [DecidableEq σ] (lead input : Run σ) : Option (Run σ) := lead.isPrefixOf? input

/-- Whether `whole` starts with the run. -/
def leads [DecidableEq σ] (run whole : Run σ) : Bool := run.isPrefixOf whole

/-- The longest leading part of at most `max` symbols that are all accepted, and what follows it. -/
def splitWhile (max : Nat) (accepts : σ → Bool) (input : Run σ) : Run σ × Run σ :=
  let run := (input.take max).takeWhile accepts
  (run, input.drop run.length)

/-- The longest leading part of at most `length` bytes. -/
def truncate [Symbol σ] (length : Nat) : Run σ → Run σ
  | [] => []
  | symbol :: rest =>
      if Symbol.width symbol ≤ length then
        symbol :: truncate (length - Symbol.width symbol) rest
      else []

/-! ## Laws -/

@[simp]
theorem units_nil [Symbol σ] : units ([] : Run σ) = 0 := rfl

@[simp]
theorem units_cons [Symbol σ] (symbol : σ) (rest : Run σ) :
    units (symbol :: rest) = Symbol.width symbol + units rest := rfl

@[simp]
theorem units_append [Symbol σ] (a b : Run σ) : units (a ++ b) = units a + units b := by
  induction a with
  | nil => simp
  | cons symbol rest ih =>
      rw [List.cons_append, units_cons, units_cons, ih, Nat.add_assoc]

/-- Only the empty run has no bytes. -/
theorem units_eq_zero_iff [Symbol σ] {run : Run σ} : units run = 0 ↔ run = [] := by
  cases run with
  | nil => simp
  | cons symbol rest =>
      have h := Symbol.width_pos symbol
      simp only [units_cons, reduceCtorEq, iff_false]
      omega

/-- An input starts with `lead` exactly if it is `lead` before what is left. -/
theorem strip?_eq_some_iff [DecidableEq σ] {lead input rest : Run σ} :
    strip? lead input = some rest ↔ input = lead ++ rest := by
  induction lead generalizing input with
  | nil => exact Option.some_inj
  | cons a lead ih =>
      cases input with
      | nil =>
          constructor
          · intro h
            cases h
          · intro h
            cases h
      | cons b input =>
          change (if a == b then strip? lead input else none) = some rest ↔ _
          by_cases h : a = b
          · subst h
            simp [ih]
          · have h' : ¬ b = a := fun e => h e.symm
            simp [h, h']

/-- Splitting loses nothing. -/
theorem splitWhile_append (max : Nat) (accepts : σ → Bool) (input : Run σ) :
    (splitWhile max accepts input).1 ++ (splitWhile max accepts input).2 = input := by
  have taken := List.take_prefix max input
  have accepted := List.takeWhile_prefix accepts (l := input.take max)
  exact List.prefix_iff_eq_append.mp (accepted.trans taken)

/-- Cutting back to the length of an earlier run gives that run again. -/
theorem truncate_append [Symbol σ] (a b : Run σ) : truncate (units a) (a ++ b) = a := by
  induction a with
  | nil =>
      cases b with
      | nil => rfl
      | cons symbol rest =>
          have h := Symbol.width_pos symbol
          exact if_neg (by simpa using Nat.ne_of_gt h)
  | cons symbol rest ih => simp [truncate, ih]

end Run

end InvertibleGrammar
