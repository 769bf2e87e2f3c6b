import InvertibleGrammar.Proofs.Edits
import InvertibleGrammar.Proofs.FailedReading
import InvertibleGrammar.Proofs.Numerals

/-!
# What a reading leaves

A reading takes symbols off the front of the input and nothing else, so it leaves a
tail of the input, whether it finds a value or fails. Where a failed reading stays is
decided by the grammar: each kind of grammar goes back to its start or stays where one
of its parts ended.
-/

namespace InvertibleGrammar

namespace Reading

variable {σ ε ε' α β : Type}

/-- Two steps that each leave a tail of what they were given leave one together. -/
theorem andThen_rest_suffix {reading : Reading σ ε α} {next : α → Run σ → Reading σ ε β}
    {input : Run σ} (hreading : reading.rest <:+ input)
    (hnext : ∀ value rest, (next value rest).rest <:+ rest) :
    (reading.andThen next).rest <:+ input := by
  cases hr : reading.result with
  | ok value =>
      simp only [andThen, hr]
      exact (hnext value reading.rest).trans hreading
  | error cause =>
      simp only [andThen, hr]
      exact hreading

end Reading

namespace Reader

variable {σ α β : Type}

/-- The reader leaves a tail of every input, also when it fails. -/
def LeavesTail (reader : Reader σ α) : Prop := ∀ input, (reader input).rest <:+ input

/-! ## Leaves -/

/-- A reader that fails only where it started leaves a tail if it does so in success. -/
theorem leavesTail_of_yields {reader : Reader σ α}
    (hbreaks : ∀ input cause rest, (reader input).Breaks cause rest → input = rest)
    (hyields : ∀ input value rest, (reader input).Yields value rest → rest <:+ input) :
    reader.LeavesTail := by
  intro input
  cases hr : (reader input).result with
  | ok value => exact hyields input value _ ⟨hr, rfl⟩
  | error cause =>
      have hrest : (reader input).rest = input := (hbreaks input cause _ ⟨hr, rfl⟩).symm
      exact ⟨[], hrest⟩

theorem leavesTail_empty : (empty : Reader σ Unit).LeavesTail := fun _ => List.suffix_rfl

section Leaves

variable [Symbol σ]

theorem leavesTail_endOfInput : (endOfInput : Reader σ Unit).LeavesTail := by
  intro input
  simp only [endOfInput]
  split
  · exact List.suffix_rfl
  · exact List.suffix_rfl

theorem leavesTail_words [DecidableEq σ] (expected : String) (meanings : List (Run σ × α)) :
    (words expected meanings).LeavesTail := by
  apply leavesTail_of_yields
  · intro input cause rest h
    exact (words_breaks h).2
  · intro input value rest h
    obtain ⟨word, _, hword⟩ := exists_of_words_yields h
    exact ⟨word, hword.symm⟩

theorem leavesTail_integer (t : IntType) : (integer t : Reader σ t.Value).LeavesTail := by
  apply leavesTail_of_yields
  · intro input cause rest h
    exact (integer_breaks_iff.mp h).2
  · intro input value rest h
    simp only [integer] at h
    split at h
    · rename_i n left hread
      obtain ⟨_, rfl⟩ := Reading.succeed_yields_iff.mp h
      exact ⟨_, (Numeral.eq_spelling_of_read hread).symm⟩
    · exact absurd h Reading.not_fail_yields

theorem leavesTail_run (accepts : σ → Bool) (length : CountRange) :
    (run accepts length).LeavesTail := by
  intro input
  have hsplit : (Run.splitWhile length.max.toNat accepts input).2 <:+ input :=
    ⟨_, Run.splitWhile_append length.max.toNat accepts input⟩
  simp only [run]
  split
  · exact hsplit
  · exact hsplit

end Leaves

/-! ## Sequences -/

theorem leavesTail_keep {types : List Type} {first : Reader σ α} {others : Reader σ (Tuple types)}
    (hfirst : first.LeavesTail) (hothers : others.LeavesTail) :
    (keep first others).LeavesTail := by
  intro input
  exact Reading.andThen_rest_suffix (hfirst input) fun _ rest => hothers rest

theorem leavesTail_skip {first : Reader σ Unit} {others : Reader σ α}
    (hfirst : first.LeavesTail) (hothers : others.LeavesTail) :
    (skip first others).LeavesTail := by
  intro input
  exact Reading.andThen_rest_suffix (hfirst input) fun _ rest => hothers rest

theorem leavesTail_convert {inner : Reader σ α} (hinner : inner.LeavesTail)
    (conversion : Conversion α β) : (convert inner conversion).LeavesTail := by
  intro input
  exact Reading.andThen_rest_suffix (hinner input) fun _ _ => List.suffix_rfl

/-! ## Choice -/

theorem attempts_rest_suffix {readers : List (Reader σ α × Nat)} {input : Run σ}
    (h : ∀ entry ∈ readers, entry.1.LeavesTail) : (attempts input readers).rest <:+ input := by
  induction readers with
  | nil => exact List.suffix_rfl
  | cons entry others ih =>
      obtain ⟨reader, index⟩ := entry
      cases hr : (reader input).result with
      | ok value =>
          simp only [attempts, hr]
          exact h (reader, index) (by simp) input
      | error cause =>
          simp only [attempts, hr]
          exact ih fun entry hentry => h entry (by simp [hentry])

theorem leavesTail_choice {readers : List (Reader σ α)}
    (h : ∀ reader ∈ readers, reader.LeavesTail) : (choice readers).LeavesTail := by
  intro input
  apply attempts_rest_suffix
  intro entry hentry
  exact h entry.1 (List.fst_mem_of_mem_zipIdx hentry)

theorem leavesTail_optional {inner : Reader σ α} (hinner : inner.LeavesTail) :
    (optional inner).LeavesTail := by
  intro input
  cases hr : (inner input).result with
  | ok value =>
      simp only [optional, hr]
      exact hinner input
  | error cause =>
      simp only [optional, hr]
      exact List.suffix_rfl

/-! ## Repetition -/

section Repetition

variable {element : Reader σ α} {separator terminator : Reader σ Unit}

theorem iteration_rest_suffix (helement : element.LeavesTail) (hseparator : separator.LeavesTail)
    (count : Nat) (input : Run σ) :
    (iteration element separator count input).rest <:+ input := by
  apply Reading.andThen_rest_suffix
  · split
    · exact List.suffix_rfl
    · exact hseparator input
  · intro _ rest
    exact helement rest

variable [Symbol σ]

/-- A chain of iterations leads to a tail of the input, step by step. -/
theorem Iterates.rest_suffix (helement : element.LeavesTail) (hseparator : separator.LeavesTail)
    {count : Nat} {input rest : Run σ} {values : List α}
    (h : Iterates element separator count input values rest) : rest <:+ input := by
  induction h with
  | done => exact List.suffix_rfl
  | more step progress later ih =>
      rw [← step.2] at ih
      exact ih.trans (iteration_rest_suffix helement hseparator _ _)

/-- A repetition leaves what its terminator leaves behind the last value, or stays there if
there are too few values. -/
theorem repetition_rest {count : CountRange} {input middle : Run σ} {values : List α}
    (h : Gathers element separator count.max.toNat input values middle) :
    (repetition element separator terminator count input).rest =
      if values.length < count.min.toNat then middle else (terminator middle).rest := by
  obtain ⟨rfl, rfl⟩ := gathers_iff.mp h
  simp only [repetition]
  split
  · rfl
  · rfl

theorem leavesTail_repetition (helement : element.LeavesTail) (hseparator : separator.LeavesTail)
    (hterminator : terminator.LeavesTail) (count : CountRange) :
    (repetition element separator terminator count).LeavesTail := by
  intro input
  have hgathers : Gathers element separator count.max.toNat input _ _ :=
    gathers_iff.mpr ⟨rfl, rfl⟩
  have hmiddle := hgathers.chain.rest_suffix helement hseparator
  rw [repetition_rest hgathers]
  split
  · exact hmiddle
  · exact (hterminator _).trans hmiddle

end Repetition

end Reader

/-! ## Grammars -/

variable {σ : Type}

section Grammars

variable [Symbol σ] [DecidableEq σ]

mutual

/-- Every grammar leaves a tail of the input. -/
theorem Grammar.read_leavesTail {α : Type} : (grammar : Grammar σ α) → grammar.read.LeavesTail
  | .literal text => Reader.leavesTail_words "literal" [(text, ())]
  | .run accepts length => Reader.leavesTail_run accepts length
  | .sequence slots => slots.read_leavesTail
  | .choice alternatives _ => Reader.leavesTail_choice alternatives.readers_leaveTail
  | .repetition element separator terminator count =>
      Reader.leavesTail_repetition element.read_leavesTail separator.read_leavesTail
        terminator.read_leavesTail count
  | .skip inner => inner.read_leavesTail
  | .convert inner conversion => Reader.leavesTail_convert inner.read_leavesTail conversion
  | .optional inner => Reader.leavesTail_optional inner.read_leavesTail
  | .endOfInput => Reader.leavesTail_endOfInput
  | .empty => Reader.leavesTail_empty
  | .integer t => Reader.leavesTail_integer t
  | .boolean => Reader.leavesTail_words "boolean" _

theorem Slots.read_leavesTail {types : List Type} : (slots : Slots σ types) → slots.read.LeavesTail
  | .nil => Reader.leavesTail_empty
  | .keep first others => Reader.leavesTail_keep first.read_leavesTail others.read_leavesTail
  | .skip first others => Reader.leavesTail_skip first.read_leavesTail others.read_leavesTail

theorem Alternatives.readers_leaveTail {α : Type} : (alternatives : Alternatives σ α) →
    ∀ reader ∈ alternatives.readers, reader.LeavesTail
  | .nil, _, h => absurd h List.not_mem_nil
  | .cons first others, reader, h => by
      rcases List.mem_cons.mp h with rfl | h
      · exact first.read_leavesTail
      · exact others.readers_leaveTail reader h

end

end Grammars

/-! ## Slots one by one -/

/-- A slot of a sequence, whether its value is kept or not. -/
structure Slot (σ : Type) where
  {α : Type}
  grammar : Grammar σ α

/-- The slots of a sequence as a list. -/
def Slots.toList {types : List Type} : Slots σ types → List (Slot σ)
  | .nil => []
  | .keep first others => ⟨first⟩ :: others.toList
  | .skip first others => ⟨first⟩ :: others.toList

variable [Symbol σ] [DecidableEq σ]

/-- Slots that are read one after another lead from an input to what is left. -/
inductive Slot.Passes : List (Slot σ) → Run σ → Run σ → Prop
  /-- No slot is left to read. -/
  | done {input : Run σ} : Passes [] input input
  /-- A slot finds a value, and those after it go on from there. -/
  | next {slot : Slot σ} {others : List (Slot σ)} {input middle rest : Run σ} {value : slot.α}
      (first : (slot.grammar.read input).Yields value middle)
      (later : Passes others middle rest) : Passes (slot :: others) input rest

theorem Slot.Passes.rest_suffix {slots : List (Slot σ)} {input rest : Run σ}
    (h : Passes slots input rest) : rest <:+ input := by
  induction h with
  | done => exact List.suffix_rfl
  | @next slot _ input _ _ _ first _ ih =>
      rw [← first.2] at ih
      exact ih.trans (slot.grammar.read_leavesTail input)

/-- Slots fail in the first slot that fails when it is read behind those before it. -/
def Slot.Fail (slots : List (Slot σ)) (input : Run σ) (cause : Failure) (rest : Run σ) : Prop :=
  ∃ earlier slot later middle, slots = earlier ++ slot :: later ∧
    Passes earlier input middle ∧ (slot.grammar.read middle).Breaks cause rest

theorem Slot.fail_cons_iff {slot : Slot σ} {others : List (Slot σ)} {input rest : Run σ}
    {cause : Failure} :
    Slot.Fail (slot :: others) input cause rest ↔
      (slot.grammar.read input).Breaks cause rest ∨
        ∃ value middle, (slot.grammar.read input).Yields value middle ∧
          Slot.Fail others middle cause rest := by
  constructor
  · rintro ⟨earlier, failed, later, middle, hsplit, hearlier, hfailed⟩
    cases hearlier with
    | done =>
        obtain ⟨rfl, _⟩ := List.cons.inj hsplit
        exact Or.inl hfailed
    | next first passed =>
        obtain ⟨rfl, hothers⟩ := List.cons.inj hsplit
        exact Or.inr ⟨_, _, first, _, failed, later, middle, hothers, passed, hfailed⟩
  · rintro (hfailed | ⟨value, between, first, earlier, failed, later, middle, rfl, passed, hfailed⟩)
    · exact ⟨[], slot, others, input, rfl, .done, hfailed⟩
    · exact ⟨slot :: earlier, failed, later, middle, rfl, .next first passed, hfailed⟩

theorem Slots.read_breaks_iff {types : List Type} : (slots : Slots σ types) →
    {input rest : Run σ} → {cause : Failure} →
    ((slots.read input).Breaks cause rest ↔ Slot.Fail slots.toList input cause rest)
  | .nil, _, _, _ => by
      constructor
      · intro h
        exact absurd h Reader.not_empty_breaks
      · rintro ⟨earlier, slot, later, _, hsplit, _⟩
        exact absurd hsplit (by simp [toList])
  | .keep first others, _, _, _ => by
      rw [Slots.read, Reader.keep_breaks_iff, toList, Slot.fail_cons_iff]
      simp only [others.read_breaks_iff]
  | .skip first others, _, _, _ => by
      rw [Slots.read, Reader.skip_breaks_iff, toList, Slot.fail_cons_iff]
      simp only [others.read_breaks_iff]

/-! ## Where a failed reading stays -/

namespace Grammar

/-- The place where a reading of `input` stays when it fails. -/
def StaysAt {α : Type} : Grammar σ α → Run σ → Run σ → Prop
  | literal _, input, rest => rest = input
  | integer _, input, rest => rest = input
  | boolean, input, rest => rest = input
  | endOfInput, input, rest => rest = input
  | choice _ _, input, rest => rest = input
  -- A run that is too short is used up.
  | run accepts length, input, rest => ∃ run, input = run ++ rest ∧
      Run.Matched accepts length.max.toNat run rest ∧ run.length < length.min.toNat
  | skip inner, input, rest => ∃ cause, (inner.read input).Breaks cause rest
  | convert inner conversion, input, rest =>
      (∃ cause, (inner.read input).Breaks cause rest) ∨
        ∃ value cause, (inner.read input).Yields value rest ∧
          conversion.apply value = .error cause
  | sequence slots, input, rest => ∃ cause, Slot.Fail slots.toList input cause rest
  | repetition element separator terminator count, input, rest => ∃ values middle,
      Reader.Gathers element.read separator.read count.max.toNat input values middle ∧
        (values.length < count.min.toNat ∧ rest = middle ∨
          count.min.toNat ≤ values.length ∧ ∃ cause, (terminator.read middle).Breaks cause rest)
  -- These two never fail.
  | optional _, _, _ => False
  | empty, _, _ => False

theorem staysAt_of_breaks {α : Type} {grammar : Grammar σ α} {input rest : Run σ}
    {cause : Failure} (h : (grammar.read input).Breaks cause rest) :
    grammar.StaysAt input rest := by
  cases grammar with
  | literal text => exact (Reader.words_breaks h).2.symm
  | boolean => exact (Reader.words_breaks h).2.symm
  | integer t => exact (Reader.integer_breaks_iff.mp h).2.symm
  | endOfInput => exact (Reader.endOfInput_breaks_iff.mp h).2.2.symm
  | choice alternatives order =>
      obtain ⟨_, _, _, hrest⟩ := Reader.choice_breaks_iff.mp h
      exact hrest.symm
  | run accepts length =>
      obtain ⟨hshort, _, rfl⟩ := Reader.run_breaks_iff.mp h
      exact ⟨_, (Run.splitWhile_append _ _ _).symm, Run.splitWhile_matched _ _ _, hshort⟩
  | skip inner => exact ⟨cause, h⟩
  | convert inner conversion =>
      rcases Reader.convert_breaks_iff.mp h with hinner | ⟨value, hinner, hcause⟩
      · exact Or.inl ⟨cause, hinner⟩
      · exact Or.inr ⟨value, cause, hinner, hcause⟩
  | sequence slots => exact ⟨cause, slots.read_breaks_iff.mp h⟩
  | repetition element separator terminator count =>
      obtain ⟨values, middle, hgathers, hend⟩ := Reader.repetition_breaks_iff.mp h
      refine ⟨values, middle, hgathers, ?_⟩
      rcases hend with ⟨hfew, _, hrest⟩ | ⟨hmany, hterminator⟩
      · exact Or.inl ⟨hfew, hrest.symm⟩
      · exact Or.inr ⟨hmany, cause, hterminator⟩
  | optional inner => exact absurd h Reader.not_optional_breaks
  | empty => exact absurd h Reader.not_empty_breaks

omit [DecidableEq σ] in
/-- A tail of a run begins between two of its symbols. -/
theorem isBoundary_of_suffix {input rest : Run σ} (h : rest <:+ input) :
    Run.IsBoundary (input.units - rest.units) input := by
  obtain ⟨taken, rfl⟩ := h
  refine ⟨taken, List.prefix_append taken rest, ?_⟩
  rw [Run.units_append, Nat.add_sub_cancel]

/-- A reading leaves a tail of the input, which begins between two symbols. If it fails, it
stays where its grammar says. An optional part never fails, and gives the input back if it
takes the part to be absent. A repetition goes on from the end of its last value, be the
reading a success or not: what an iteration used that failed or made no progress is given
back. -/
theorem read_remainder (input : Run σ) :
    (∀ (α : Type) (grammar : Grammar σ α),
      (grammar.read input).rest <:+ input ∧
        Run.IsBoundary (input.units - (grammar.read input).rest.units) input ∧
        ∀ cause rest, (grammar.read input).Breaks cause rest → grammar.StaysAt input rest) ∧
    (∀ (α : Type) (inner : Grammar σ α), ¬ ((optional inner).read input).Fails ∧
      ∀ rest, ((optional inner).read input).Yields none rest → rest = input) ∧
    (∀ (α : Type) (element : Grammar σ α) (separator terminator : Grammar σ Unit)
      (count : CountRange), ∃ values middle,
      Reader.Gathers element.read separator.read count.max.toNat input values middle ∧
        ((repetition element separator terminator count).read input).rest =
          if values.length < count.min.toNat then middle else (terminator.read middle).rest) := by
  refine ⟨?_, ?_, ?_⟩
  · intro α grammar
    have htail := grammar.read_leavesTail input
    refine ⟨htail, isBoundary_of_suffix htail, ?_⟩
    intro cause rest h
    exact staysAt_of_breaks h
  · intro α inner
    constructor
    · rintro ⟨cause, hcause⟩
      exact Reader.not_optional_breaks ⟨hcause, rfl⟩
    · intro rest h
      exact (Reader.optional_yields_none_iff.mp h).2.symm
  · intro α element separator terminator count
    have hgathers : Reader.Gathers element.read separator.read count.max.toNat input _ _ :=
      Reader.gathers_iff.mpr ⟨rfl, rfl⟩
    exact ⟨_, _, hgathers, Reader.repetition_rest hgathers⟩

/-- Digits, each time before a semicolon, up to the digit three and an exclamation mark. -/
def countdown : Grammar Char (List (Run Char)) :=
  .repetition (.sequence (.keep (.run Char.isDigit ⟨1, 3⟩) (.skip (.text ";") .nil))) .empty
    (.sequence (.skip (.text "3") (.skip (.text "!") .nil))) ⟨2, 5⟩

/-- The third iteration fails behind a digit and gives it back. The terminator reads the
digit again and fails behind it, where the reading stays. -/
theorem read_remainder_countdown :
    (countdown.read "1;22;3,x".toList).Breaks (.unexpected "literal" 2) [',', 'x'] ∧
      countdown.StaysAt "1;22;3,x".toList [',', 'x'] := by
  have hread : (countdown.read "1;22;3,x".toList).Breaks (.unexpected "literal" 2) [',', 'x'] :=
    ⟨by with_unfolding_all rfl, by with_unfolding_all rfl⟩
  exact ⟨hread, ((read_remainder _).1 _ countdown).2.2 _ _ hread⟩

end Grammar

end InvertibleGrammar
