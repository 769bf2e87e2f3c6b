import InvertibleGrammar.Proofs.Counterparts
import InvertibleGrammar.Proofs.Remainder

/-!
# Reading bytes as text is read

A reader of bytes agrees with a reader of characters if from the bytes of a text it
does what the other does from the text: it finds a related value or meets the same
cause, leaves the bytes of what the other leaves, and tells the same events. Readers
that are combined from agreeing readers agree, so a grammar and its counterpart read the
same.
-/

namespace InvertibleGrammar

namespace Reading

variable {ε ε' α β γ δ : Type}

/-- A reading of bytes came to the same as one of characters: to related values or the
same cause, before the bytes of the same text, with the same events. -/
inductive Agrees (R : α → β → Prop) : Reading Char ε α → Reading UInt8 ε β → Prop where
  /-- Either found a value. -/
  | value {a : α} {b : β} {rest : Run Char} {log : List Event} (h : R a b) :
      Agrees R ⟨.ok a, rest, log⟩ ⟨.ok b, Utf8.encode rest, log⟩
  /-- Either met the cause. -/
  | cause {cause : ε} {rest : Run Char} {log : List Event} :
      Agrees R ⟨.error cause, rest, log⟩ ⟨.error cause, Utf8.encode rest, log⟩

variable {R : α → β → Prop} {S : γ → δ → Prop}

/-- Where a value is found in characters, a related one is found in bytes. -/
theorem Agrees.yields {reading : Reading Char ε α} {reading' : Reading UInt8 ε β}
    (h : reading.Agrees R reading') {a : α} {rest : Run Char} (hyields : reading.Yields a rest) :
    ∃ b, R a b ∧ reading'.Yields b (Utf8.encode rest) := by
  cases h with
  | @value a' b rest' log hvalue =>
      obtain ⟨hresult, hrest⟩ := hyields
      obtain rfl : a' = a := Except.ok.inj hresult
      obtain rfl : rest' = rest := hrest
      exact ⟨b, hvalue, rfl, rfl⟩
  | cause => cases hyields.1

/-- Agreement is kept by telling the same events before. -/
theorem Agrees.after {reading : Reading Char ε α} {reading' : Reading UInt8 ε β}
    (h : reading.Agrees R reading') (log : List Event) :
    Agrees R ⟨reading.result, reading.rest, log ++ reading.log⟩
      ⟨reading'.result, reading'.rest, log ++ reading'.log⟩ := by
  cases h with
  | value hvalue => exact .value hvalue
  | cause => exact .cause

/-- Going on agrees if each of the two steps does. -/
theorem Agrees.andThen {reading : Reading Char ε α} {reading' : Reading UInt8 ε β}
    (h : reading.Agrees R reading') {next : α → Run Char → Reading Char ε γ}
    {next' : β → Run UInt8 → Reading UInt8 ε δ}
    (hnext : ∀ a b, R a b →
      (next a reading.rest).Agrees S (next' b (Utf8.encode reading.rest))) :
    (reading.andThen next).Agrees S (reading'.andThen next') := by
  cases h with
  | value hvalue => exact (hnext _ _ hvalue).after _
  | cause => exact .cause

theorem Agrees.map {reading : Reading Char ε α} {reading' : Reading UInt8 ε β}
    (h : reading.Agrees R reading') {f : α → γ} {g : β → δ}
    (hvalue : ∀ a b, R a b → S (f a) (g b)) :
    (reading.map f).Agrees S (reading'.map g) := by
  cases h with
  | value hab => exact .value (hvalue _ _ hab)
  | cause => exact .cause

theorem Agrees.mapCause {reading : Reading Char ε α} {reading' : Reading UInt8 ε β}
    (h : reading.Agrees R reading') (f : ε → ε') :
    (reading.mapCause f).Agrees R (reading'.mapCause f) := by
  cases h with
  | value hab => exact .value hab
  | cause => exact .cause

end Reading

namespace Reader

variable {α β γ δ : Type}

/-- From the bytes of a text that fits, the reader of bytes does what the other does from
the text. -/
def Agrees (R : α → β → Prop) (reader : Reader Char α) (reader' : Reader UInt8 β) : Prop :=
  ∀ input : Run Char, input.Fits → (reader input).Agrees R (reader' (Utf8.encode input))

variable {R : α → β → Prop} {S : γ → δ → Prop}

/-! ## Leaves -/

theorem empty_agrees : Agrees Eq empty empty := by
  intro input _
  exact .value rfl

theorem endOfInput_agrees : Agrees Eq endOfInput endOfInput := by
  intro input _
  simp only [endOfInput, Utf8.isEmpty_encode, Utf8.units_encode]
  split
  · exact .value rfl
  · exact .cause

/-- Words are found, or missed, in bytes as in characters. -/
theorem words_agrees (expected : String) (meanings : List (Run Char × α)) :
    Agrees Eq (words expected meanings)
      (words expected (meanings.map fun (word, value) => (Utf8.encode word, value))) := by
  intro input _
  have hfound : (meanings.map fun (word, value) => (Utf8.encode word, value)).findSome?
      (fun (word, value) => (word.strip? (Utf8.encode input)).map fun rest => (value, rest)) =
      (meanings.findSome? fun (word, value) =>
        (word.strip? input).map fun rest => (value, rest)).map
          fun (value, rest) => (value, Utf8.encode rest) := by
    induction meanings with
    | nil => rfl
    | cons meaning others ih =>
        obtain ⟨word, value⟩ := meaning
        simp only [List.map_cons, List.findSome?_cons, Utf8.strip?_encode, ih]
        cases word.strip? input with
        | some rest => rfl
        | none => rfl
  have hmissing : missing expected ((meanings.map fun (word, value) =>
      (Utf8.encode word, value)).map Prod.fst) (Utf8.encode input) =
      missing expected (meanings.map Prod.fst) input := by
    simp only [missing, List.map_map, List.any_map, Function.comp_def, Utf8.units_encode,
      Utf8.leads_encode]
  simp only [words, hfound, hmissing]
  cases meanings.findSome? fun (word, value) =>
      (word.strip? input).map fun rest => (value, rest) with
  | some found => exact .value rfl
  | none => exact .cause

theorem literal_agrees (text : Run Char) :
    Agrees Eq (literal text) (literal (Utf8.encode text)) :=
  words_agrees "literal" [(text, ())]

theorem boolean_agrees : Agrees Eq (boolean : Reader Char Bool) boolean := by
  have hspelling (word : String) :
      (Run.spelling word : Run UInt8) = Utf8.encode (Run.spelling word) :=
    Utf8.flatMap_spell word.toList
  have hwords := words_agrees "boolean" [(Run.spelling "true", true), (Run.spelling "false", false)]
  simp only [List.map_cons, List.map_nil, ← hspelling] at hwords
  exact hwords

theorem integer_agrees (t : IntType) : Agrees Eq (integer t) (integer t) := by
  intro input _
  simp only [integer, Utf8.read_encode]
  cases Numeral.read t input with
  | ok found => exact .value rfl
  | error cause => exact .cause

/-- The longest accepted runs of a text and of its bytes agree, if nothing beyond ASCII is
accepted, or else if everything beyond ASCII is and no length is refused. -/
theorem run_agrees {accepts : Char → Bool} {acceptsByte : UInt8 → Bool} {beyond : Bool}
    {length : CountRange} (hfollows : Utf8.Follows accepts acceptsByte beyond)
    (hlength : beyond = true → length = .any) :
    Agrees Run.SameText (run accepts length) (run acceptsByte length) := by
  intro input hfits
  have hmatched := Run.splitWhile_matched length.max.toNat accepts input
  have happend := Run.splitWhile_append length.max.toNat accepts input
  rcases hsplit : Run.splitWhile length.max.toNat accepts input with ⟨taken, rest⟩
  rw [hsplit] at hmatched happend
  rw [← happend] at hfits
  -- the bounds count characters on the one side and bytes on the other
  have hbound : (Utf8.encode taken).length ≤ length.max.toNat ∧
      ((Utf8.encode taken).length < length.min.toNat ↔ taken.length < length.min.toNat) := by
    cases beyond with
    | false =>
        rw [hfollows.length_encode_of_all hmatched.accepted]
        exact ⟨hmatched.length_le, Iff.rfl⟩
    | true =>
        have hunits : taken.units < UInt64.size := hfits.of_append.1
        have hmin : CountRange.any.min.toNat = 0 := rfl
        have hmax : CountRange.any.max.toNat = UInt64.size - 1 := rfl
        rw [hlength rfl, Utf8.length_encode, hmin, hmax]
        exact ⟨Nat.le_pred_of_lt hunits, by omega⟩
  have hbytes : Run.splitWhile length.max.toNat acceptsByte (Utf8.encode input) =
      (Utf8.encode taken, Utf8.encode rest) := by
    rw [← happend, Utf8.encode_append]
    exact (hfollows.matched_encode hmatched hbound.1).splitWhile_eq
  simp only [run, hsplit, hbytes, hbound.2, Utf8.units_encode]
  split
  · exact .cause
  · exact .value ⟨rfl, hfits.of_append.1⟩

/-! ## Sequences -/

theorem keep_agrees {types types' : List Type} {Q : Tuple types → Tuple types' → Prop}
    {first : Reader Char α} {first' : Reader UInt8 β} {others : Reader Char (Tuple types)}
    {others' : Reader UInt8 (Tuple types')} (htail : first.LeavesTail)
    (hfirst : Agrees R first first') (hothers : Agrees Q others others') :
    Agrees (Tuple.Both R Q) (keep first others) (keep first' others') := by
  intro input hfits
  apply (hfirst input hfits).andThen
  intro a b hab
  apply (hothers _ (hfits.of_suffix (htail input))).map
  intro later later' hlater
  exact ⟨by simpa using hab, by simpa using hlater⟩

theorem skip_agrees {first : Reader Char Unit} {first' : Reader UInt8 Unit}
    {others : Reader Char α} {others' : Reader UInt8 β} (htail : first.LeavesTail)
    (hfirst : Agrees Eq first first') (hothers : Agrees R others others') :
    Agrees R (skip first others) (skip first' others') := by
  intro input hfits
  apply (hfirst input hfits).andThen
  intro _ _ _
  exact hothers _ (hfits.of_suffix (htail input))

theorem convert_agrees {inner : Reader Char α} {inner' : Reader UInt8 β}
    {conversion : Conversion α γ} {conversion' : Conversion β δ} (hinner : Agrees R inner inner')
    (hrespects : conversion.Respects R S conversion') :
    Agrees S (convert inner conversion) (convert inner' conversion') := by
  intro input hfits
  apply (hinner input hfits).andThen
  intro a b hab
  have hsame := hrespects.apply a b hab
  generalize conversion.apply a = result, conversion'.apply b = result' at hsame
  cases hsame with
  | value hvalue => exact .value hvalue
  | cause => exact .cause

/-! ## Choice -/

/-- Attempts agree if each of them does. -/
theorem attempts_agrees {readers : List (Reader Char α)} {readers' : List (Reader UInt8 β)}
    (h : List.Forall₂ (Agrees R) readers readers') (index : Nat) {input : Run Char}
    (hfits : input.Fits) :
    (attempts input (readers.zipIdx index)).Agrees R
      (attempts (Utf8.encode input) (readers'.zipIdx index)) := by
  induction h generalizing index with
  | nil => exact .cause
  | @cons reader reader' others others' hreader _ ih =>
      have hattempt := hreader input hfits
      have hlater := ih (index + 1)
      simp only [List.zipIdx_cons, attempts]
      generalize reader input = attempt, reader' (Utf8.encode input) = attempt' at hattempt
      cases hattempt with
      | value hvalue => exact .value hvalue
      | @cause failure rest log =>
          have htried := hlater.mapCause (failure :: ·)
          exact (htried.after [.alternativeNotRead index failure]).after log

theorem choice_agrees {readers : List (Reader Char α)} {readers' : List (Reader UInt8 β)}
    (h : List.Forall₂ (Agrees R) readers readers') :
    Agrees R (choice readers) (choice readers') := by
  intro input hfits
  exact (attempts_agrees h 0 hfits).mapCause Failure.exhausted

theorem optional_agrees {inner : Reader Char α} {inner' : Reader UInt8 β}
    (hinner : Agrees R inner inner') :
    Agrees (Option.Rel R) (optional inner) (optional inner') := by
  intro input hfits
  have hattempt := hinner input hfits
  simp only [optional]
  generalize inner input = attempt, inner' (Utf8.encode input) = attempt' at hattempt
  cases hattempt with
  | value hvalue => exact .value (.some hvalue)
  | cause => exact .value .none

/-! ## Repetition -/

section Repetition

variable {element : Reader Char α} {element' : Reader UInt8 β} {separator : Reader Char Unit}
  {separator' : Reader UInt8 Unit}

theorem iteration_agrees (htail : separator.LeavesTail) (helement : Agrees R element element')
    (hseparator : Agrees Eq separator separator') (count : Nat) {input : Run Char}
    (hfits : input.Fits) :
    (iteration element separator count input).Agrees R
      (iteration element' separator' count (Utf8.encode input)) := by
  by_cases hcount : count = 0
  · have hseparated : (Reading.succeed () input : Reading Char Stop Unit).Agrees Eq
        (Reading.succeed () (Utf8.encode input)) := .value rfl
    simp only [iteration, if_pos hcount]
    apply hseparated.andThen
    intro _ _ _
    exact (helement input hfits).mapCause Stop.element
  · simp only [iteration, if_neg hcount]
    apply ((hseparator input hfits).mapCause Stop.separator).andThen
    intro _ _ _
    have hstart : (separator input).rest.Fits := hfits.of_suffix (htail input)
    exact (helement _ hstart).mapCause Stop.element

/-- The same values, up to relation, were gathered from a text and from its bytes. -/
structure Gathered.Agrees (R : α → β → Prop) (gathered : Gathered Char α)
    (gathered' : Gathered UInt8 β) : Prop where
  values : List.Forall₂ R gathered.values gathered'.values
  rest : gathered'.rest = Utf8.encode gathered.rest
  log : gathered'.log = gathered.log

/-- Iterations go on for as long in a text as in its bytes. -/
theorem gather_agrees (helementTail : element.LeavesTail) (htail : separator.LeavesTail)
    (helement : Agrees R element element') (hseparator : Agrees Eq separator separator')
    (limit count : Nat) (input : Run Char) (hfits : input.Fits) :
    (gather element separator limit count input).Agrees R
      (gather element' separator' limit count (Utf8.encode input)) := by
  have hstep := iteration_agrees htail helement hseparator count hfits
  have hsuffix := iteration_rest_suffix helementTail htail count input
  rw [gather, gather]
  by_cases hcount : count < limit
  · rw [if_pos hcount, if_pos hcount]
    generalize iteration element separator count input = step,
      iteration element' separator' count (Utf8.encode input) = step' at hstep hsuffix
    cases hstep with
    | @value a b rest log hvalue =>
        -- lengths in bytes are the same, so both modes use something or neither does
        simp only [Utf8.units_encode]
        by_cases hprogress : rest.units < input.units
        · have hlater := gather_agrees helementTail htail helement hseparator limit (count + 1)
            rest (hfits.of_suffix hsuffix)
          rw [if_pos hprogress, if_pos hprogress]
          exact ⟨.cons hvalue hlater.values, hlater.rest, congrArg (log ++ ·) hlater.log⟩
        · rw [if_neg hprogress, if_neg hprogress]
          exact ⟨.nil, rfl, rfl⟩
    | cause => exact ⟨.nil, rfl, rfl⟩
  · rw [if_neg hcount, if_neg hcount]
    exact ⟨.nil, rfl, rfl⟩
termination_by input.units

theorem repetition_agrees {terminator : Reader Char Unit} {terminator' : Reader UInt8 Unit}
    (helementTail : element.LeavesTail) (htail : separator.LeavesTail)
    (helement : Agrees R element element') (hseparator : Agrees Eq separator separator')
    (hterminator : Agrees Eq terminator terminator') (count : CountRange) :
    Agrees (List.Forall₂ R) (repetition element separator terminator count)
      (repetition element' separator' terminator' count) := by
  intro input hfits
  have hgathers : Gathers element separator count.max.toNat input _ _ := gathers_iff.mpr ⟨rfl, rfl⟩
  have hmiddle := hfits.of_suffix (hgathers.chain.rest_suffix helementTail htail)
  have hgathered := gather_agrees helementTail htail helement hseparator count.max.toNat 0 input
    hfits
  have hclosing := hterminator _ hmiddle
  simp only [repetition, Utf8.units_encode, hgathered.rest, hgathered.log,
    ← hgathered.values.length_eq]
  split
  · exact .cause
  · have hvalues := hclosing.map (fun _ _ _ => hgathered.values)
    exact hvalues.after _

end Repetition

end Reader

/-! ## Grammars -/

mutual

/-- From the bytes of a text the counterpart reads what the grammar reads from the text. -/
theorem Grammar.Counterpart.read_agrees {α β : Type} {R : α → β → Prop} {grammar : Grammar Char α}
    {grammar' : Grammar UInt8 β} :
    Grammar.Counterpart R grammar grammar' → Reader.Agrees R grammar.read grammar'.read
  | .literal text => Reader.literal_agrees text
  | .run follows unbounded => Reader.run_agrees follows unbounded
  | .sequence same => same.read_agrees
  | .choice _ same => Reader.choice_agrees same.readers_agree
  | .repetition count sameElement sameSeparator sameTerminator =>
      Reader.repetition_agrees (Grammar.read_leavesTail _) (Grammar.read_leavesTail _)
        sameElement.read_agrees sameSeparator.read_agrees sameTerminator.read_agrees count
  | .skip same => same.read_agrees
  | .convert same respects => Reader.convert_agrees same.read_agrees respects
  | .optional same => Reader.optional_agrees same.read_agrees
  | .endOfInput => Reader.endOfInput_agrees
  | .empty => Reader.empty_agrees
  | .integer t => Reader.integer_agrees t
  | .boolean => Reader.boolean_agrees

theorem Slots.Counterpart.read_agrees {types types' : List Type}
    {Q : Tuple types → Tuple types' → Prop} {slots : Slots Char types}
    {slots' : Slots UInt8 types'} :
    Slots.Counterpart Q slots slots' → Reader.Agrees Q slots.read slots'.read
  | .nil => Reader.empty_agrees
  | .keep sameFirst sameOthers =>
      Reader.keep_agrees (Grammar.read_leavesTail _) sameFirst.read_agrees sameOthers.read_agrees
  | .skip sameFirst sameOthers =>
      Reader.skip_agrees (Grammar.read_leavesTail _) sameFirst.read_agrees sameOthers.read_agrees

theorem Alternatives.Counterpart.readers_agree {α β : Type} {R : α → β → Prop}
    {alternatives : Alternatives Char α} {alternatives' : Alternatives UInt8 β} :
    Alternatives.Counterpart R alternatives alternatives' →
      List.Forall₂ (Reader.Agrees R) alternatives.readers alternatives'.readers
  | .nil => .nil
  | .cons sameFirst sameOthers => .cons sameFirst.read_agrees sameOthers.readers_agree

end

end InvertibleGrammar
