import InvertibleGrammar.Proofs.BytewiseReading
import InvertibleGrammar.Proofs.FailedWriting

/-!
# Writing bytes as text is written

A writer of bytes agrees with a writer of characters if related values make it do,
behind the bytes of a buffer, what the other does behind the buffer itself: it succeeds
or is refused for the same cause, leaves the bytes of what the other leaves, and tells
the same events. As lengths in bytes are the same in both modes, a buffer is cut back in
the same place too. A grammar and its counterpart write the same.
-/

namespace InvertibleGrammar

/-- Cutting back to what stands in front is the same in bytes. -/
theorem Utf8.truncate_encode {mark buffer : Run Char} (h : mark <+: buffer) :
    Run.truncate mark.units (encode buffer) = encode (Run.truncate mark.units buffer) := by
  rw [Run.truncate_of_prefix h, ← units_encode mark]
  exact Run.truncate_of_prefix (encode_prefix_iff.mpr h)

namespace Writing

variable {ε ε' : Type}

/-- The same writing in bytes. -/
def encoded (writing : Writing Char ε) : Writing UInt8 ε :=
  ⟨writing.result, Utf8.encode writing.buffer, writing.log⟩

@[simp] theorem succeed_encoded (buffer : Run Char) :
    (succeed buffer : Writing Char ε).encoded = succeed (Utf8.encode buffer) := rfl

theorem mapCause_encoded (f : ε → ε') (writing : Writing Char ε) :
    (writing.mapCause f).encoded = writing.encoded.mapCause f := rfl

/-- Going on is the same in bytes if the next step is. -/
theorem andThen_encoded {writing : Writing Char ε} {next : Run Char → Writing Char ε}
    {next' : Run UInt8 → Writing UInt8 ε}
    (h : ∀ buffer, next' (Utf8.encode buffer) = (next buffer).encoded) :
    (writing.andThen next).encoded = writing.encoded.andThen next' := by
  cases hr : writing.result with
  | ok _ => simp [andThen, encoded, hr, h]
  | error cause => simp [andThen, encoded, hr]

theorem undoTo_encoded {writing : Writing Char ε} {mark : Run Char}
    (h : mark <+: writing.buffer) :
    (writing.undoTo mark.units).encoded = writing.encoded.undoTo mark.units := by
  cases hr : writing.result with
  | ok _ => simp [undoTo, encoded, hr]
  | error cause => simp [undoTo, encoded, hr, Utf8.truncate_encode h]

end Writing

namespace Writer

variable {α β γ δ : Type}

/-- Related values make the writer of bytes do, behind the bytes of a buffer, what the
other does behind the buffer. -/
def Agrees (R : α → β → Prop) (writer : Writer Char α) (writer' : Writer UInt8 β) : Prop :=
  ∀ a b, R a b → ∀ buffer, writer' b (Utf8.encode buffer) = (writer a buffer).encoded

variable {R : α → β → Prop} {S : γ → δ → Prop}

/-! ## Leaves -/

/-- Writers that append forms agree if the one form is that of the other in bytes. -/
theorem form_agrees {writer : Writer Char α} {writer' : Writer UInt8 α} {form : α → Run Char}
    {form' : α → Run UInt8}
    (hwriter : ∀ value buffer, writer value buffer = .succeed (buffer ++ form value))
    (hwriter' : ∀ value buffer, writer' value buffer = .succeed (buffer ++ form' value))
    (hform : ∀ value, form' value = Utf8.encode (form value)) : Agrees Eq writer writer' := by
  rintro value _ rfl buffer
  rw [hwriter, hwriter', hform, ← Utf8.encode_append, Writing.succeed_encoded]

theorem empty_agrees : Agrees Eq empty empty := by
  rintro _ _ _ buffer
  rfl

theorem literal_agrees (text : Run Char) :
    Agrees Eq (literal text) (literal (Utf8.encode text)) :=
  form_agrees (fun _ _ => rfl) (fun _ _ => rfl) fun _ => rfl

theorem boolean_agrees : Agrees Eq (boolean : Writer Char Bool) boolean :=
  form_agrees (fun _ _ => rfl) (fun _ _ => rfl) fun _ => Utf8.flatMap_spell _

theorem integer_agrees (t : IntType) : Agrees Eq (integer t) (integer t) :=
  form_agrees (fun _ _ => rfl) (fun _ _ => rfl) fun _ => Utf8.flatMap_spell _

theorem run_agrees {accepts : Char → Bool} {acceptsByte : UInt8 → Bool} {beyond : Bool}
    {length : CountRange} (hfollows : Utf8.Follows accepts acceptsByte beyond)
    (hlength : beyond = true → length = .any) :
    Agrees Run.SameText (run accepts length) (run acceptsByte length) := by
  rintro text _ ⟨rfl, hfits⟩ buffer
  simp only [run, hfollows.all_encode]
  cases hall : text.all accepts with
  | false => rfl
  | true =>
      have hcontains :
          length.contains (Utf8.encode text).length = length.contains text.length := by
        cases beyond with
        | false => rw [hfollows.length_encode_of_all (List.all_eq_true.mp hall)]
        | true =>
            have hbytes : (Utf8.encode text).length < UInt64.size := by
              rw [Utf8.length_encode]
              exact hfits
            have hchars := Nat.lt_of_le_of_lt (Utf8.length_le_length_encode text) hbytes
            rw [hlength rfl, CountRange.any_contains hbytes, CountRange.any_contains hchars]
      rw [hcontains]
      cases length.contains text.length with
      | false => rfl
      | true => rw [← Utf8.encode_append]; rfl

/-! ## Sequences -/

theorem keep_agrees {types types' : List Type} {Q : Tuple types → Tuple types' → Prop}
    {first : Writer Char α} {first' : Writer UInt8 β} {others : Writer Char (Tuple types)}
    {others' : Writer UInt8 (Tuple types')} (hfirst : Agrees R first first')
    (hothers : Agrees Q others others') :
    Agrees (Tuple.Both R Q) (keep first others) (keep first' others') := by
  rintro a b ⟨hhead, htail⟩ buffer
  simp only [keep, hfirst _ _ hhead]
  exact (Writing.andThen_encoded (hothers _ _ htail)).symm

theorem skip_agrees {first : Writer Char Unit} {first' : Writer UInt8 Unit}
    {others : Writer Char α} {others' : Writer UInt8 β} (hfirst : Agrees Eq first first')
    (hothers : Agrees R others others') : Agrees R (skip first others) (skip first' others') := by
  intro a b hab buffer
  simp only [skip, hfirst () () rfl]
  exact (Writing.andThen_encoded (hothers a b hab)).symm

theorem convert_agrees {inner : Writer Char α} {inner' : Writer UInt8 β}
    {conversion : Conversion α γ} {conversion' : Conversion β δ} (hinner : Agrees R inner inner')
    (hrespects : conversion.Respects R S conversion') :
    Agrees S (convert inner conversion) (convert inner' conversion') := by
  intro c d hcd buffer
  have hsame := hrespects.unapply c d hcd
  simp only [convert]
  generalize conversion.unapply c = result, conversion'.unapply d = result' at hsame
  cases hsame with
  | value hvalue => exact hinner _ _ hvalue buffer
  | cause => rfl

/-! ## Choice -/

/-- Attempts agree if each of them does. -/
theorem attempts_agrees {a : α} {b : β} (hab : R a b) {mark : Run Char}
    {writers : List (Writer Char α × Nat)} {writers' : List (Writer UInt8 β × Nat)}
    (h : List.Forall₂ (fun entry entry' => entry.1.AppendOnly ∧ Agrees R entry.1 entry'.1 ∧
      entry.2 = entry'.2) writers writers') :
    attempts b mark.units writers' (Utf8.encode mark) =
      (attempts a mark.units writers mark).encoded := by
  induction h with
  | nil => rfl
  | @cons entry entry' others others' hentry _ ih =>
      obtain ⟨happend, hagrees, hindex⟩ := hentry
      -- a refused attempt is cut back to the mark in both modes, so the next one starts there
      have hprefix := happend.prefix_buffer a mark
      have hcut : Run.truncate mark.units (entry.1 a mark).buffer = mark :=
        Run.truncate_of_prefix hprefix
      have hcutBytes := Utf8.truncate_encode hprefix
      have hattempt := hagrees a b hab mark
      rw [hcut] at hcutBytes
      simp only [attempts, hattempt, Writing.encoded, hcut, hcutBytes, ← hindex]
      cases (entry.1 a mark).result with
      | ok _ => rfl
      | error cause =>
          rw [ih]
          rfl

theorem choice_agrees {writers : List (Writer Char α)} {writers' : List (Writer UInt8 β)}
    (h : List.Forall₂ (fun writer writer' => writer.AppendOnly ∧ Agrees R writer writer')
      writers writers') (order : PrintOrder) :
    Agrees R (choice writers order) (choice writers' order) := by
  intro a b hab buffer
  have hnumbered (index : Nat) : List.Forall₂ (fun entry entry' => entry.1.AppendOnly ∧
      Agrees R entry.1 entry'.1 ∧ entry.2 = entry'.2)
      (writers.zipIdx index) (writers'.zipIdx index) := by
    induction h generalizing index with
    | nil => exact .nil
    | cons hwriter _ ih => exact .cons ⟨hwriter.1, hwriter.2, rfl⟩ (ih (index + 1))
  have hentries : List.Forall₂ (fun entry entry' => entry.1.AppendOnly ∧
      Agrees R entry.1 entry'.1 ∧ entry.2 = entry'.2)
      (order.arrange writers.zipIdx) (order.arrange writers'.zipIdx) := by
    cases order with
    | reverse => exact List.forall₂_reverse_iff.mpr (hnumbered 0)
    | declared => exact hnumbered 0
  simp only [choice, Utf8.units_encode, attempts_agrees hab hentries, Writing.mapCause_encoded]

theorem optional_agrees {inner : Writer Char α} {inner' : Writer UInt8 β}
    (happend : inner.AppendOnly) (hinner : Agrees R inner inner') :
    Agrees (Option.Rel R) (optional inner) (optional inner') := by
  intro _ _ hvalue buffer
  cases hvalue with
  | none => rfl
  | some hab =>
      simp only [optional, Utf8.units_encode, hinner _ _ hab]
      exact (Writing.undoTo_encoded (happend.prefix_buffer _ buffer)).symm

/-! ## Repetition -/

section Repetition

variable {element : Writer Char α} {element' : Writer UInt8 β}
  {separator terminator : Writer Char Unit} {separator' terminator' : Writer UInt8 Unit}

theorem iteration_agrees (helement : Agrees R element element')
    (hseparator : Agrees Eq separator separator') (first : Bool) {a : α} {b : β} (hab : R a b)
    (buffer : Run Char) :
    iteration element' separator' first b (Utf8.encode buffer) =
      (iteration element separator first a buffer).encoded := by
  have hseparated : (if first then .succeed (Utf8.encode buffer)
      else separator' () (Utf8.encode buffer)) =
      (if first then .succeed buffer else separator () buffer : Writing Char Failure).encoded := by
    cases first with
    | true => rfl
    | false => exact hseparator () () rfl buffer
  simp only [iteration]
  rw [hseparated, ← Writing.andThen_encoded (helement a b hab)]
  symm
  apply Writing.andThen_encoded
  intro now
  simp only [Utf8.units_encode]
  split
  · rfl
  · rfl

theorem join_agrees (helement : Agrees R element element')
    (hseparator : Agrees Eq separator separator') (hterminator : Agrees Eq terminator terminator')
    (first : Bool) {values : List α} {values' : List β} (hvalues : List.Forall₂ R values values')
    (buffer : Run Char) :
    join element' separator' terminator' first values' (Utf8.encode buffer) =
      (join element separator terminator first values buffer).encoded := by
  induction hvalues generalizing first buffer with
  | nil => exact hterminator () () rfl buffer
  | @cons a b others others' hab _ ih =>
      simp only [join, iteration_agrees helement hseparator first hab]
      exact (Writing.andThen_encoded (ih false)).symm

theorem repetition_agrees (happendElement : element.AppendOnly)
    (happendSeparator : separator.AppendOnly) (happendTerminator : terminator.AppendOnly)
    (helement : Agrees R element element')
    (hseparator : Agrees Eq separator separator') (hterminator : Agrees Eq terminator terminator')
    (count : CountRange) :
    Agrees (List.Forall₂ R) (repetition element separator terminator count)
      (repetition element' separator' terminator' count) := by
  intro values values' hvalues buffer
  simp only [repetition, ← hvalues.length_eq, Utf8.units_encode,
    join_agrees helement hseparator hterminator true hvalues]
  split
  · exact (Writing.undoTo_encoded
      (prefix_join happendElement happendSeparator happendTerminator true values buffer)).symm
  · rfl

end Repetition

end Writer

/-! ## Grammars -/

mutual

/-- The counterpart writes the bytes of what the grammar writes. -/
theorem Grammar.Counterpart.write_agrees {α β : Type} {R : α → β → Prop}
    {grammar : Grammar Char α} {grammar' : Grammar UInt8 β} :
    Grammar.Counterpart R grammar grammar' → Writer.Agrees R grammar.write grammar'.write
  | .literal text => Writer.literal_agrees text
  | .run follows unbounded => Writer.run_agrees follows unbounded
  | .sequence same => same.write_agrees
  | .choice order same => Writer.choice_agrees same.writers_agree order
  | .repetition count sameElement sameSeparator sameTerminator =>
      Writer.repetition_agrees (Grammar.write_appendOnly _) (Grammar.write_appendOnly _)
        (Grammar.write_appendOnly _) sameElement.write_agrees sameSeparator.write_agrees
        sameTerminator.write_agrees count
  | .skip same => same.write_agrees
  | .convert same respects => Writer.convert_agrees same.write_agrees respects
  | .optional same => Writer.optional_agrees (Grammar.write_appendOnly _) same.write_agrees
  | .endOfInput => Writer.empty_agrees
  | .empty => Writer.empty_agrees
  | .integer t => Writer.integer_agrees t
  | .boolean => Writer.boolean_agrees

theorem Slots.Counterpart.write_agrees {types types' : List Type}
    {Q : Tuple types → Tuple types' → Prop} {slots : Slots Char types}
    {slots' : Slots UInt8 types'} :
    Slots.Counterpart Q slots slots' → Writer.Agrees Q slots.write slots'.write
  | .nil => Writer.empty_agrees
  | .keep sameFirst sameOthers => Writer.keep_agrees sameFirst.write_agrees sameOthers.write_agrees
  | .skip sameFirst sameOthers => Writer.skip_agrees sameFirst.write_agrees sameOthers.write_agrees

theorem Alternatives.Counterpart.writers_agree {α β : Type} {R : α → β → Prop}
    {alternatives : Alternatives Char α} {alternatives' : Alternatives UInt8 β} :
    Alternatives.Counterpart R alternatives alternatives' →
      List.Forall₂ (fun writer writer' => writer.AppendOnly ∧ Writer.Agrees R writer writer')
        alternatives.writers alternatives'.writers
  | .nil => .nil
  | .cons sameFirst sameOthers =>
      .cons ⟨Grammar.write_appendOnly _, sameFirst.write_agrees⟩ sameOthers.writers_agree

end

end InvertibleGrammar
