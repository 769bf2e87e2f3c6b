import InvertibleGrammar.Proofs.Parts

/-!
# Refused writings

What a refused value leaves in the buffer is decided by the grammar below its
conversions and skips. A sequence leaves the output of the slots before the one
refused and whatever that one leaves. Every other grammar leaves the buffer as it
was, whatever its parts had written before they were refused.
-/

namespace InvertibleGrammar

/-- Changing the cause does not turn a success into a refusal. -/
theorem Writing.error_of_mapCause_error {σ ε ε' : Type} {writing : Writing σ ε} {f : ε → ε'}
    {cause : ε'} (h : (writing.mapCause f).result = .error cause) :
    ∃ before, writing.result = .error before := by
  cases writing with
  | mk result buffer log =>
      cases result with
      | ok _ => cases h
      | error before => exact ⟨before, rfl⟩

namespace Writer

variable {σ α : Type} [Symbol σ]

/-- A refused writing that is undone leaves what stood in the buffer before it. -/
theorem undoTo_buffer_of_error {ε : Type} {writing : Writing σ ε} {buffer : Run σ} {cause : ε}
    (hbuffer : buffer <+: writing.buffer)
    (h : (writing.undoTo buffer.units).result = .error cause) :
    (writing.undoTo buffer.units).buffer = buffer := by
  cases hr : writing.result with
  | ok _ => simp [Writing.undoTo, hr] at h
  | error refusal => simp [Writing.undoTo, hr, Run.truncate_of_prefix hbuffer]

/-- After the last attempt of a choice the buffer is what it was before the first. -/
theorem attempts_buffer_of_error {value : α} {mark : Run σ} {writers : List (Writer σ α × Nat)}
    (happend : ∀ entry ∈ writers, entry.1.AppendOnly) {causes : List Failure}
    (h : (attempts value mark.units writers mark).result = .error causes) :
    (attempts value mark.units writers mark).buffer = mark := by
  induction writers generalizing causes with
  | nil => rfl
  | cons entry others ih =>
      obtain ⟨writer, index⟩ := entry
      have hwriter : writer.AppendOnly := happend (writer, index) (by simp)
      have hcut : Run.truncate mark.units (writer value mark).buffer = mark :=
        Run.truncate_of_prefix (hwriter.prefix_buffer value mark)
      cases hr : (writer value mark).result with
      | ok _ => simp [attempts, hr] at h
      | error cause =>
          simp only [attempts, hr, hcut] at h ⊢
          obtain ⟨later, hlater⟩ := Writing.error_of_mapCause_error h
          exact ih (fun entry hentry => happend entry (by simp [hentry])) hlater

theorem choice_buffer_of_error {writers : List (Writer σ α)} {order : PrintOrder} {value : α}
    {buffer : Run σ} {cause : Failure} (happend : ∀ writer ∈ writers, writer.AppendOnly)
    (h : (choice writers order value buffer).result = .error cause) :
    (choice writers order value buffer).buffer = buffer := by
  have harranged : ∀ entry ∈ order.arrange writers.zipIdx, entry.1.AppendOnly := by
    intro entry hentry
    exact happend entry.1 (List.fst_mem_of_mem_zipIdx (order.mem_arrange.mp hentry))
  obtain ⟨causes, hcauses⟩ := Writing.error_of_mapCause_error h
  exact attempts_buffer_of_error harranged hcauses

theorem optional_buffer_of_error {inner : Writer σ α} {value : Option α} {buffer : Run σ}
    {cause : Failure} (happend : inner.AppendOnly)
    (h : (optional inner value buffer).result = .error cause) :
    (optional inner value buffer).buffer = buffer := by
  cases value with
  | none => rfl
  | some value => exact undoTo_buffer_of_error (happend.prefix_buffer value buffer) h

theorem repetition_buffer_of_error {element : Writer σ α} {separator terminator : Writer σ Unit}
    {count : CountRange} {values : List α} {buffer : Run σ} {cause : Failure}
    (helement : element.AppendOnly) (hseparator : separator.AppendOnly)
    (hterminator : terminator.AppendOnly)
    (h : (repetition element separator terminator count values buffer).result = .error cause) :
    (repetition element separator terminator count values buffer).buffer = buffer := by
  have hjoin := prefix_join helement hseparator hterminator true values buffer
  simp only [repetition] at h ⊢
  by_cases hcount : count.contains values.length = true
  · rw [if_pos hcount] at h ⊢
    exact undoTo_buffer_of_error hjoin h
  · rw [if_neg hcount]
    rfl

omit [Symbol σ] in
theorem run_buffer_of_error {accepts : σ → Bool} {length : CountRange} {value buffer : Run σ}
    {cause : Failure} (h : (run accepts length value buffer).result = .error cause) :
    (run accepts length value buffer).buffer = buffer := by
  simp only [run] at h ⊢
  by_cases haccepts : (!value.all accepts) = true
  · rw [if_pos haccepts]
    rfl
  · rw [if_neg haccepts] at h ⊢
    by_cases hlength : (!length.contains value.length) = true
    · rw [if_pos hlength]
      rfl
    · rw [if_neg hlength] at h
      cases h

end Writer

namespace Grammar

variable {σ : Type}

/-- Whether the grammar below all conversions and skips is a sequence. -/
def wrapsSequence {α : Type} : Grammar σ α → Bool
  | sequence _ => true
  | skip inner => inner.wrapsSequence
  | convert inner _ => inner.wrapsSequence
  | _ => false

/-- The grammar below all conversions and skips, with the value converted back for it. -/
def unwrap {α : Type} : Grammar σ α → α → Except Failure (Part σ)
  | skip inner, value => inner.unwrap value
  | convert inner conversion, value =>
      match conversion.unapply value with
      | .ok before => inner.unwrap before
      | .error cause => .error cause
  | grammar, value => .ok ⟨grammar, value⟩

variable [Symbol σ]

/-- A grammar writes as what it wraps, and writes nothing if a conversion refuses the value. -/
theorem write_eq_unwrap {α : Type} : (grammar : Grammar σ α) → (value : α) → (buffer : Run σ) →
    grammar.write value buffer =
      match grammar.unwrap value with
      | .ok part => part.write buffer
      | .error cause => .fail cause buffer
  | skip inner, value, buffer => by
      simp only [write, unwrap]
      exact inner.write_eq_unwrap value buffer
  | convert inner conversion, value, buffer => by
      simp only [write, unwrap, Writer.convert]
      cases conversion.unapply value with
      | ok before => exact inner.write_eq_unwrap before buffer
      | error cause => rfl
  | literal _, _, _ => rfl
  | run _ _, _, _ => rfl
  | sequence _, _, _ => rfl
  | choice _ _, _, _ => rfl
  | repetition _ _ _ _, _, _ => rfl
  | optional _, _, _ => rfl
  | endOfInput, _, _ => rfl
  | empty, _, _ => rfl
  | integer _, _, _ => rfl
  | boolean, _, _ => rfl

/-- A grammar that wraps no sequence leaves the buffer as it was. -/
theorem buffer_of_write_error {α : Type} : (grammar : Grammar σ α) →
    grammar.wrapsSequence = false → {value : α} → {buffer : Run σ} → {cause : Failure} →
    (grammar.write value buffer).result = .error cause →
    (grammar.write value buffer).buffer = buffer
  | sequence _, hwraps, _, _, _, _ => by cases hwraps
  | skip inner, hwraps, _, _, _, h => inner.buffer_of_write_error hwraps h
  | convert inner conversion, hwraps, value, buffer, cause, h => by
      simp only [write, Writer.convert] at h ⊢
      cases hunapply : conversion.unapply value with
      | ok before =>
          rw [hunapply] at h
          exact inner.buffer_of_write_error hwraps h
      | error refusal => rfl
  | run _ _, _, _, _, _, h => Writer.run_buffer_of_error h
  | choice alternatives _, _, _, _, _, h =>
      Writer.choice_buffer_of_error alternatives.writers_appendOnly h
  | repetition element separator terminator _, _, _, _, _, h =>
      Writer.repetition_buffer_of_error element.write_appendOnly separator.write_appendOnly
        terminator.write_appendOnly h
  | optional inner, _, _, _, _, h => Writer.optional_buffer_of_error inner.write_appendOnly h
  | literal _, _, _, _, _, h => by cases h
  | endOfInput, _, _, _, _, _ => rfl
  | empty, _, _, _, _, _ => rfl
  | integer _, _, _, _, _, h => by cases h
  | boolean, _, _, _, _, h => by cases h

/-- What a refused value leaves in the buffer: nothing, if no sequence stands below the
conversions and skips or if one of the conversions refuses the value; else the outputs of
the slots before the first one refused, then what that slot leaves. The cause is that
slot's own, and the whole writing is that of the slots up to it. -/
theorem write_refused {α : Type} (grammar : Grammar σ α) (value : α) (buffer : Run σ)
    (cause : Failure) (h : (grammar.write value buffer).result = .error cause) :
    (grammar.wrapsSequence = false → (grammar.write value buffer).buffer = buffer) ∧
      (∀ (types : List Type) (slots : Slots σ types) (tuple : Tuple types),
        grammar.unwrap value = .ok ⟨sequence slots, tuple⟩ →
        ∃ earlier part later, slots.parts tuple = earlier ++ part :: later ∧
          (∀ other ∈ earlier, other.Accepted) ∧
          (part.write (buffer ++ earlier.flatMap Part.output)).result = .error cause ∧
          (grammar.write value buffer).buffer =
            buffer ++ earlier.flatMap Part.output ++ part.output ∧
          grammar.write value buffer = Part.writeAll (earlier ++ [part]) buffer) ∧
      (∀ refusal, grammar.unwrap value = .error refusal →
        cause = refusal ∧ (grammar.write value buffer).buffer = buffer) := by
  have hwrite := grammar.write_eq_unwrap value buffer
  refine ⟨fun hwraps => grammar.buffer_of_write_error hwraps h, ?_, ?_⟩
  · intro types slots tuple hunwrap
    have hparts : grammar.write value buffer = Part.writeAll (slots.parts tuple) buffer := by
      rw [hwrite, hunwrap]
      exact slots.write_eq_writeAll tuple buffer
    rw [hparts] at h ⊢
    obtain ⟨earlier, part, later, hsplit, hearlier, hpart, hstop⟩ :=
      Part.exists_of_writeAll_error h
    refine ⟨earlier, part, later, hsplit, hearlier, ?_, ?_, hstop⟩
    · rw [part.write_result, hpart]
    · rw [hstop]
      exact Part.writeAll_buffer_of_refused part hearlier buffer
  · intro refusal hunwrap
    rw [hwrite, hunwrap] at h ⊢
    exact ⟨(Except.error.inj h).symm, rfl⟩

/-- A name and the digits assigned to it. -/
def assignmentSlots : Slots Char [Run Char, Run Char] :=
  .keep (.runOf Char.isAlpha) (.skip (.text "=") (.keep (.runOf Char.isDigit) .nil))

/-- An assignment whose value has the digits first. -/
def assignment : Grammar Char (Run Char × Run Char) :=
  .convert (.sequence assignmentSlots) (.total Prod.swap Prod.swap)

/-- The name and the equals sign stay before the letter that is no digit is refused. -/
theorem write_refused_assignment :
    (assignment.write (['x'], ['k']) ['n', ':']).result =
        .error (.unrepresentable "prefix predicate") ∧
      (assignment.write (['x'], ['k']) ['n', ':']).buffer = ['n', ':', 'k', '='] ∧
      ∃ earlier part later,
        assignmentSlots.parts (['k'], ['x']) = earlier ++ part :: later ∧
        (∀ other ∈ earlier, other.Accepted) ∧
        (part.write (['n', ':'] ++ earlier.flatMap Part.output)).result =
          .error (.unrepresentable "prefix predicate") ∧
        (assignment.write (['x'], ['k']) ['n', ':']).buffer =
          ['n', ':'] ++ earlier.flatMap Part.output ++ part.output ∧
        assignment.write (['x'], ['k']) ['n', ':'] =
          Part.writeAll (earlier ++ [part]) ['n', ':'] := by
  have hrefused : (assignment.write (['x'], ['k']) ['n', ':']).result =
      .error (.unrepresentable "prefix predicate") := by rfl
  refine ⟨hrefused, by rfl, ?_⟩
  exact (write_refused assignment _ _ _ hrefused).2.1 _ assignmentSlots (['k'], ['x']) rfl

end Grammar

end InvertibleGrammar
