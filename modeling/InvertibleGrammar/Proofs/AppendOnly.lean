import InvertibleGrammar.Grammar.Directions

/-!
# Writing only appends

What a writing does is the same after every buffer: the buffer stays in front,
and the result, the appended run and the events are those of a writing into an
empty buffer. A failure is undone by cutting the buffer back to a length, which
is right just because no part of a writing ever shortens what it was given.
-/

namespace InvertibleGrammar

/-- Cutting back to the length of what stands in front gives that back. -/
theorem Run.truncate_of_prefix {σ : Type} [Symbol σ] {mark buffer : Run σ} (h : mark <+: buffer) :
    truncate mark.units buffer = mark := by
  obtain ⟨output, houtput⟩ := h
  rw [← houtput]
  exact truncate_append mark output

namespace Writing

variable {σ ε : Type}

/-- The same writing with a run in front of everything in the buffer. -/
def after (before : Run σ) (writing : Writing σ ε) : Writing σ ε :=
  ⟨writing.result, before ++ writing.buffer, writing.log⟩

@[simp] theorem after_result (before : Run σ) (writing : Writing σ ε) :
    (writing.after before).result = writing.result := rfl

@[simp] theorem after_buffer (before : Run σ) (writing : Writing σ ε) :
    (writing.after before).buffer = before ++ writing.buffer := rfl

@[simp] theorem after_log (before : Run σ) (writing : Writing σ ε) :
    (writing.after before).log = writing.log := rfl

theorem after_append (a b : Run σ) (writing : Writing σ ε) :
    writing.after (a ++ b) = (writing.after b).after a := by
  simp [after]

theorem succeed_after (before buffer : Run σ) :
    (succeed (before ++ buffer) : Writing σ ε) = (succeed buffer).after before := rfl

theorem fail_after (cause : ε) (before buffer : Run σ) :
    fail cause (before ++ buffer) = (fail cause buffer).after before := rfl

/-- Going on after a run stays in front if each of the two steps leaves it there. -/
theorem andThen_after {before : Run σ} {next next' : Run σ → Writing σ ε}
    (h : ∀ buffer, next (before ++ buffer) = (next' buffer).after before)
    (writing : Writing σ ε) :
    (writing.after before).andThen next = (writing.andThen next').after before := by
  cases hr : writing.result with
  | ok _ => simp [andThen, hr, h, after]
  | error cause => simp [andThen, hr, after]

/-- Cutting back to the length of what stands in front leaves nothing else. -/
theorem undoTo_after [Symbol σ] (before : Run σ) (writing : Writing σ ε) :
    (writing.after before).undoTo before.units = (writing.undoTo 0).after before := by
  cases hr : writing.result with
  | ok _ => simp [undoTo, hr]
  | error cause =>
      have hcut : Run.truncate 0 writing.buffer = [] := Run.truncate_append [] writing.buffer
      simp [undoTo, hr, after, hcut, Run.truncate_append]

end Writing

namespace Writer

variable {σ α β : Type}

/-- Writing after a buffer does what it does after none, behind the buffer. -/
def AppendOnly (writer : Writer σ α) : Prop :=
  ∀ value buffer, writer value buffer = (writer value []).after buffer

theorem AppendOnly.after {writer : Writer σ α} (h : writer.AppendOnly) (value : α)
    (a b : Run σ) : writer value (a ++ b) = (writer value b).after a := by
  rw [h value (a ++ b), h value b, Writing.after_append]

/-- What stood in the buffer stays in front. -/
theorem AppendOnly.prefix_buffer {writer : Writer σ α} (h : writer.AppendOnly) (value : α)
    (buffer : Run σ) : buffer <+: (writer value buffer).buffer := by
  rw [h value buffer]
  exact List.prefix_append buffer _

/-! ## Leaves -/

/-- A writer that appends a form of the value only appends. -/
theorem appendOnly_of_form {writer : Writer σ α} {form : α → Run σ}
    (h : ∀ value buffer, writer value buffer = .succeed (buffer ++ form value)) :
    writer.AppendOnly := by
  intro value buffer
  rw [h value buffer, h value []]
  rfl

theorem appendOnly_empty : (empty : Writer σ Unit).AppendOnly := by
  intro value buffer
  simp [empty, Writing.succeed, Writing.after]

theorem appendOnly_literal (text : Run σ) : (literal text).AppendOnly :=
  appendOnly_of_form fun _ _ => rfl

theorem appendOnly_boolean [Symbol σ] : (boolean : Writer σ Bool).AppendOnly :=
  appendOnly_of_form fun _ _ => rfl

theorem appendOnly_integer [Symbol σ] (t : IntType) :
    (integer t : Writer σ t.Value).AppendOnly :=
  appendOnly_of_form fun _ _ => rfl

theorem appendOnly_run (accepts : σ → Bool) (length : CountRange) :
    (run accepts length).AppendOnly := by
  intro value buffer
  simp only [run]
  split
  · simp [Writing.fail, Writing.after]
  · split
    · simp [Writing.fail, Writing.after]
    · simp [Writing.succeed, Writing.after]

/-! ## Sequences -/

theorem appendOnly_keep {types : List Type} {first : Writer σ α}
    {others : Writer σ (Tuple types)} (hfirst : first.AppendOnly) (hothers : others.AppendOnly) :
    (keep first others).AppendOnly := by
  intro tuple buffer
  simp only [keep]
  rw [hfirst tuple.head buffer]
  exact Writing.andThen_after (hothers.after tuple.tail buffer) _

theorem appendOnly_skip {first : Writer σ Unit} {others : Writer σ α}
    (hfirst : first.AppendOnly) (hothers : others.AppendOnly) :
    (skip first others).AppendOnly := by
  intro value buffer
  simp only [skip]
  rw [hfirst () buffer]
  exact Writing.andThen_after (hothers.after value buffer) _

theorem appendOnly_convert {inner : Writer σ α} (hinner : inner.AppendOnly)
    (conversion : Conversion α β) : (convert inner conversion).AppendOnly := by
  intro value buffer
  simp only [convert]
  cases conversion.unapply value with
  | ok before => exact hinner before buffer
  | error cause => simp [Writing.fail, Writing.after]

/-! ## Choice -/

section Choice

variable [Symbol σ]

/-- Each attempt starts on what stood in the buffer when the length was noted. -/
theorem attempts_after {value : α} (mark : Run σ) {writers : List (Writer σ α × Nat)}
    (h : ∀ entry ∈ writers, entry.1.AppendOnly) :
    attempts value mark.units writers mark = (attempts value 0 writers []).after mark := by
  induction writers with
  | nil => simp [attempts, Writing.fail, Writing.after]
  | cons entry others ih =>
      obtain ⟨writer, index⟩ := entry
      have hwriter : writer.AppendOnly := h (writer, index) (by simp)
      have hothers := ih fun entry hentry => h entry (by simp [hentry])
      have hcut : Run.truncate 0 (writer value []).buffer = [] :=
        Run.truncate_append [] (writer value []).buffer
      simp only [attempts, hwriter value mark, Writing.after_result, Writing.after_buffer,
        Writing.after_log, Run.truncate_append, hcut]
      cases (writer value []).result with
      | ok _ => rfl
      | error cause => simp only [hothers]; rfl

theorem appendOnly_choice {writers : List (Writer σ α)}
    (h : ∀ writer ∈ writers, writer.AppendOnly) (order : PrintOrder) :
    (choice writers order).AppendOnly := by
  intro value buffer
  have harranged : ∀ entry ∈ order.arrange writers.zipIdx, entry.1.AppendOnly := by
    intro entry hentry
    exact h entry.1 (List.fst_mem_of_mem_zipIdx (order.mem_arrange.mp hentry))
  simp only [choice]
  rw [attempts_after buffer harranged]
  rfl

theorem appendOnly_optional {inner : Writer σ α} (hinner : inner.AppendOnly) :
    (optional inner).AppendOnly := by
  intro value buffer
  cases value with
  | none => simp [optional, Writing.succeed, Writing.after]
  | some value =>
      simp only [optional]
      rw [hinner value buffer, Writing.undoTo_after]
      rfl

end Choice

/-! ## Repetition -/

section Repetition

variable [Symbol σ] {element : Writer σ α} {separator terminator : Writer σ Unit}

/-- Whether an iteration wrote something does not depend on what came before it. -/
theorem iteration_after (helement : element.AppendOnly) (hseparator : separator.AppendOnly)
    (first : Bool) (value : α) (a b : Run σ) :
    iteration element separator first value (a ++ b) =
      (iteration element separator first value b).after a := by
  have hseparated : (if first then .succeed (a ++ b) else separator () (a ++ b)) =
      (if first then .succeed b else separator () b : Writing σ Failure).after a := by
    cases first with
    | true => rfl
    | false => exact hseparator.after () a b
  simp only [iteration]
  rw [hseparated, Writing.andThen_after (helement.after value a)]
  apply Writing.andThen_after
  intro now
  by_cases hprogress : now.units = b.units
  · simp [hprogress, Writing.fail_after]
  · simp [hprogress, Writing.succeed_after]

theorem join_after (helement : element.AppendOnly) (hseparator : separator.AppendOnly)
    (hterminator : terminator.AppendOnly) (first : Bool) (values : List α) (a b : Run σ) :
    join element separator terminator first values (a ++ b) =
      (join element separator terminator first values b).after a := by
  induction values generalizing first b with
  | nil => exact hterminator.after () a b
  | cons value others ih =>
      simp only [join]
      rw [iteration_after helement hseparator, Writing.andThen_after]
      exact ih false

/-- A join keeps what stood in the buffer in front. -/
theorem prefix_join (helement : element.AppendOnly) (hseparator : separator.AppendOnly)
    (hterminator : terminator.AppendOnly) (first : Bool) (values : List α) (buffer : Run σ) :
    buffer <+: (join element separator terminator first values buffer).buffer := by
  have hafter := join_after helement hseparator hterminator first values buffer []
  rw [List.append_nil] at hafter
  rw [hafter]
  exact List.prefix_append buffer _

theorem appendOnly_repetition (helement : element.AppendOnly) (hseparator : separator.AppendOnly)
    (hterminator : terminator.AppendOnly) (count : CountRange) :
    (repetition element separator terminator count).AppendOnly := by
  intro values buffer
  simp only [repetition]
  split
  · have hjoin := join_after helement hseparator hterminator true values buffer []
    rw [List.append_nil] at hjoin
    rw [hjoin, Writing.undoTo_after]
    rfl
  · simp [Writing.fail, Writing.after]

end Repetition

end Writer

/-! ## Grammars -/

variable {σ : Type} [Symbol σ]

mutual

/-- Every grammar writes the same after any buffer. -/
theorem Grammar.write_appendOnly {α : Type} : (grammar : Grammar σ α) → grammar.write.AppendOnly
  | .literal text => Writer.appendOnly_literal text
  | .run accepts length => Writer.appendOnly_run accepts length
  | .sequence slots => slots.write_appendOnly
  | .choice alternatives order =>
      Writer.appendOnly_choice alternatives.writers_appendOnly order
  | .repetition element separator terminator count =>
      Writer.appendOnly_repetition element.write_appendOnly separator.write_appendOnly
        terminator.write_appendOnly count
  | .skip inner => inner.write_appendOnly
  | .convert inner conversion => Writer.appendOnly_convert inner.write_appendOnly conversion
  | .optional inner => Writer.appendOnly_optional inner.write_appendOnly
  | .endOfInput => Writer.appendOnly_empty
  | .empty => Writer.appendOnly_empty
  | .integer t => Writer.appendOnly_integer t
  | .boolean => Writer.appendOnly_boolean

theorem Slots.write_appendOnly {types : List Type} :
    (slots : Slots σ types) → slots.write.AppendOnly
  | .nil => Writer.appendOnly_empty
  | .keep first others =>
      Writer.appendOnly_keep first.write_appendOnly others.write_appendOnly
  | .skip first others =>
      Writer.appendOnly_skip first.write_appendOnly others.write_appendOnly

theorem Alternatives.writers_appendOnly {α : Type} : (alternatives : Alternatives σ α) →
    ∀ writer ∈ alternatives.writers, writer.AppendOnly
  | .nil, _, h => absurd h List.not_mem_nil
  | .cons first others, writer, h => by
      rcases List.mem_cons.mp h with rfl | h
      · exact first.write_appendOnly
      · exact others.writers_appendOnly writer h

end

end InvertibleGrammar
