import InvertibleGrammar.Proofs.BoundedRuns
import InvertibleGrammar.Proofs.FirstSuccess
import InvertibleGrammar.Proofs.MaximalRuns

/-!
# An optional part as a repetition

A part that may be absent is a repetition of at most one element, with no separator and
no terminator. The two read and write alike, except where the element uses nothing of the
input or writes nothing: there an optional part counts it as present, while a repetition
finds no value and refuses to write one.
-/

namespace InvertibleGrammar

namespace Writing

variable {σ ε : Type}

/-- A check that looks at the buffer only does nothing to a writing that passes it. -/
theorem andThen_of_passed {writing : Writing σ ε} {next : Run σ → Writing σ ε}
    (h : writing.result = .ok () → next writing.buffer = .succeed writing.buffer) :
    writing.andThen next = writing := by
  cases hr : writing.result with
  | error cause => exact andThen_of_error hr next
  | ok _ =>
      calc
        writing.andThen next = writing.andThen succeed := by simp only [andThen, hr, h hr]
        _ = writing := andThen_succeed writing

/-- A writing that fails behind what it wrote leaves the buffer as it was when it is undone. -/
theorem undoTo_refusedFor [Symbol σ] {writing : Writing σ ε} {cause : ε} {buffer : Run σ}
    (hresult : writing.result = .error cause) (hbuffer : buffer <+: writing.buffer) :
    (writing.undoTo buffer.units).RefusedFor cause buffer := by
  simp only [undoTo, hresult, Run.truncate_of_prefix hbuffer]
  exact ⟨rfl, rfl⟩

end Writing

namespace Grammar

variable {σ α : Type} [Symbol σ]

/-! ## Writing -/

section Writing

variable {element : Grammar σ α} {value : α} {buffer : Run σ}

/-- One value is written as the element writes it. Nothing follows but the look at whether
something was written. -/
theorem write_counted_singleton :
    (counted element (.atMost 1)).write [value] buffer =
      ((element.write value buffer).andThen fun now =>
        if now.units = buffer.units then .fail (.unrepresentable "repetition progress") now
        else .succeed now).undoTo buffer.units := by
  have hcount : (CountRange.atMost 1).contains [value].length = true := rfl
  simp only [counted, write, Writer.repetition, hcount, if_true, Writer.join, Writer.iteration,
    Writing.succeed_andThen]
  exact congrArg (Writing.undoTo buffer.units) (Writing.andThen_succeed _)

/-- An element that writes something, or is refused, is written in either form alike. -/
theorem write_optional_eq_counted (h : ¬ (element.write value buffer).Leaves buffer) :
    (optional element).write (some value) buffer =
      (counted element (.atMost 1)).write [value] buffer := by
  have hpassed : (element.write value buffer).result = .ok () →
      (if (element.write value buffer).buffer.units = buffer.units then
        .fail (.unrepresentable "repetition progress") (element.write value buffer).buffer
      else .succeed (element.write value buffer).buffer : Writing σ Failure) =
        .succeed (element.write value buffer).buffer := by
    intro hresult
    apply if_neg
    intro hunits
    apply h
    obtain ⟨output, houtput⟩ := element.write_appendOnly.prefix_buffer value buffer
    rw [← houtput, Run.units_append, Nat.add_eq_left, Run.units_eq_zero_iff] at hunits
    rw [hunits, List.append_nil] at houtput
    exact ⟨hresult, houtput.symm⟩
  rw [write_counted_singleton, Writing.andThen_of_passed hpassed]
  rfl

/-- An element that writes nothing is refused as a repetition, for lack of progress. -/
theorem write_counted_refusedFor (h : (element.write value buffer).Leaves buffer) :
    ((counted element (.atMost 1)).write [value] buffer).RefusedFor
      (.unrepresentable "repetition progress") buffer := by
  rw [write_counted_singleton]
  apply Writing.undoTo_refusedFor
  · simp only [Writing.andThen, h.1, h.2, if_true, Writing.fail]
  · simp only [Writing.andThen, h.1, h.2, if_true, Writing.fail]
    exact List.prefix_rfl

end Writing

/-! ## Reading -/

variable [DecidableEq σ] {element : Grammar σ α} {value : α} {input : Run σ}

/-- An element that uses nothing is not counted as a value. -/
theorem counted_yields_nil_of_idle (h : (element.read input).Yields value input) (max : UInt64) :
    ((counted element (.atMost max)).read input).Yields [] input := by
  rw [counted_atMost_yields_iff]
  refine ⟨.done, Nat.zero_le _, Reader.stops_empty_iff.mpr ?_⟩
  exact Or.inr (Or.inr ⟨value, input, h, Nat.lt_irrefl _⟩)

/-- An element that uses something, or fails, is read in either form alike. -/
theorem exists_optional_yields_counted (h : ∀ value, ¬ (element.read input).Yields value input) :
    ∃ found rest, ((optional element).read input).Yields found rest ∧
      ((counted element (.atMost 1)).read input).Yields found.toList rest := by
  by_cases hfails : (element.read input).Fails
  · refine ⟨none, input, Reader.optional_yields_none_iff.mpr ⟨hfails, rfl⟩, ?_⟩
    rw [counted_atMost_yields_iff]
    exact ⟨.done, Nat.zero_le _, Reader.stops_empty_iff.mpr (Or.inr (Or.inl hfails))⟩
  · obtain ⟨value, rest, hvalue⟩ := Reading.exists_yields_of_not_fails hfails
    have htail : rest <:+ input := by
      rw [← hvalue.2]
      exact element.read_leavesTail input
    have hprogress : rest.units < input.units := by
      apply Nat.lt_of_not_le
      intro hidle
      obtain rfl := Run.eq_of_suffix htail hidle
      exact h value hvalue
    refine ⟨some value, rest, Reader.optional_yields_some_iff.mpr hvalue, ?_⟩
    rw [counted_atMost_yields_iff]
    have hstep : (Reader.iteration element.read Reader.empty 0 input).Yields value rest :=
      Reader.iteration_empty_yields_iff.mpr hvalue
    exact ⟨.more hstep hprogress .done, Nat.le_refl 1, Or.inl (Nat.le_refl 1)⟩

/-- An optional part and a repetition of at most one element read corresponding values and
leave the same rest, unless the element can be read without using anything: that counts as
a value for the optional part only. Either writes nothing for no value. A value is written
alike in either form, unless it writes nothing: then the repetition refuses it. -/
theorem optional_agrees_with_one (element : Grammar σ α) :
    (∀ input, (∀ value, ¬ (element.read input).Yields value input) →
      ∃ found rest, ((optional element).read input).Yields found rest ∧
        ((counted element (.atMost 1)).read input).Yields found.toList rest) ∧
    (∀ input value, (element.read input).Yields value input →
      ((optional element).read input).Yields (some value) input ∧
        ((counted element (.atMost 1)).read input).Yields [] input) ∧
    (∀ buffer, ((optional element).write none buffer).Leaves buffer ∧
      ((counted element (.atMost 1)).write [] buffer).Leaves buffer) ∧
    (∀ value buffer, ¬ (element.write value buffer).Leaves buffer →
      (optional element).write (some value) buffer =
          (counted element (.atMost 1)).write [value] buffer ∧
        ∀ cause, ((optional element).write (some value) buffer).result = .error cause →
          ((optional element).write (some value) buffer).buffer = buffer) ∧
    ∀ value buffer, (element.write value buffer).Leaves buffer →
      ((optional element).write (some value) buffer).Leaves buffer ∧
        ((counted element (.atMost 1)).write [value] buffer).RefusedFor
          (.unrepresentable "repetition progress") buffer := by
  refine ⟨fun _ => exists_optional_yields_counted, ?_, ?_, ?_, ?_⟩
  · intro input value h
    exact ⟨Reader.optional_yields_some_iff.mpr h, counted_yields_nil_of_idle h 1⟩
  · intro buffer
    exact ⟨⟨rfl, rfl⟩, ⟨rfl, rfl⟩⟩
  · intro value buffer h
    exact ⟨write_optional_eq_counted h,
      fun _ => buffer_of_write_error (optional element) rfl⟩
  · intro value buffer h
    exact ⟨Writing.undoTo_leaves_iff.mpr h, write_counted_refusedFor h⟩

/-- A run of digits, which may have no digit at all. -/
def digitRun : Grammar Char (Run Char) := runOf Char.isDigit

/-- Before the letter stands a run without digits. The optional part finds it and writes it,
and the repetition does neither. -/
theorem optional_agrees_with_one_digitRun :
    (digitRun.read ['a']).Yields [] ['a'] ∧
      ((optional digitRun).read ['a']).Yields (some []) ['a'] ∧
      ((counted digitRun (.atMost 1)).read ['a']).Yields [] ['a'] ∧
      (∀ value, ¬ (digitRun.read "12a".toList).Yields value "12a".toList) ∧
      (∃ found rest, ((optional digitRun).read "12a".toList).Yields found rest ∧
        ((counted digitRun (.atMost 1)).read "12a".toList).Yields found.toList rest) ∧
      (digitRun.write [] ['=']).Leaves ['='] ∧
      ((counted digitRun (.atMost 1)).write [[]] ['=']).RefusedFor
        (.unrepresentable "repetition progress") ['='] ∧
      ¬ (digitRun.write ['x'] ['=']).Leaves ['='] ∧
      (optional digitRun).write (some ['x']) ['='] =
        (counted digitRun (.atMost 1)).write [['x']] ['='] ∧
      ((optional digitRun).write (some ['x']) ['=']).buffer = ['='] := by
  obtain ⟨hread, hidle, _, hwrite, hsilent⟩ := optional_agrees_with_one digitRun
  have hnone : (digitRun.read ['a']).Yields [] ['a'] := ⟨rfl, rfl⟩
  have hsome : (digitRun.read "12a".toList).Yields ['1', '2'] ['a'] := ⟨rfl, rfl⟩
  have hprogress (value : Run Char) : ¬ (digitRun.read "12a".toList).Yields value "12a".toList := by
    intro h
    cases (h.unique hsome).2
  have hempty : (digitRun.write [] ['=']).Leaves ['='] := ⟨rfl, rfl⟩
  have hletter : ¬ (digitRun.write ['x'] ['=']).Leaves ['='] := by
    rintro ⟨h, _⟩
    cases h
  exact ⟨hnone, (hidle _ _ hnone).1, (hidle _ _ hnone).2, hprogress, hread _ hprogress, hempty,
    (hsilent _ _ hempty).2, hletter, (hwrite _ _ hletter).1, (hwrite _ _ hletter).2 _ rfl⟩

end Grammar

end InvertibleGrammar
