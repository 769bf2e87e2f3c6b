import InvertibleGrammar.Proofs.FailedWriting
import InvertibleGrammar.Proofs.RoundTrip

/-!
# Writing as a checked join

A repetition is written if some checks succeed that are made in a fixed order: the number
of values is allowed, then for each iteration the separator and the element can be written
and print something together, and at the end the terminator can be written. The first
check that fails gives the cause. If none does, the outputs of the values stand in the
buffer with the separator between them, and the terminator behind them.
-/

namespace InvertibleGrammar

/-! ## Checks in order -/

section Checks

variable {ε : Type}

/-- Checks made in order succeed if each of them does. -/
theorem forM_eq_ok_iff {checks : List (Except ε Unit)} :
    checks.forM id = .ok () ↔ ∀ check ∈ checks, check = .ok () := by
  induction checks with
  | nil => exact ⟨fun _ _ h => absurd h List.not_mem_nil, fun _ => rfl⟩
  | cons check later ih =>
      rw [List.forall_mem_cons, ← ih]
      cases check with
      | ok _ =>
          change later.forM id = .ok () ↔ _
          exact (and_iff_right rfl).symm
      | error cause =>
          constructor
          · intro h
            cases h
          · rintro ⟨h, _⟩
            cases h

/-- Checks made in order fail for the cause of the first that fails. -/
theorem forM_eq_error_iff {checks : List (Except ε Unit)} {cause : ε} :
    checks.forM id = .error cause ↔ ∃ passed later,
      checks = passed ++ .error cause :: later ∧ ∀ check ∈ passed, check = .ok () := by
  induction checks with
  | nil =>
      constructor
      · intro h
        cases h
      · rintro ⟨passed, later, hsplit, _⟩
        exact absurd hsplit (by simp)
  | cons check others ih =>
      cases check with
      | error met =>
          constructor
          · intro h
            obtain rfl : met = cause := Except.error.inj h
            exact ⟨[], others, rfl, by simp⟩
          · rintro ⟨passed, later, hsplit, hpassed⟩
            cases passed with
            | nil => exact (List.cons.inj hsplit).1
            | cons first passed =>
                have hfirst := hpassed first List.mem_cons_self
                rw [← (List.cons.inj hsplit).1] at hfirst
                cases hfirst
      | ok _ =>
          change others.forM id = .error cause ↔ _
          rw [ih]
          constructor
          · rintro ⟨passed, later, rfl, hpassed⟩
            exact ⟨.ok () :: passed, later, rfl, List.forall_mem_cons.mpr ⟨rfl, hpassed⟩⟩
          · rintro ⟨passed, later, hsplit, hpassed⟩
            cases passed with
            | nil => cases (List.cons.inj hsplit).1
            | cons first passed =>
                exact ⟨passed, later, (List.cons.inj hsplit).2,
                  (List.forall_mem_cons.mp hpassed).2⟩

end Checks

variable {σ : Type}

namespace Writing

variable {ε : Type}

/-- The writing succeeds if the checks do, and it then leaves `buffer`. Otherwise it is
refused for the cause of the first check that fails. -/
structure Checked (writing : Writing σ ε) (checks : List (Except ε Unit)) (buffer : Run σ) :
    Prop where
  result_eq : writing.result = checks.forM id
  buffer_eq : writing.result = .ok () → writing.buffer = buffer

/-- The checks of a step that comes next are made after those before it. -/
theorem Checked.andThen {writing : Writing σ ε} {next : Run σ → Writing σ ε}
    {checks later : List (Except ε Unit)} {middle buffer : Run σ}
    (h : writing.Checked checks middle) (hnext : (next middle).Checked later buffer) :
    (writing.andThen next).Checked (checks ++ later) buffer := by
  have happend : (checks ++ later).forM id = checks.forM id >>= fun _ => later.forM id :=
    List.forM_append
  cases hr : writing.result with
  | error cause =>
      have hfirst := h.result_eq
      rw [hr] at hfirst
      rw [andThen_of_error hr]
      constructor
      · rw [happend, ← hfirst, hr]
        rfl
      · intro hok
        cases hr.symm.trans hok
  | ok _ =>
      have hfirst := h.result_eq
      have hmiddle := h.buffer_eq hr
      rw [hr] at hfirst
      simp only [Writing.andThen, hr, hmiddle]
      refine ⟨?_, hnext.buffer_eq⟩
      rw [happend, ← hfirst]
      exact hnext.result_eq

theorem Checked.undoTo [Symbol σ] {writing : Writing σ ε} {checks : List (Except ε Unit)}
    {buffer : Run σ} (h : writing.Checked checks buffer) (length : Nat) :
    (writing.undoTo length).Checked checks buffer := by
  refine ⟨by rw [undoTo_result, h.result_eq], ?_⟩
  intro hok
  rw [undoTo_result] at hok
  simp only [Writing.undoTo, hok, h.buffer_eq hok]

end Writing

/-! ## Parts -/

namespace Part

variable [Symbol σ]

/-- Whether the part can be written. What stands in the buffer makes no difference. -/
def check (part : Part σ) : Except Failure Unit := (part.write []).result

theorem write_checked (part : Part σ) (buffer : Run σ) :
    (part.write buffer).Checked [part.check] (buffer ++ part.output) := by
  refine ⟨?_, fun _ => part.write_buffer buffer⟩
  rw [part.write_result, ← check]
  cases part.check with
  | ok _ => rfl
  | error cause => rfl

/-- Parts are written if each of them can be, and their outputs follow one another. -/
theorem writeAll_checked (parts : List (Part σ)) (buffer : Run σ) :
    (writeAll parts buffer).Checked (parts.map check) (buffer ++ parts.flatMap output) := by
  induction parts generalizing buffer with
  | nil => exact ⟨rfl, fun _ => (List.append_nil buffer).symm⟩
  | cons part others ih =>
      have hothers := ih (buffer ++ part.output)
      rw [List.append_assoc, ← List.flatMap_cons] at hothers
      exact (part.write_checked buffer).andThen hothers

/-- The checks of an iteration: its parts can be written, and they print something. -/
def iterationChecks (parts : List (Part σ)) : List (Except Failure Unit) :=
  parts.map check ++
    [if (parts.flatMap output).isEmpty then .error (.unrepresentable "repetition progress")
    else .ok ()]

end Part

section Repetition

variable {α : Type} [Symbol σ] {element : Grammar σ α} {separator terminator : Grammar σ Unit}

/-- An iteration writes its parts and then looks at what they printed. -/
theorem Part.iteration_eq (first : Bool) (value : α) (buffer : Run σ) :
    Writer.iteration element.write separator.write first value buffer =
      (writeAll (iteration element separator first value) buffer).andThen fun now =>
        if now.units = buffer.units then .fail (.unrepresentable "repetition progress") now
        else .succeed now := by
  have hlast (part : Part σ) : writeAll [part] = part.write :=
    funext fun now => Writing.andThen_succeed _
  cases first with
  | true =>
      simp only [Writer.iteration, iteration, if_true, Writing.succeed_andThen, hlast]
      rfl
  | false =>
      have hboth : writeAll [⟨separator, ()⟩, ⟨element, value⟩] buffer =
          (separator.write () buffer).andThen (element.write value) := by
        rw [writeAll, hlast]
        rfl
      simp only [Writer.iteration, iteration, Bool.false_eq_true, if_false, hboth]

theorem Part.iteration_checked (first : Bool) (value : α) (buffer : Run σ) :
    (Writer.iteration element.write separator.write first value buffer).Checked
      (iterationChecks (iteration element separator first value))
      (buffer ++ (iteration element separator first value).flatMap output) := by
  rw [iteration_eq]
  apply (writeAll_checked _ buffer).andThen
  cases hprinted : (iteration element separator first value).flatMap output with
  | nil =>
      rw [List.append_nil, if_pos rfl]
      exact ⟨rfl, fun _ => rfl⟩
  | cons symbol printed =>
      have hunits : (buffer ++ symbol :: printed).units ≠ buffer.units := by
        have hwidth := Symbol.width_pos symbol
        rw [Run.units_append, Run.units_cons]
        omega
      rw [if_neg hunits]
      exact ⟨rfl, fun _ => rfl⟩

variable (element separator terminator) in
/-- A join makes the checks of each iteration in turn, and that of the terminator. -/
theorem Part.join_checked (first : Bool) (values : List α) (buffer : Run σ) :
    (Writer.join element.write separator.write terminator.write first values buffer).Checked
      ((iterations element separator first values).flatMap iterationChecks ++
        [check ⟨terminator, ()⟩])
      (buffer ++ ((iterations element separator first values).flatten.flatMap output ++
        terminator.output ())) := by
  induction values generalizing first buffer with
  | nil => exact write_checked ⟨terminator, ()⟩ buffer
  | cons value others ih =>
      have hothers := ih false (buffer ++ (iteration element separator first value).flatMap output)
      simp only [iterations, List.flatMap_cons, List.flatten_cons, List.flatMap_append,
        List.append_assoc] at hothers ⊢
      exact (iteration_checked first value buffer).andThen hothers

/-- The checks of a repetition in the order in which they are made. -/
def Grammar.joinChecks (element : Grammar σ α) (separator terminator : Grammar σ Unit)
    (count : CountRange) (values : List α) : List (Except Failure Unit) :=
  (if count.contains values.length then .ok () else .error (.unrepresentable "repetition count")) ::
    ((Part.iterations element separator true values).flatMap Part.iterationChecks ++
      [Part.check ⟨terminator, ()⟩])

variable (element separator terminator) in
theorem Grammar.repetition_checked (count : CountRange) (values : List α) (buffer : Run σ) :
    ((repetition element separator terminator count).write values buffer).Checked
      (joinChecks element separator terminator count values)
      (buffer ++ (List.intercalate (separator.output ()) (values.map element.output) ++
        terminator.output ())) := by
  have hjoin := Part.join_checked element separator terminator true values buffer
  rw [Part.flatMap_output_iterations] at hjoin
  simp only [write, Writer.repetition, joinChecks]
  split
  · obtain ⟨hresult, hbuffer⟩ := hjoin.undoTo buffer.units
    exact ⟨hresult, hbuffer⟩
  · refine ⟨rfl, ?_⟩
    intro h
    cases h

/-! ## When the checks succeed -/

/-- The checks of an iteration succeed if its parts can be written and print something. -/
theorem Part.forall_iterationChecks_iff {parts : List (Part σ)} :
    (∀ check ∈ iterationChecks parts, check = .ok ()) ↔
      (∀ part ∈ parts, part.Accepted) ∧ parts.flatMap output ≠ [] := by
  have hprogress : (if (parts.flatMap output).isEmpty then
        .error (.unrepresentable "repetition progress")
        else .ok () : Except Failure Unit) = .ok () ↔ parts.flatMap output ≠ [] := by
    cases parts.flatMap output with
    | nil => simp
    | cons symbol printed => simp
  simp only [iterationChecks, List.forall_mem_append, List.forall_mem_map,
    List.forall_mem_singleton, hprogress]
  exact Iff.rfl

/-- Behind a first iteration, each value is checked together with a separator. -/
theorem Part.forall_laterChecks_iff {values : List α} :
    (∀ check ∈ (iterations element separator false values).flatMap iterationChecks,
      check = .ok ()) ↔
      ∀ value ∈ values, Accepted ⟨separator, ()⟩ ∧ Accepted ⟨element, value⟩ ∧
        separator.output () ++ element.output value ≠ [] := by
  induction values with
  | nil => simp [iterations]
  | cons value others ih =>
      rw [iterations, List.flatMap_cons, List.forall_mem_append, ih, forall_iterationChecks_iff,
        List.forall_mem_cons]
      simp [iteration, and_assoc]

theorem Part.forall_firstChecks_iff {values : List α} :
    (∀ check ∈ (iterations element separator true values).flatMap iterationChecks,
      check = .ok ()) ↔
      (∀ value ∈ values, Accepted ⟨element, value⟩) ∧
        (2 ≤ values.length → Accepted ⟨separator, ()⟩) ∧
        (∀ value ∈ values.head?, element.output value ≠ []) ∧
        ∀ value ∈ values.tail, separator.output () ++ element.output value ≠ [] := by
  cases values with
  | nil => simp [iterations]
  | cons value others =>
      have hseparator : 2 ≤ (value :: others).length ↔ ∃ other, other ∈ others := by
        rw [← List.length_pos_iff_exists_mem, List.length_cons]
        omega
      rw [iterations, List.flatMap_cons, List.forall_mem_append, forall_laterChecks_iff,
        forall_iterationChecks_iff, hseparator]
      simp only [iteration, if_true, List.forall_mem_singleton, List.flatMap_cons,
        List.flatMap_nil, List.append_nil, output_mk, List.forall_mem_cons, List.head?_cons,
        List.tail_cons, Option.mem_def, Option.some.injEq, forall_eq', forall_exists_index]
      constructor
      · rintro ⟨⟨hfirst, hprints⟩, hothers⟩
        exact ⟨⟨hfirst, fun other h => (hothers other h).2.1⟩, fun other h => (hothers other h).1,
          hprints, fun other h => (hothers other h).2.2⟩
      · rintro ⟨⟨hfirst, hothers⟩, hlead, hprints, hlater⟩
        exact ⟨⟨hfirst, hprints⟩, fun other h => ⟨hlead other h, hothers other h, hlater other h⟩⟩

namespace Grammar

/-- A repetition is written just if the number of values is allowed, each element can be
written, the separator can be if it is needed, every iteration prints something, and the
terminator can be written. The outputs of the values then stand behind the buffer, with
the separator between them and the terminator at the end. Otherwise the cause is that of
the first check that fails. Nothing at all is written if the number is not allowed. -/
theorem repetition_writes_checked_join (element : Grammar σ α)
    (separator terminator : Grammar σ Unit) (count : CountRange) (values : List α)
    (buffer : Run σ) :
    (((repetition element separator terminator count).write values buffer).result = .ok () ↔
      count.contains values.length = true ∧
        (∀ value ∈ values, Part.Accepted ⟨element, value⟩) ∧
        (2 ≤ values.length → Part.Accepted ⟨separator, ()⟩) ∧
        (∀ value ∈ values.head?, element.output value ≠ []) ∧
        (∀ value ∈ values.tail, separator.output () ++ element.output value ≠ []) ∧
        Part.Accepted ⟨terminator, ()⟩) ∧
    (((repetition element separator terminator count).write values buffer).result = .ok () →
      ((repetition element separator terminator count).write values buffer).buffer =
        buffer ++ (List.intercalate (separator.output ()) (values.map element.output) ++
          terminator.output ())) ∧
    (∀ cause,
      ((repetition element separator terminator count).write values buffer).result =
          .error cause ↔
        ∃ passed later,
          joinChecks element separator terminator count values =
              passed ++ .error cause :: later ∧
            ∀ check ∈ passed, check = .ok ()) ∧
    (count.contains values.length = false →
      (repetition element separator terminator count).write values buffer =
        .fail (.unrepresentable "repetition count") buffer) := by
  have hchecked := repetition_checked element separator terminator count values buffer
  refine ⟨?_, hchecked.buffer_eq, ?_, ?_⟩
  · have hcount : (if count.contains values.length then .ok ()
        else .error (.unrepresentable "repetition count") : Except Failure Unit) = .ok () ↔
        count.contains values.length = true := by
      cases count.contains values.length with
      | true => simp
      | false => simp
    rw [hchecked.result_eq, forM_eq_ok_iff, joinChecks, List.forall_mem_cons, hcount,
      List.forall_mem_append, Part.forall_firstChecks_iff, List.forall_mem_singleton]
    simp only [and_assoc]
    exact Iff.rfl
  · intro cause
    rw [hchecked.result_eq]
    exact forM_eq_error_iff
  · intro hcount
    simp only [write, Writer.repetition, hcount, Bool.false_eq_true, if_false]

/-- Of three numbers the second and the third cannot be written. The second one counts. -/
theorem repetition_writes_checked_join_numbers :
    ((numbers.write [['1', '2'], ['3']] ['=']).result = .ok () ∧
      (numbers.write [['1', '2'], ['3']] ['=']).buffer = "=12,3;".toList) ∧
    (numbers.write [['1'], ['x'], []] ['=']).result =
      .error (.unrepresentable "prefix predicate") ∧
    (⟨1, 5⟩ : CountRange).contains 0 = false ∧
      numbers.write [] ['='] = .fail (.unrepresentable "repetition count") ['='] := by
  have hjoin (values : List (Run Char)) :=
    repetition_writes_checked_join number (.text ",") (.text ";") ⟨1, 5⟩ values ['=']
  have hwritten : (numbers.write [['1', '2'], ['3']] ['=']).result = .ok () := rfl
  refine ⟨⟨hwritten, (hjoin _).2.1 hwritten⟩, ?_, rfl, (hjoin []).2.2.2 rfl⟩
  refine ((hjoin _).2.2.1 _).mpr ⟨[.ok (), .ok (), .ok (), .ok ()], _, rfl, ?_⟩
  simp

end Grammar

end Repetition

end InvertibleGrammar
