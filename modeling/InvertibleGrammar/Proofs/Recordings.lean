import InvertibleGrammar.Proofs.Edits

/-!
# Recorded writing

A recorded writing lists what is done to the buffer, and has no buffer of its own: what
the buffer holds is found by replaying the list. So nothing can be done to it that is not
listed. Each way to write has its recorded form, and replaying the recorded form gives the
plain one, with every run that it appends and every cut that it makes. The edits of a
grammar are read off its recorded form.
-/

namespace InvertibleGrammar

/-- What came of writing: success or a cause, the edits of the buffer in the order in which
they were made, and the events on the way. -/
structure Recording (σ ε : Type) where
  result : Except ε Unit
  edits : List (Edit σ)
  log : List Event

/-- A way to write a value that tells what it does to the buffer. -/
abbrev Recorder (σ α : Type) := α → Run σ → Recording σ Failure

namespace Recording

variable {σ ε ε' : Type}

/-! ## Steps -/

/-- Writing that succeeded and did nothing. -/
def succeed : Recording σ ε := ⟨.ok (), [], []⟩

/-- Writing that was refused and did nothing. -/
def fail (cause : ε) : Recording σ ε := ⟨.error cause, [], []⟩

/-- Writing that appended a run. -/
def append (run : Run σ) : Recording σ ε := ⟨.ok (), [.append run], []⟩

/-- Changes the cause that was met. -/
def mapCause (f : ε → ε') (recording : Recording σ ε) : Recording σ ε' :=
  ⟨recording.result.mapError f, recording.edits, recording.log⟩

/-- Cuts the buffer back to `mark` if writing was refused. -/
def undoTo (mark : Run σ) (recording : Recording σ ε) : Recording σ ε :=
  match recording.result with
  | .ok () => recording
  | .error cause => ⟨.error cause, recording.edits ++ [.cut mark], recording.log⟩

variable [Symbol σ]

/-- Goes on writing after a success, behind what the buffer holds by then. -/
def andThen (recording : Recording σ ε) (buffer : Run σ) (next : Run σ → Recording σ ε) :
    Recording σ ε :=
  match recording.result with
  | .ok () =>
      let later := next (Edit.replay recording.edits buffer)
      ⟨later.result, recording.edits ++ later.edits, recording.log ++ later.log⟩
  | .error cause => ⟨.error cause, recording.edits, recording.log⟩

/-- The writing that was recorded, behind what the buffer held at first. -/
def writing (recording : Recording σ ε) (buffer : Run σ) : Writing σ ε :=
  ⟨recording.result, Edit.replay recording.edits buffer, recording.log⟩

theorem writing_andThen (recording : Recording σ ε) (buffer : Run σ)
    (next : Run σ → Recording σ ε) :
    (recording.andThen buffer next).writing buffer =
      (recording.writing buffer).andThen fun now => (next now).writing now := by
  cases hr : recording.result with
  | ok _ => simp only [andThen, writing, Writing.andThen, hr, Edit.replay_append]
  | error cause => simp only [andThen, writing, Writing.andThen, hr]

/-- The cut after a refusal is the one that the plain writing makes, wherever it falls. -/
theorem writing_undoTo (mark : Run σ) (recording : Recording σ ε) (buffer : Run σ) :
    (recording.undoTo mark).writing buffer =
      (recording.writing buffer).undoTo mark.units := by
  cases hr : recording.result with
  | ok _ => simp only [undoTo, writing, Writing.undoTo, hr]
  | error cause =>
      simp only [undoTo, writing, Writing.undoTo, hr, Edit.replay_append]
      rfl

/-! ## Edits that lead on -/

/-- The edits lead on from what the buffer held at first. -/
def LeadsFrom (buffer : Run σ) (recording : Recording σ ε) : Prop :=
  Edit.Leads buffer recording.edits (Edit.replay recording.edits buffer)

variable {recording : Recording σ ε} {buffer : Run σ}

theorem leadsFrom_of_leads {now : Run σ} (h : Edit.Leads buffer recording.edits now) :
    recording.LeadsFrom buffer := by
  rw [LeadsFrom, h.replay_eq]
  exact h

theorem leadsFrom_append (run : Run σ) : (append run : Recording σ ε).LeadsFrom buffer :=
  leadsFrom_of_leads (Edit.leads_append run)

theorem LeadsFrom.andThen {next : Run σ → Recording σ ε} (h : recording.LeadsFrom buffer)
    (hnext : ∀ now, (next now).LeadsFrom now) :
    (recording.andThen buffer next).LeadsFrom buffer := by
  cases hr : recording.result with
  | ok _ =>
      simp only [Recording.andThen, hr]
      exact leadsFrom_of_leads (h.trans (hnext _))
  | error cause =>
      simp only [Recording.andThen, hr]
      exact h

theorem LeadsFrom.undoTo (h : recording.LeadsFrom buffer) :
    (recording.undoTo buffer).LeadsFrom buffer := by
  cases hr : recording.result with
  | ok _ =>
      simp only [Recording.undoTo, hr]
      exact h
  | error cause =>
      simp only [Recording.undoTo, hr]
      exact leadsFrom_of_leads h.undo

end Recording

namespace Recorder

variable {σ α β : Type}

/-! ## Recorded forms -/

/-- Writes nothing. -/
def empty : Recorder σ Unit := fun _ _ => .succeed

/-- Writes a run that depends on the value alone. -/
def form (output : α → Run σ) : Recorder σ α := fun value _ => .append (output value)

/-- Writes a run whose symbols are all accepted and whose length is allowed. -/
def run (accepts : σ → Bool) (length : CountRange) : Recorder σ (Run σ) := fun run _ =>
  if !run.all accepts then .fail (.unrepresentable "prefix predicate")
  else if !length.contains run.length then .fail (.unrepresentable "prefix length")
  else .append run

/-- Converts a value back and writes what comes out. -/
def convert (inner : Recorder σ α) (conversion : Conversion α β) : Recorder σ β :=
  fun value buffer =>
    match conversion.unapply value with
    | .ok before => inner before buffer
    | .error cause => .fail cause

variable [Symbol σ]

/-- Writes the first value of a tuple, then the others. -/
def keep {types : List Type} (first : Recorder σ α) (others : Recorder σ (Tuple types)) :
    Recorder σ (Tuple (α :: types)) := fun tuple buffer =>
  (first tuple.head buffer).andThen buffer (others tuple.tail)

/-- Writes something that needs no value, then those that follow. -/
def skip (first : Recorder σ Unit) (others : Recorder σ α) : Recorder σ α :=
  fun value buffer => (first () buffer).andThen buffer (others value)

/-- Tries numbered recorders until one succeeds. After each refusal the buffer is cut back
to `mark`. -/
def attempts (value : α) (mark : Run σ) :
    List (Recorder σ α × Nat) → Run σ → Recording σ (List Failure)
  | [], _ => .fail []
  | (recorder, index) :: others, buffer =>
      let attempt := recorder value buffer
      match attempt.result with
      | .ok () => ⟨.ok (), attempt.edits, attempt.log⟩
      | .error failure =>
          let edits := attempt.edits ++ [.cut mark]
          let later := (attempts value mark others (Edit.replay edits buffer)).mapCause
            (failure :: ·)
          ⟨later.result, edits ++ later.edits,
            attempt.log ++ .alternativeNotWritten index failure :: later.log⟩

/-- Writes with the first of the recorders that succeeds in the order of trying. -/
def choice (recorders : List (Recorder σ α)) (order : PrintOrder) : Recorder σ α :=
  fun value buffer =>
    (attempts value buffer (order.arrange recorders.zipIdx) buffer).mapCause fun failures =>
      .exhausted (order.arrange failures)

/-- Writes a value that is there and nothing for one that is not. -/
def optional (inner : Recorder σ α) : Recorder σ (Option α) := fun value buffer =>
  match value with
  | none => .succeed
  | some value => (inner value buffer).undoTo buffer

/-- Writes a separator, unless `first` says that no value came before, and an element. An
iteration that wrote nothing is refused. -/
def iteration (element : Recorder σ α) (separator : Recorder σ Unit) (first : Bool)
    (value : α) (buffer : Run σ) : Recording σ Failure :=
  let separated := if first then .succeed else separator () buffer
  let written := separated.andThen buffer (element value)
  written.andThen buffer fun now =>
    if now.units = buffer.units then .fail (.unrepresentable "repetition progress")
    else .succeed

/-- Writes each value in an iteration of its own, then the terminator. -/
def join (element : Recorder σ α) (separator terminator : Recorder σ Unit) :
    Bool → List α → Run σ → Recording σ Failure
  | _, [], buffer => terminator () buffer
  | first, value :: others, buffer =>
      (iteration element separator first value buffer).andThen buffer
        (join element separator terminator false others)

/-- Writes an allowed number of values separated from each other, then the terminator. -/
def repetition (element : Recorder σ α) (separator terminator : Recorder σ Unit)
    (count : CountRange) : Recorder σ (List α) := fun values buffer =>
  if count.contains values.length then
    (join element separator terminator true values buffer).undoTo buffer
  else .fail (.unrepresentable "repetition count")

/-! ## Plain forms -/

/-- The writer that does what is recorded. -/
def writer (recorder : Recorder σ α) : Writer σ α := fun value buffer =>
  (recorder value buffer).writing buffer

theorem writer_run (accepts : σ → Bool) (length : CountRange) :
    (run accepts length).writer = Writer.run accepts length := by
  funext value buffer
  simp only [writer, run, Writer.run]
  split
  · rfl
  · split
    · rfl
    · rfl

theorem writer_convert (inner : Recorder σ α) (conversion : Conversion α β) :
    (inner.convert conversion).writer = Writer.convert inner.writer conversion := by
  funext value buffer
  simp only [writer, convert, Writer.convert]
  cases conversion.unapply value with
  | ok before => rfl
  | error cause => rfl

theorem writer_keep {types : List Type} (first : Recorder σ α)
    (others : Recorder σ (Tuple types)) :
    (first.keep others).writer = Writer.keep first.writer others.writer := by
  funext tuple buffer
  exact (first tuple.head buffer).writing_andThen buffer (others tuple.tail)

theorem writer_skip (first : Recorder σ Unit) (others : Recorder σ α) :
    (first.skip others).writer = Writer.skip first.writer others.writer := by
  funext value buffer
  exact (first () buffer).writing_andThen buffer (others value)

/-- Each attempt is cut back just where the plain attempts cut it back. -/
theorem writing_attempts (value : α) (mark : Run σ) (recorders : List (Recorder σ α × Nat))
    (buffer : Run σ) :
    (attempts value mark recorders buffer).writing buffer =
      Writer.attempts value mark.units (recorders.map (Prod.map writer id)) buffer := by
  induction recorders generalizing buffer with
  | nil => rfl
  | cons entry others ih =>
      obtain ⟨recorder, index⟩ := entry
      cases hr : (recorder value buffer).result with
      | ok _ =>
          simp only [attempts, List.map_cons, Prod.map, Writer.attempts, writer,
            Recording.writing, hr]
      | error failure =>
          have hcut : Edit.replay ((recorder value buffer).edits ++ [.cut mark]) buffer =
              Run.truncate mark.units (Edit.replay (recorder value buffer).edits buffer) := by
            rw [Edit.replay_append]
            rfl
          simp only [attempts, List.map_cons, Prod.map, Writer.attempts, writer,
            Recording.writing, hr, Edit.replay_append, hcut, ← ih]
          rfl

theorem writer_choice (recorders : List (Recorder σ α)) (order : PrintOrder) :
    (choice recorders order).writer = Writer.choice (recorders.map writer) order := by
  funext value buffer
  have hentries : order.arrange (recorders.map writer).zipIdx =
      (order.arrange recorders.zipIdx).map (Prod.map writer id) := by
    rw [← order.arrange_map, List.zipIdx_map]
  simp only [Writer.choice, hentries, ← writing_attempts]
  rfl

theorem writer_optional (inner : Recorder σ α) :
    inner.optional.writer = Writer.optional inner.writer := by
  funext value buffer
  cases value with
  | none => rfl
  | some value => exact (inner value buffer).writing_undoTo buffer buffer

theorem writing_iteration (element : Recorder σ α) (separator : Recorder σ Unit)
    (first : Bool) (value : α) (buffer : Run σ) :
    (iteration element separator first value buffer).writing buffer =
      Writer.iteration element.writer separator.writer first value buffer := by
  have hprogress (now : Run σ) :
      (if now.units = buffer.units then
        Recording.fail (Failure.unrepresentable "repetition progress")
      else Recording.succeed).writing now =
        if now.units = buffer.units then
          Writing.fail (Failure.unrepresentable "repetition progress") now
        else Writing.succeed now := by
    split
    · rfl
    · rfl
  simp only [iteration, Writer.iteration, Recording.writing_andThen, hprogress]
  cases first with
  | true => rfl
  | false => rfl

theorem writing_join (element : Recorder σ α) (separator terminator : Recorder σ Unit)
    (first : Bool) (values : List α) (buffer : Run σ) :
    (join element separator terminator first values buffer).writing buffer =
      Writer.join element.writer separator.writer terminator.writer first values buffer := by
  induction values generalizing first buffer with
  | nil => rfl
  | cons value others ih =>
      have hothers := funext (ih false)
      simp only [join, Writer.join, Recording.writing_andThen, writing_iteration, hothers]

theorem writer_repetition (element : Recorder σ α) (separator terminator : Recorder σ Unit)
    (count : CountRange) :
    (repetition element separator terminator count).writer =
      Writer.repetition element.writer separator.writer terminator.writer count := by
  funext values buffer
  simp only [writer, repetition, Writer.repetition]
  split
  · rw [Recording.writing_undoTo, writing_join]
  · rfl

/-! ## Edits that lead on -/

/-- What is recorded leads on from whatever the buffer held. -/
def Leads (recorder : Recorder σ α) : Prop :=
  ∀ value buffer, (recorder value buffer).LeadsFrom buffer

/-- Each attempt starts on what the cut after the one before it gave back. -/
theorem leadsFrom_attempts {value : α} {mark : Run σ} {recorders : List (Recorder σ α × Nat)}
    (h : ∀ entry ∈ recorders, entry.1.Leads) :
    (attempts value mark recorders mark).LeadsFrom mark := by
  induction recorders with
  | nil => exact .start
  | cons entry others ih =>
      obtain ⟨recorder, index⟩ := entry
      have hattempt : (recorder value mark).LeadsFrom mark :=
        h (recorder, index) (by simp) value mark
      have hothers := ih fun entry hentry => h entry (by simp [hentry])
      cases hr : (recorder value mark).result with
      | ok _ =>
          simp only [attempts, hr]
          exact hattempt
      | error failure =>
          have hcut := Edit.Leads.undo hattempt
          simp only [attempts, hr, hcut.replay_eq]
          exact Recording.leadsFrom_of_leads (hcut.trans hothers)

section Repetition

variable {element : Recorder σ α} {separator terminator : Recorder σ Unit}

theorem leadsFrom_iteration (helement : element.Leads) (hseparator : separator.Leads)
    (first : Bool) (value : α) (buffer : Run σ) :
    (iteration element separator first value buffer).LeadsFrom buffer := by
  have hseparated : (if first then Recording.succeed
      else separator () buffer).LeadsFrom buffer := by
    cases first with
    | true => exact .start
    | false => exact hseparator () buffer
  refine (hseparated.andThen (helement value)).andThen fun now => ?_
  split
  · exact .start
  · exact .start

theorem leadsFrom_join (helement : element.Leads) (hseparator : separator.Leads)
    (hterminator : terminator.Leads) (first : Bool) (values : List α) (buffer : Run σ) :
    (join element separator terminator first values buffer).LeadsFrom buffer := by
  induction values generalizing first buffer with
  | nil => exact hterminator () buffer
  | cons value others ih =>
      exact (leadsFrom_iteration helement hseparator first value buffer).andThen (ih false)

end Repetition

end Recorder

variable {σ : Type} [Symbol σ]

mutual

/-- Writes a value of the grammar and records what is done to the buffer. -/
def Grammar.record {α : Type} : Grammar σ α → Recorder σ α
  | .literal text => Recorder.form fun _ => text
  | .run accepts length => Recorder.run accepts length
  | .sequence slots => slots.record
  | .choice alternatives order => Recorder.choice alternatives.recorders order
  | .repetition element separator terminator count =>
      Recorder.repetition element.record separator.record terminator.record count
  | .skip inner => inner.record
  | .convert inner conversion => Recorder.convert inner.record conversion
  | .optional inner => Recorder.optional inner.record
  | .endOfInput => Recorder.empty
  | .empty => Recorder.empty
  | .integer _ => Recorder.form fun value => Numeral.spelling value.val
  | .boolean => Recorder.form fun value => Run.spelling (if value then "true" else "false")

/-- Writes and records the slots in order up to the first refusal. -/
def Slots.record {types : List Type} : Slots σ types → Recorder σ (Tuple types)
  | .nil => Recorder.empty
  | .keep first others => Recorder.keep first.record others.record
  | .skip first others => Recorder.skip first.record others.record

/-- The recorded forms of the alternatives, in declared order. -/
def Alternatives.recorders {α : Type} : Alternatives σ α → List (Recorder σ α)
  | .nil => []
  | .cons first others => first.record :: others.recorders

end

mutual

/-- What a grammar records is what it writes. -/
theorem Grammar.writer_record {α : Type} : (grammar : Grammar σ α) →
    grammar.record.writer = grammar.write
  | .literal _ => rfl
  | .run accepts length => Recorder.writer_run accepts length
  | .sequence slots => slots.writer_record
  | .choice alternatives order => by
      rw [Grammar.record, Recorder.writer_choice, alternatives.map_writer_recorders]
      rfl
  | .repetition element separator terminator count => by
      rw [Grammar.record, Recorder.writer_repetition, element.writer_record,
        separator.writer_record, terminator.writer_record]
      rfl
  | .skip inner => inner.writer_record
  | .convert inner conversion => by
      rw [Grammar.record, Recorder.writer_convert, inner.writer_record]
      rfl
  | .optional inner => by
      rw [Grammar.record, Recorder.writer_optional, inner.writer_record]
      rfl
  | .endOfInput => rfl
  | .empty => rfl
  | .integer _ => rfl
  | .boolean => rfl

theorem Slots.writer_record {types : List Type} : (slots : Slots σ types) →
    slots.record.writer = slots.write
  | .nil => rfl
  | .keep first others => by
      rw [Slots.record, Recorder.writer_keep, first.writer_record, others.writer_record]
      rfl
  | .skip first others => by
      rw [Slots.record, Recorder.writer_skip, first.writer_record, others.writer_record]
      rfl

theorem Alternatives.map_writer_recorders {α : Type} : (alternatives : Alternatives σ α) →
    alternatives.recorders.map Recorder.writer = alternatives.writers
  | .nil => rfl
  | .cons first others => by
      rw [Alternatives.recorders, Alternatives.writers, List.map_cons, first.writer_record,
        others.map_writer_recorders]

end

mutual

/-- What a grammar does to the buffer leads on from whatever the buffer held. -/
theorem Grammar.record_leads {α : Type} : (grammar : Grammar σ α) → grammar.record.Leads
  | .literal text, _, _ => Recording.leadsFrom_append text
  | .run accepts length, value, buffer => by
      simp only [Grammar.record, Recorder.run]
      split
      · exact .start
      · split
        · exact .start
        · exact Recording.leadsFrom_append value
  | .sequence slots, tuple, buffer => slots.record_leads tuple buffer
  | .choice alternatives order, value, buffer => by
      have hattempts : (Recorder.attempts value buffer
          (order.arrange alternatives.recorders.zipIdx) buffer).LeadsFrom buffer := by
        apply Recorder.leadsFrom_attempts
        intro entry hentry
        have hmem := List.fst_mem_of_mem_zipIdx (order.mem_arrange.mp hentry)
        exact alternatives.recorders_lead entry.1 hmem
      exact hattempts
  | .repetition element separator terminator count, values, buffer => by
      simp only [Grammar.record, Recorder.repetition]
      split
      · exact (Recorder.leadsFrom_join element.record_leads separator.record_leads
          terminator.record_leads true values buffer).undoTo
      · exact .start
  | .skip inner, value, buffer => inner.record_leads value buffer
  | .convert inner conversion, value, buffer => by
      simp only [Grammar.record, Recorder.convert]
      cases conversion.unapply value with
      | ok before => exact inner.record_leads before buffer
      | error cause => exact .start
  | .optional inner, none, buffer => .start
  | .optional inner, some value, buffer => (inner.record_leads value buffer).undoTo
  | .endOfInput, _, _ => .start
  | .empty, _, _ => .start
  | .integer _, value, _ => Recording.leadsFrom_append (Numeral.spelling value.val)
  | .boolean, value, _ =>
      Recording.leadsFrom_append (Run.spelling (if value then "true" else "false"))

theorem Slots.record_leads {types : List Type} : (slots : Slots σ types) → slots.record.Leads
  | .nil, _, _ => .start
  | .keep first others, tuple, buffer =>
      (first.record_leads tuple.head buffer).andThen (others.record_leads tuple.tail)
  | .skip first others, tuple, buffer =>
      (first.record_leads () buffer).andThen (others.record_leads tuple)

theorem Alternatives.recorders_lead {α : Type} : (alternatives : Alternatives σ α) →
    ∀ recorder ∈ alternatives.recorders, recorder.Leads
  | .nil, _, h => absurd h List.not_mem_nil
  | .cons first others, recorder, h => by
      rcases List.mem_cons.mp h with rfl | h
      · exact first.record_leads
      · exact others.recorders_lead recorder h

end

/-- The edits made in writing a value behind a buffer, in the order in which they are made. -/
def Grammar.edits {α : Type} (grammar : Grammar σ α) (value : α) (buffer : Run σ) :
    List (Edit σ) :=
  (grammar.record value buffer).edits

/-- Writing is append-only and does not look at what it appends to: the buffer stays in
front, and the result and the appended run are those of a writing into an empty buffer.
The edits on the way, replayed, give the buffer that is left. Each cut among them is back
to what the buffer held at an earlier moment. That never lies below what the buffer held
at first, and the cut falls between two symbols. -/
theorem Grammar.write_contextFree {α : Type} (grammar : Grammar σ α) (value : α)
    (buffer : Run σ) :
    (∃ output, (grammar.write value buffer).buffer = buffer ++ output ∧
        (grammar.write value []).buffer = output) ∧
      (grammar.write value buffer).result = (grammar.write value []).result ∧
      Edit.replay (grammar.edits value buffer) buffer = (grammar.write value buffer).buffer ∧
      ∀ front mark later, grammar.edits value buffer = front ++ .cut mark :: later →
        (∃ earlier, earlier <+: front ∧ Edit.replay earlier buffer = mark) ∧
        buffer <+: mark ∧
        Run.truncate mark.units (Edit.replay front buffer) = mark ∧
        mark.units ≤ (Edit.replay front buffer).units ∧
        Run.IsBoundary mark.units (Edit.replay front buffer) := by
  have happend := grammar.write_appendOnly value buffer
  have hedits : Edit.Leads buffer (grammar.edits value buffer) _ :=
    grammar.record_leads value buffer
  have hwriter : grammar.record.writer value buffer = grammar.write value buffer := by
    rw [grammar.writer_record]
  refine ⟨⟨(grammar.write value []).buffer, ?_, rfl⟩, ?_, congrArg Writing.buffer hwriter, ?_⟩
  · rw [happend, Writing.after_buffer]
  · rw [happend, Writing.after_result]
  · intro front mark later hsplit
    obtain ⟨hearlier, hkeeps, hmark⟩ := hedits.restores hsplit
    refine ⟨hearlier, hkeeps, Run.truncate_of_prefix hmark, ?_, mark, hmark, rfl⟩
    obtain ⟨output, houtput⟩ := hmark
    rw [← houtput, Run.units_append]
    exact Nat.le_add_right _ _

/-- The bracketed alternative is tried first, writes its bracket and refuses the letter. -/
example : (Grammar.orElse (.runOf Char.isAlpha)
    (.sequence (.skip (.text "<") (.keep (.runOf Char.isDigit) .nil)))).edits ['a'] ['x', '='] =
      [.append ['<'], .cut ['x', '='], .append ['a']] := by decide

end InvertibleGrammar
