import InvertibleGrammar.Proofs.CheckedJoin
import InvertibleGrammar.Proofs.MaximalRuns

/-!
# What is told on the way

The events that a combination of readers or writers tells are those of its parts, in the
order in which the parts are tried, and behind a part at most one of its own. The events of
a part are kept where what the part did is taken back.
-/

namespace InvertibleGrammar

/-- The cause for which there is no value. -/
def cause? {ε α : Type} : Except ε α → Option ε
  | .ok _ => none
  | .error cause => some cause

theorem cause?_eq_some_iff {ε α : Type} {result : Except ε α} {cause : ε} :
    cause? result = some cause ↔ result = .error cause := by
  cases result with
  | ok value => simp [cause?]
  | error met => simp [cause?]

/-! ## Trying until one succeeds -/

section UpToFirst

universe u v

variable {γ : Type u} {δ : Type v}

/-- The items up to the first that succeeds, that one included. If none does these are all. -/
def upToFirst (succeeds : γ → Bool) : List γ → List γ
  | [] => []
  | item :: others => if succeeds item then [item] else item :: upToFirst succeeds others

theorem upToFirst_map (succeeds : δ → Bool) (f : γ → δ) (items : List γ) :
    upToFirst succeeds (items.map f) =
      (upToFirst (fun item => succeeds (f item)) items).map f := by
  induction items with
  | nil => rfl
  | cons item others ih =>
      rw [List.map_cons, upToFirst, upToFirst, ih]
      split
      · rfl
      · rfl

theorem upToFirst_eq_self {succeeds : γ → Bool} {items : List γ}
    (h : ∀ item ∈ items, succeeds item = false) : upToFirst succeeds items = items := by
  induction items with
  | nil => rfl
  | cons item others ih =>
      obtain ⟨hitem, hothers⟩ := List.forall_mem_cons.mp h
      rw [upToFirst, hitem, ih hothers]
      rfl

theorem mem_of_mem_upToFirst {succeeds : γ → Bool} {items : List γ} {item : γ}
    (h : item ∈ upToFirst succeeds items) : item ∈ items := by
  induction items with
  | nil => exact h
  | cons first others ih =>
      rw [upToFirst] at h
      split at h
      · rw [List.mem_singleton.mp h]
        exact List.mem_cons_self
      · rcases List.mem_cons.mp h with rfl | h
        · exact List.mem_cons_self
        · exact List.mem_cons_of_mem _ (ih h)

end UpToFirst

/-! ## Reading -/

namespace Reading

variable {σ ε ε' α β : Type}

@[simp] theorem map_log (f : α → β) (reading : Reading σ ε α) :
    (reading.map f).log = reading.log := rfl

@[simp] theorem mapCause_log (f : ε → ε') (reading : Reading σ ε α) :
    (reading.mapCause f).log = reading.log := rfl

/-- What is told in going on comes behind what was told before. -/
theorem andThen_log (reading : Reading σ ε α) (next : α → Run σ → Reading σ ε β) :
    (reading.andThen next).log =
      reading.log ++ reading.found?.elim [] fun found => (next found.1 found.2).log := by
  cases hr : reading.result with
  | ok value => simp [andThen, found?, hr]
  | error cause => simp [andThen, found?, hr]

end Reading

namespace Reader

variable {σ α β : Type}

/-! ### Leaves -/

@[simp] theorem endOfInput_log [Symbol σ] (input : Run σ) : (endOfInput input).log = [] := by
  simp only [endOfInput]
  split
  · rfl
  · rfl

@[simp] theorem words_log [DecidableEq σ] [Symbol σ] (expected : String)
    (meanings : List (Run σ × α)) (input : Run σ) : (words expected meanings input).log = [] := by
  simp only [words]
  split
  · rfl
  · rfl

@[simp] theorem integer_log [Symbol σ] (t : IntType) (input : Run σ) :
    (integer t input).log = [] := by
  simp only [integer]
  split
  · rfl
  · rfl

@[simp] theorem run_log [Symbol σ] (accepts : σ → Bool) (length : CountRange) (input : Run σ) :
    (run accepts length input).log = [] := by
  simp only [run]
  split
  · rfl
  · rfl

/-! ### Sequences -/

theorem keep_log {types : List Type} (first : Reader σ α) (others : Reader σ (Tuple types))
    (input : Run σ) :
    (keep first others input).log =
      (first input).log ++ (first input).found?.elim [] fun found => (others found.2).log := by
  simp only [keep, Reading.andThen_log, Reading.map_log]

theorem skip_log (first : Reader σ Unit) (others : Reader σ α) (input : Run σ) :
    (skip first others input).log =
      (first input).log ++ (first input).found?.elim [] fun found => (others found.2).log := by
  simp only [skip, Reading.andThen_log]

theorem convert_log (inner : Reader σ α) (conversion : Conversion α β) (input : Run σ) :
    (convert inner conversion input).log = (inner input).log := by
  rw [convert, Reading.andThen_log]
  cases (inner input).found? with
  | none => exact List.append_nil _
  | some found => exact List.append_nil _

/-! ### Choice -/

/-- Behind the events of each attempt that failed stands one for its failure. -/
theorem attempts_log (readers : List (Reader σ α × Nat)) (input : Run σ) :
    (attempts input readers).log =
      (upToFirst (fun entry => (cause? (entry.1 input).result).isNone) readers).flatMap
        fun entry => (entry.1 input).log ++
          ((cause? (entry.1 input).result).map (.alternativeNotRead entry.2)).toList := by
  induction readers with
  | nil => rfl
  | cons entry others ih =>
      obtain ⟨reader, index⟩ := entry
      cases hr : (reader input).result with
      | ok value => simp [attempts, upToFirst, cause?, hr]
      | error failure => simp [attempts, upToFirst, cause?, hr, ih]

theorem optional_log (inner : Reader σ α) (input : Run σ) :
    (optional inner input).log =
      (inner input).log ++ ((cause? (inner input).result).map .optionalAbsent).toList := by
  cases hr : (inner input).result with
  | ok value => simp [optional, cause?, hr]
  | error failure => simp [optional, cause?, hr]

/-! ### Repetition -/

theorem iteration_log (element : Reader σ α) (separator : Reader σ Unit) (count : Nat)
    (input : Run σ) :
    (iteration element separator count input).log =
      if count = 0 then (element input).log
      else (separator input).log ++
        (separator input).found?.elim [] fun found => (element found.2).log := by
  by_cases hcount : count = 0
  · simp only [iteration, hcount, if_true, Reading.andThen_log, Reading.mapCause_log]
    rfl
  · simp only [iteration, hcount, if_false, Reading.andThen_log, Reading.mapCause_log,
      Reading.mapCause_found?]

variable [Symbol σ]

/-- The cause for which an iteration ends the repetition, if it does: it fails or uses
nothing. -/
def stop? (element : Reader σ α) (separator : Reader σ Unit) (count : Nat) (input : Run σ) :
    Option Stop :=
  let step := iteration element separator count input
  match step.result with
  | .ok _ => if step.rest.units < input.units then none else some .noProgress
  | .error cause => some cause

theorem stop?_of_separator_error {element : Reader σ α} {separator : Reader σ Unit} {count : Nat}
    {input : Run σ} {failure : Failure} (hcount : count ≠ 0)
    (h : (separator input).result = .error failure) :
    stop? element separator count input = some (.separator failure) := by
  have hstep : (iteration element separator count input).result = .error (.separator failure) := by
    simp only [iteration, hcount, if_false, Reading.andThen, Reading.mapCause, h]
    rfl
  simp only [stop?, hstep]

/-- Behind what stands in front of it the element decides whether the repetition ends. -/
theorem stop?_of_lead {element : Reader σ α} {separator : Reader σ Unit} {count : Nat}
    {input start : Run σ}
    (h : ((if count = 0 then empty else separator) input).Yields () start) :
    stop? element separator count input =
      match (element start).result with
      | .ok _ => if (element start).rest.units < input.units then none else some .noProgress
      | .error failure => some (.element failure) := by
  have hstep : (iteration element separator count input).result =
        (element start).result.mapError .element ∧
      (iteration element separator count input).rest = (element start).rest := by
    obtain ⟨hlead, hstart⟩ := lead_yields_iff.mpr h
    simp only [iteration, Reading.andThen, hlead, hstart]
    exact ⟨rfl, rfl⟩
  rw [stop?, hstep.1, hstep.2]
  cases (element start).result with
  | ok value => rfl
  | error failure => rfl

/-- A further iteration tells its events. If it ends the gathering it is reported, with the
number of values before it. -/
theorem gather_log {limit count : Nat} (hcount : count < limit) (element : Reader σ α)
    (separator : Reader σ Unit) (input : Run σ) :
    (gather element separator limit count input).log =
      (iteration element separator count input).log ++
        match stop? element separator count input with
        | none => (gather element separator limit (count + 1)
            (iteration element separator count input).rest).log
        | some cause => [.repetitionStopped count cause] := by
  rw [gather, if_pos hcount]
  cases hr : (iteration element separator count input).result with
  | error cause => simp [stop?, hr]
  | ok value =>
      by_cases hprogress :
          (iteration element separator count input).rest.units < input.units
      · simp [stop?, hr, hprogress]
      · simp [stop?, hr, hprogress]

theorem gather_log_of_full {limit count : Nat} (hcount : ¬ count < limit) (element : Reader σ α)
    (separator : Reader σ Unit) (input : Run σ) :
    (gather element separator limit count input).log = [] := by
  rw [gather, if_neg hcount]

/-- The terminator tells its events last, if enough values come before it. -/
theorem repetition_log (element : Reader σ α) (separator terminator : Reader σ Unit)
    (count : CountRange) (input : Run σ) :
    (repetition element separator terminator count input).log =
      (gather element separator count.max.toNat 0 input).log ++
        if (gather element separator count.max.toNat 0 input).values.length < count.min.toNat then []
        else (terminator (gather element separator count.max.toNat 0 input).rest).log := by
  simp only [repetition]
  split
  · rw [List.append_nil]
  · rw [Reading.map_log]

end Reader

/-! ## Writing -/

namespace Writing

variable {σ ε ε' : Type}

@[simp] theorem mapCause_log (f : ε → ε') (writing : Writing σ ε) :
    (writing.mapCause f).log = writing.log := rfl

@[simp] theorem undoTo_log [Symbol σ] (length : Nat) (writing : Writing σ ε) :
    (writing.undoTo length).log = writing.log := by
  cases hr : writing.result with
  | ok _ => simp [undoTo, hr]
  | error cause => simp [undoTo, hr]

theorem andThen_log (writing : Writing σ ε) (next : Run σ → Writing σ ε) :
    (writing.andThen next).log =
      writing.log ++ writing.left?.elim [] fun buffer => (next buffer).log := by
  cases hr : writing.result with
  | ok _ => simp [andThen, left?, hr]
  | error cause => simp [andThen, left?, hr]

end Writing

namespace Writer

variable {σ α : Type}

@[simp] theorem run_log (accepts : σ → Bool) (length : CountRange) (value buffer : Run σ) :
    (run accepts length value buffer).log = [] := by
  simp only [run]
  split
  · rfl
  · split
    · rfl
    · rfl

variable [Symbol σ]

/-- Each attempt is made on the same buffer. Behind the events of each that was refused
stands one for its refusal. -/
theorem attempts_log {value : α} {mark : Run σ} {writers : List (Writer σ α × Nat)}
    (happend : ∀ entry ∈ writers, entry.1.AppendOnly) :
    (attempts value mark.units writers mark).log =
      (upToFirst (fun entry => (cause? (entry.1 value mark).result).isNone) writers).flatMap
        fun entry => (entry.1 value mark).log ++
          ((cause? (entry.1 value mark).result).map (.alternativeNotWritten entry.2)).toList := by
  induction writers with
  | nil => rfl
  | cons entry others ih =>
      obtain ⟨writer, index⟩ := entry
      have hcut : Run.truncate mark.units (writer value mark).buffer = mark :=
        Run.truncate_of_prefix ((happend _ List.mem_cons_self).prefix_buffer value mark)
      have hothers := ih fun entry hentry => happend entry (List.mem_cons_of_mem _ hentry)
      cases hr : (writer value mark).result with
      | ok _ => simp [attempts, upToFirst, cause?, hr]
      | error failure => simp [attempts, upToFirst, cause?, hr, hcut, hothers]

end Writer

end InvertibleGrammar
