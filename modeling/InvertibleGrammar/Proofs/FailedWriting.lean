import InvertibleGrammar.Proofs.AppendOnly

/-!
# Causes of refusals

For which cause a writing is refused. A combination of writers is refused for the cause
of the part that was refused, a choice for those of all its alternatives, and a
repetition also for its count or for an iteration that wrote nothing.
-/

namespace InvertibleGrammar

/-- Going over to the order of trying twice gives the declared order back. -/
theorem PrintOrder.arrange_arrange.{u} {γ : Type u} (order : PrintOrder) (items : List γ) :
    order.arrange (order.arrange items) = items := by
  cases order with
  | reverse => exact List.reverse_reverse items
  | declared => rfl

namespace Writing

variable {σ ε ε' : Type}

@[simp] theorem fail_error_iff {cause cause' : ε} {buffer : Run σ} :
    (fail cause' buffer : Writing σ ε).result = .error cause ↔ cause' = cause := by
  simp [fail]

@[simp] theorem not_succeed_error {cause : ε} {buffer : Run σ} :
    ¬ (succeed buffer : Writing σ ε).result = .error cause := by
  simp [succeed]

/-- Going on is refused in the first step or, behind what that one wrote, in the second. -/
theorem andThen_error_iff {writing : Writing σ ε} {next : Run σ → Writing σ ε} {cause : ε} :
    (writing.andThen next).result = .error cause ↔
      writing.result = .error cause ∨
        writing.result = .ok () ∧ (next writing.buffer).result = .error cause := by
  cases hr : writing.result with
  | ok _ => simp [andThen, hr]
  | error met => simp [andThen, hr]

theorem mapCause_error_iff {writing : Writing σ ε} {f : ε → ε'} {cause : ε'} :
    (writing.mapCause f).result = .error cause ↔
      ∃ before, writing.result = .error before ∧ f before = cause := by
  cases writing with
  | mk result left log =>
      cases result with
      | ok _ =>
          constructor
          · intro h
            cases h
          · rintro ⟨_, h, _⟩
            cases h
      | error met =>
          constructor
          · intro h
            exact ⟨met, rfl, Except.error.inj h⟩
          · rintro ⟨_, h, rfl⟩
            obtain rfl := Except.error.inj h
            rfl

@[simp] theorem undoTo_result [Symbol σ] (length : Nat) (writing : Writing σ ε) :
    (writing.undoTo length).result = writing.result := by
  cases hr : writing.result with
  | ok _ => simp [undoTo, hr]
  | error met => simp [undoTo, hr]

end Writing

namespace Writer

variable {σ α β : Type}

theorem run_error {accepts : σ → Bool} {length : CountRange} {value buffer : Run σ}
    {cause : Failure} (h : (run accepts length value buffer).result = .error cause) :
    ∃ reason, cause = .unrepresentable reason := by
  simp only [run] at h
  split at h
  · exact ⟨_, (Writing.fail_error_iff.mp h).symm⟩
  · split at h
    · exact ⟨_, (Writing.fail_error_iff.mp h).symm⟩
    · exact absurd h Writing.not_succeed_error

/-! ## Sequences -/

theorem keep_error {types : List Type} {first : Writer σ α} {others : Writer σ (Tuple types)}
    {tuple : Tuple (α :: types)} {buffer : Run σ} {cause : Failure}
    (h : (keep first others tuple buffer).result = .error cause) :
    (first tuple.head buffer).result = .error cause ∨
      ∃ now, (others tuple.tail now).result = .error cause := by
  rcases Writing.andThen_error_iff.mp h with hfirst | ⟨_, hothers⟩
  · exact Or.inl hfirst
  · exact Or.inr ⟨_, hothers⟩

theorem skip_error {first : Writer σ Unit} {others : Writer σ α} {value : α} {buffer : Run σ}
    {cause : Failure} (h : (skip first others value buffer).result = .error cause) :
    (first () buffer).result = .error cause ∨
      ∃ now, (others value now).result = .error cause := by
  rcases Writing.andThen_error_iff.mp h with hfirst | ⟨_, hothers⟩
  · exact Or.inl hfirst
  · exact Or.inr ⟨_, hothers⟩

theorem convert_error {inner : Writer σ α} {conversion : Conversion α β} {value : β}
    {buffer : Run σ} {cause : Failure}
    (h : (convert inner conversion value buffer).result = .error cause) :
    conversion.unapply value = .error cause ∨
      ∃ before, (inner before buffer).result = .error cause := by
  simp only [convert] at h
  split at h
  · exact Or.inr ⟨_, h⟩
  · rename_i refusal hrefusal
    obtain rfl := Writing.fail_error_iff.mp h
    exact Or.inl hrefusal

/-! ## Choice -/

section Choice

variable [Symbol σ]

/-- The attempts are refused if each of them is when it starts where the first one did. -/
theorem attempts_error_iff {value : α} {mark : Run σ} {writers : List (Writer σ α × Nat)}
    {causes : List Failure} (happend : ∀ entry ∈ writers, entry.1.AppendOnly) :
    (attempts value mark.units writers mark).result = .error causes ↔
      writers.map (fun entry => (entry.1 value mark).result) = causes.map .error := by
  induction writers generalizing causes with
  | nil => cases causes <;> simp [attempts]
  | cons entry others ih =>
      obtain ⟨writer, index⟩ := entry
      have hwriter : writer.AppendOnly := happend (writer, index) (by simp)
      have hcut : Run.truncate mark.units (writer value mark).buffer = mark :=
        Run.truncate_of_prefix (hwriter.prefix_buffer value mark)
      have hothers (later : List Failure) :
          (attempts value mark.units others mark).result = .error later ↔
            others.map (fun entry => (entry.1 value mark).result) = later.map .error :=
        ih fun entry hentry => happend entry (by simp [hentry])
      cases hr : (writer value mark).result with
      | ok _ => cases causes <;> simp [attempts, hr]
      | error cause =>
          have hfirst : (attempts value mark.units ((writer, index) :: others) mark).result =
                .error causes ↔
              ∃ later, (attempts value mark.units others mark).result = .error later ∧
                cause :: later = causes := by
            simp only [attempts, hr, hcut]
            exact Writing.mapCause_error_iff
          rw [hfirst]
          constructor
          · rintro ⟨later, hlater, rfl⟩
            simp [hr, (hothers later).mp hlater]
          · intro hcauses
            cases causes with
            | nil => simp at hcauses
            | cons met later =>
                simp only [List.map_cons, hr, List.cons.injEq, Except.error.injEq] at hcauses
                obtain ⟨rfl, hlater⟩ := hcauses
                exact ⟨later, (hothers later).mpr hlater, rfl⟩

/-- A choice is refused if each writer is on the buffer itself. In whichever order they
were tried, their causes are listed in declared order. -/
theorem choice_error_iff {writers : List (Writer σ α)} {order : PrintOrder} {value : α}
    {buffer : Run σ} {cause : Failure} (happend : ∀ writer ∈ writers, writer.AppendOnly) :
    (choice writers order value buffer).result = .error cause ↔
      ∃ causes, writers.map (fun writer => (writer value buffer).result) = causes.map .error ∧
        .exhausted causes = cause := by
  have harranged : ∀ entry ∈ order.arrange writers.zipIdx, entry.1.AppendOnly := by
    intro entry hentry
    exact happend entry.1 (List.fst_mem_of_mem_zipIdx (order.mem_arrange.mp hentry))
  have hresults : (order.arrange writers.zipIdx).map (fun entry => (entry.1 value buffer).result) =
      order.arrange (writers.map fun writer => (writer value buffer).result) := by
    calc
      (order.arrange writers.zipIdx).map (fun entry => (entry.1 value buffer).result)
          = order.arrange ((writers.zipIdx.map Prod.fst).map
              fun writer => (writer value buffer).result) := by
        rw [List.map_map, ← order.arrange_map]
        rfl
      _ = order.arrange (writers.map fun writer => (writer value buffer).result) := by
        rw [List.zipIdx_map_fst]
  simp only [choice, Writing.mapCause_error_iff, attempts_error_iff harranged, hresults]
  constructor
  · rintro ⟨tried, htried, rfl⟩
    refine ⟨order.arrange tried, ?_, rfl⟩
    rw [← order.arrange_map, ← htried, order.arrange_arrange]
  · rintro ⟨causes, hcauses, rfl⟩
    refine ⟨order.arrange causes, ?_, by rw [order.arrange_arrange]⟩
    rw [hcauses, order.arrange_map]

theorem optional_error {inner : Writer σ α} {value : Option α} {buffer : Run σ} {cause : Failure}
    (h : (optional inner value buffer).result = .error cause) :
    ∃ present, (inner present buffer).result = .error cause := by
  cases value with
  | none => exact absurd h Writing.not_succeed_error
  | some present => exact ⟨present, by rwa [← Writing.undoTo_result buffer.units]⟩

end Choice

/-! ## Repetition -/

section Repetition

variable [Symbol σ] {element : Writer σ α} {separator terminator : Writer σ Unit}

/-- An iteration is refused in the separator, in the element or for having written nothing. -/
theorem iteration_error {first : Bool} {value : α} {buffer : Run σ} {cause : Failure}
    (h : (iteration element separator first value buffer).result = .error cause) :
    (∃ now, (separator () now).result = .error cause) ∨
      (∃ now, (element value now).result = .error cause) ∨
      cause = .unrepresentable "repetition progress" := by
  have hlast {now : Run σ} (hnow : (if now.units = buffer.units then
      Writing.fail (Failure.unrepresentable "repetition progress") now
      else Writing.succeed now).result = .error cause) :
      cause = .unrepresentable "repetition progress" := by
    split at hnow
    · exact (Writing.fail_error_iff.mp hnow).symm
    · exact absurd hnow Writing.not_succeed_error
  rcases Writing.andThen_error_iff.mp h with hwritten | ⟨_, hprogress⟩
  · rcases Writing.andThen_error_iff.mp hwritten with hseparated | ⟨_, helement⟩
    · cases first with
      | true => exact absurd hseparated Writing.not_succeed_error
      | false => exact Or.inl ⟨_, hseparated⟩
    · exact Or.inr (Or.inl ⟨_, helement⟩)
  · exact Or.inr (Or.inr (hlast hprogress))

/-- A join is refused in one of its iterations or in the terminator. -/
theorem join_error {first : Bool} {values : List α} {buffer : Run σ} {cause : Failure}
    (h : (join element separator terminator first values buffer).result = .error cause) :
    (∃ now, (separator () now).result = .error cause) ∨
      (∃ value now, (element value now).result = .error cause) ∨
      (∃ now, (terminator () now).result = .error cause) ∨
      cause = .unrepresentable "repetition progress" := by
  induction values generalizing first buffer with
  | nil => exact Or.inr (Or.inr (Or.inl ⟨buffer, h⟩))
  | cons value others ih =>
      rcases Writing.andThen_error_iff.mp h with hiteration | ⟨_, hothers⟩
      · rcases iteration_error hiteration with hseparator | ⟨now, helement⟩ | hprogress
        · exact Or.inl hseparator
        · exact Or.inr (Or.inl ⟨value, now, helement⟩)
        · exact Or.inr (Or.inr (Or.inr hprogress))
      · exact ih hothers

theorem repetition_error {count : CountRange} {values : List α} {buffer : Run σ} {cause : Failure}
    (h : (repetition element separator terminator count values buffer).result = .error cause) :
    (∃ now, (separator () now).result = .error cause) ∨
      (∃ value now, (element value now).result = .error cause) ∨
      (∃ now, (terminator () now).result = .error cause) ∨
      ∃ reason, cause = .unrepresentable reason := by
  simp only [repetition] at h
  split at h
  · rw [Writing.undoTo_result] at h
    rcases join_error h with hseparator | helement | hterminator | hprogress
    · exact Or.inl hseparator
    · exact Or.inr (Or.inl helement)
    · exact Or.inr (Or.inr (Or.inl hterminator))
    · exact Or.inr (Or.inr (Or.inr ⟨_, hprogress⟩))
  · exact Or.inr (Or.inr (Or.inr ⟨_, (Writing.fail_error_iff.mp h).symm⟩))

end Repetition

end Writer

end InvertibleGrammar
