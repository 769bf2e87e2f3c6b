import InvertibleGrammar.Proofs.AppendOnly

/-!
# Successful writings

When a writing succeeds and what it then leaves in the buffer. A writer prints a
value as an output if it appends just that to every buffer. What a combination of
writers prints is put together from what its parts print.
-/

namespace InvertibleGrammar

namespace Writing

variable {σ ε ε' : Type}

/-- The writing succeeded and left `buffer`. -/
def Leaves (writing : Writing σ ε) (buffer : Run σ) : Prop :=
  writing.result = .ok () ∧ writing.buffer = buffer

/-- The value was refused. -/
def Refused (writing : Writing σ ε) : Prop := ∃ cause, writing.result = .error cause

@[simp] theorem succeed_leaves_iff {buffer buffer' : Run σ} :
    (succeed buffer : Writing σ ε).Leaves buffer' ↔ buffer = buffer' := by
  simp [Leaves, succeed]

/-- Going on succeeds through a buffer left in between. -/
theorem andThen_leaves_iff {writing : Writing σ ε} {next : Run σ → Writing σ ε}
    {buffer : Run σ} :
    (writing.andThen next).Leaves buffer ↔
      ∃ middle, writing.Leaves middle ∧ (next middle).Leaves buffer := by
  cases hr : writing.result with
  | ok _ => simp [Leaves, andThen, hr]
  | error cause => simp [Leaves, andThen, hr]

/-- Two steps that append leave what they append, one after the other. -/
theorem leaves_andThen {writing : Writing σ ε} {next : Run σ → Writing σ ε} {buffer a b : Run σ}
    (hfirst : writing.Leaves (buffer ++ a)) (hnext : ∀ now, (next now).Leaves (now ++ b)) :
    (writing.andThen next).Leaves (buffer ++ (a ++ b)) := by
  apply andThen_leaves_iff.mpr
  refine ⟨buffer ++ a, hfirst, ?_⟩
  rw [← List.append_assoc]
  exact hnext (buffer ++ a)

theorem mapCause_leaves_iff {writing : Writing σ ε} {f : ε → ε'} {buffer : Run σ} :
    (writing.mapCause f).Leaves buffer ↔ writing.Leaves buffer := by
  cases writing with
  | mk result left log =>
      cases result with
      | ok _ =>
          constructor
          · rintro ⟨_, hbuffer⟩
            exact ⟨rfl, hbuffer⟩
          · rintro ⟨_, hbuffer⟩
            exact ⟨rfl, hbuffer⟩
      | error cause =>
          constructor
          · rintro ⟨h, _⟩
            cases h
          · rintro ⟨h, _⟩
            cases h

theorem undoTo_leaves_iff [Symbol σ] {writing : Writing σ ε} {length : Nat} {buffer : Run σ} :
    (writing.undoTo length).Leaves buffer ↔ writing.Leaves buffer := by
  cases hr : writing.result with
  | ok _ => simp [Leaves, undoTo, hr]
  | error cause => simp [Leaves, undoTo, hr]

/-! ### What a success leaves -/

/-- The buffer that was left, if the writing succeeded. -/
def left? (writing : Writing σ ε) : Option (Run σ) :=
  match writing.result with
  | .ok () => some writing.buffer
  | .error _ => none

theorem left?_eq_some_iff {writing : Writing σ ε} {buffer : Run σ} :
    writing.left? = some buffer ↔ writing.Leaves buffer := by
  cases hr : writing.result with
  | ok _ => simp [left?, Leaves, hr]
  | error _ => simp [left?, Leaves, hr]

theorem left?_eq_none_iff {writing : Writing σ ε} : writing.left? = none ↔ writing.Refused := by
  cases hr : writing.result with
  | ok _ => simp [left?, Refused, hr]
  | error _ => simp [left?, Refused, hr]

theorem mapCause_left? (f : ε → ε') (writing : Writing σ ε) :
    (writing.mapCause f).left? = writing.left? := by
  apply Option.ext
  intro buffer
  rw [left?_eq_some_iff, left?_eq_some_iff, mapCause_leaves_iff]

end Writing

namespace Writer

variable {σ α β : Type}

/-- Writing the value succeeds after every buffer and appends `output`. -/
def Prints (writer : Writer σ α) (value : α) (output : Run σ) : Prop :=
  ∀ buffer, (writer value buffer).Leaves (buffer ++ output)

/-- For a writer that only appends, an empty buffer tells what it prints. -/
theorem AppendOnly.prints_iff {writer : Writer σ α} (h : writer.AppendOnly) {value : α}
    {output : Run σ} : writer.Prints value output ↔ (writer value []).Leaves output := by
  constructor
  · intro hprints
    exact hprints []
  · rintro ⟨hresult, hbuffer⟩ buffer
    rw [h value buffer]
    exact ⟨hresult, by rw [Writing.after_buffer, hbuffer]⟩

/-- For a writer that only appends, an empty buffer tells what it refuses. -/
theorem AppendOnly.refused {writer : Writer σ α} (h : writer.AppendOnly) {value : α}
    (hrefused : (writer value []).Refused) (buffer : Run σ) : (writer value buffer).Refused := by
  rw [h value buffer]
  exact hrefused

/-! ## Leaves -/

theorem empty_prints : (empty : Writer σ Unit).Prints () [] := by
  intro buffer
  simp [empty]

/-- A writer that appends a form of the value prints that form. -/
theorem form_prints {writer : Writer σ α} {form : α → Run σ}
    (h : ∀ value buffer, writer value buffer = .succeed (buffer ++ form value)) (value : α) :
    writer.Prints value (form value) := by
  intro buffer
  rw [h value buffer]
  exact ⟨rfl, rfl⟩

theorem literal_prints (text : Run σ) : (literal text).Prints () text :=
  form_prints (fun _ _ => rfl) ()

theorem boolean_prints [Symbol σ] (value : Bool) : (boolean : Writer σ Bool).Prints value
    (Run.spelling (if value then "true" else "false")) :=
  form_prints (fun _ _ => rfl) value

theorem integer_prints [Symbol σ] {t : IntType} (value : t.Value) :
    (integer t : Writer σ t.Value).Prints value (Numeral.spelling value.val) :=
  form_prints (fun _ _ => rfl) value

theorem run_prints {accepts : σ → Bool} {length : CountRange} {value : Run σ}
    (haccepts : value.all accepts = true) (hlength : length.contains value.length = true) :
    (run accepts length).Prints value value := by
  intro buffer
  simp only [run]
  rw [haccepts, hlength]
  exact ⟨rfl, rfl⟩

/-! ## Sequences -/

theorem keep_prints {types : List Type} {first : Writer σ α} {others : Writer σ (Tuple types)}
    {tuple : Tuple (α :: types)} {a b : Run σ} (hfirst : first.Prints tuple.head a)
    (hothers : others.Prints tuple.tail b) : (keep first others).Prints tuple (a ++ b) := by
  intro buffer
  exact Writing.leaves_andThen (hfirst buffer) hothers

theorem skip_prints {first : Writer σ Unit} {others : Writer σ α} {value : α} {a b : Run σ}
    (hfirst : first.Prints () a) (hothers : others.Prints value b) :
    (skip first others).Prints value (a ++ b) := by
  intro buffer
  exact Writing.leaves_andThen (hfirst buffer) hothers

theorem convert_prints {inner : Writer σ α} {conversion : Conversion α β} {value : β} {before : α}
    {output : Run σ} (hunapply : conversion.unapply value = .ok before)
    (hinner : inner.Prints before output) : (convert inner conversion).Prints value output := by
  intro buffer
  simp only [convert, hunapply]
  exact hinner buffer

/-! ## Choice -/

section Choice

variable [Symbol σ]

/-- Each attempt starts on the same buffer, since what a refused one wrote is cut off. -/
theorem attempts_left? {value : α} {mark : Run σ} {writers : List (Writer σ α × Nat)}
    (happend : ∀ entry ∈ writers, entry.1.AppendOnly) :
    (attempts value mark.units writers mark).left? =
      writers.findSome? fun entry => (entry.1 value mark).left? := by
  induction writers with
  | nil => rfl
  | cons entry others ih =>
      obtain ⟨writer, index⟩ := entry
      have hcut : Run.truncate mark.units (writer value mark).buffer = mark :=
        Run.truncate_of_prefix ((happend _ List.mem_cons_self).prefix_buffer value mark)
      have hothers := ih fun entry hentry => happend entry (List.mem_cons_of_mem _ hentry)
      rw [List.findSome?_cons]
      cases hr : (writer value mark).result with
      | ok _ =>
          have hwritten : (writer value mark).left? = some (writer value mark).buffer :=
            Writing.left?_eq_some_iff.mpr ⟨hr, rfl⟩
          simp only [hwritten, attempts, hr]
          rfl
      | error cause =>
          have hrefused : (writer value mark).left? = none :=
            Writing.left?_eq_none_iff.mpr ⟨cause, hr⟩
          simp only [hrefused, attempts, hr, hcut, ← hothers]
          exact Writing.mapCause_left? _ _

/-- A choice writes as the first writer does that succeeds in the order of trying. -/
theorem choice_left? {writers : List (Writer σ α)} (order : PrintOrder) (value : α)
    (buffer : Run σ) (happend : ∀ writer ∈ writers, writer.AppendOnly) :
    (choice writers order value buffer).left? =
      (order.arrange writers).findSome? fun writer => (writer value buffer).left? := by
  have harranged : ∀ entry ∈ order.arrange writers.zipIdx, entry.1.AppendOnly := by
    intro entry hentry
    exact happend entry.1 (List.fst_mem_of_mem_zipIdx (order.mem_arrange.mp hentry))
  calc
    (choice writers order value buffer).left?
        = (order.arrange writers.zipIdx).findSome? fun entry => (entry.1 value buffer).left? := by
      rw [← attempts_left? harranged]
      exact Writing.mapCause_left? _ _
    _ = ((order.arrange writers.zipIdx).map Prod.fst).findSome?
          fun writer => (writer value buffer).left? := by
      rw [List.findSome?_map]
      rfl
    _ = (order.arrange writers).findSome? fun writer => (writer value buffer).left? := by
      rw [← order.arrange_map, List.zipIdx_map_fst]

/-- A choice prints as the first alternative that accepts the value in the order of trying. -/
theorem choice_prints {writers earlier later : List (Writer σ α)} {chosen : Writer σ α}
    {order : PrintOrder} {value : α} {output : Run σ}
    (happend : ∀ writer ∈ writers, writer.AppendOnly)
    (hsplit : order.arrange writers = earlier ++ chosen :: later)
    (hchosen : chosen.Prints value output)
    (hearlier : ∀ writer ∈ earlier, (writer value []).Refused) :
    (choice writers order).Prints value output := by
  intro buffer
  rw [← Writing.left?_eq_some_iff, choice_left? order value buffer happend, hsplit,
    List.findSome?_eq_some_iff]
  refine ⟨earlier, chosen, later, rfl, Writing.left?_eq_some_iff.mpr (hchosen buffer), ?_⟩
  intro writer hwriter
  have hmem : writer ∈ order.arrange writers := by
    rw [hsplit]
    exact List.mem_append_left _ hwriter
  apply Writing.left?_eq_none_iff.mpr
  exact (happend writer (order.mem_arrange.mp hmem)).refused (hearlier writer hwriter) buffer

theorem optional_prints_none {inner : Writer σ α} : (optional inner).Prints none [] := by
  intro buffer
  simp [optional]

theorem optional_prints_some_iff {inner : Writer σ α} {value : α} {output : Run σ} :
    (optional inner).Prints (some value) output ↔ inner.Prints value output := by
  apply forall_congr'
  intro buffer
  exact Writing.undoTo_leaves_iff

end Choice

/-! ## Repetition -/

section Repetition

variable [Symbol σ] {element : Writer σ α} {separator terminator : Writer σ Unit}

/-- An iteration prints the separator, unless it is the first, and the element. -/
theorem iteration_leaves {first : Bool} {value : α} {lead piece : Run σ}
    (hlead : (if first then empty else separator : Writer σ Unit).Prints () lead)
    (hpiece : element.Prints value piece) (hprogress : lead ++ piece ≠ []) (buffer : Run σ) :
    (iteration element separator first value buffer).Leaves (buffer ++ (lead ++ piece)) := by
  have hseparated : (if first then .succeed buffer else separator () buffer :
      Writing σ Failure).Leaves (buffer ++ lead) := by
    cases first with
    | true => exact hlead buffer
    | false => exact hlead buffer
  have hunits : (buffer ++ (lead ++ piece)).units ≠ buffer.units := by
    have hpositive := mt Run.units_eq_zero_iff.mp hprogress
    rw [Run.units_append]
    omega
  apply Writing.andThen_leaves_iff.mpr
  refine ⟨buffer ++ (lead ++ piece), Writing.leaves_andThen hseparated hpiece, ?_⟩
  rw [if_neg hunits]
  exact ⟨rfl, rfl⟩

theorem join_leaves_cons {first : Bool} {value : α} {others : List α} {piece output : Run σ}
    (hiteration : ∀ buffer,
      (iteration element separator first value buffer).Leaves (buffer ++ piece))
    (hothers : ∀ buffer,
      (join element separator terminator false others buffer).Leaves (buffer ++ output))
    (buffer : Run σ) :
    (join element separator terminator first (value :: others) buffer).Leaves
      (buffer ++ (piece ++ output)) :=
  Writing.leaves_andThen (hiteration buffer) hothers

/-- Where a join succeeds, writing each of its values did. -/
theorem exists_leaves_of_join {first : Bool} {values : List α} {buffer left : Run σ}
    (h : (join element separator terminator first values buffer).Leaves left) :
    ∀ value ∈ values, ∃ before after, (element value before).Leaves after := by
  induction values generalizing first buffer with
  | nil => simp
  | cons value others ih =>
      obtain ⟨next, hiteration, hothers⟩ := Writing.andThen_leaves_iff.mp h
      obtain ⟨now, hwritten, _⟩ := Writing.andThen_leaves_iff.mp hiteration
      obtain ⟨before, _, helement⟩ := Writing.andThen_leaves_iff.mp hwritten
      intro other hother
      rcases List.mem_cons.mp hother with rfl | hother
      · exact ⟨before, now, helement⟩
      · exact ih hothers other hother

/-- Where a repetition succeeds, writing each of its values did. -/
theorem exists_leaves_of_repetition {count : CountRange} {values : List α} {buffer left : Run σ}
    (h : (repetition element separator terminator count values buffer).Leaves left) :
    ∀ value ∈ values, ∃ before after, (element value before).Leaves after := by
  simp only [repetition] at h
  split at h
  · exact exists_leaves_of_join (Writing.undoTo_leaves_iff.mp h)
  · cases h.1

theorem repetition_prints {count : CountRange} {values : List α} {output : Run σ}
    (hcount : count.contains values.length = true)
    (hjoin : ∀ buffer,
      (join element separator terminator true values buffer).Leaves (buffer ++ output)) :
    (repetition element separator terminator count).Prints values output := by
  intro buffer
  simp only [repetition]
  rw [if_pos hcount]
  apply Writing.undoTo_leaves_iff.mpr
  exact hjoin buffer

end Repetition

end Writer

end InvertibleGrammar
