import InvertibleGrammar.Proofs.CheckedJoin
import InvertibleGrammar.Proofs.LeafRoundTrips
import InvertibleGrammar.Proofs.Reproduction

/-!
# Lists with a fixed separator

A list of any length is written with a fixed run between the forms of its values. It is
written just if each value can be and each iteration prints something, where only the
first has no separator to print. It is read back value by value if each form is read
before the separator and at the end of the input. What is read from a form need not be
the value that was written. Without a terminator, reading such a list never fails, since
it may stop anywhere, and what it read is written again as it stood.
-/

namespace InvertibleGrammar

variable {σ : Type} [Symbol σ]

/-- A joined list is its first item, and each later one behind a separator. -/
theorem Run.intercalate_cons_eq_flatMap {σ : Type} (separator item : Run σ) (items : List (Run σ)) :
    List.intercalate separator (item :: items) =
      item ++ items.flatMap fun later => separator ++ later := by
  induction items generalizing item with
  | nil => simp
  | cons next items ih =>
      rw [List.intercalate_cons_cons, ih, List.flatMap_cons, List.append_assoc, List.append_assoc]

/-! ## Separators that end runs -/

namespace Run

variable {σ : Type} {accepts : σ → Bool} {run : Run σ}

/-- The run starts with a symbol, and that symbol is not accepted. -/
def Ends (accepts : σ → Bool) (run : Run σ) : Prop :=
  run ≠ [] ∧ ∀ s ∈ run.head?, accepts s = false

/-- What ends accepted symbols is decided at the start of a run. -/
theorem ends_append_iff (h : run ≠ []) (rest : Run σ) :
    (run ++ rest).Ends accepts ↔ run.Ends accepts := by
  obtain ⟨first, others, rfl⟩ := List.exists_cons_of_ne_nil h
  simp [Ends]

/-- Accepted symbols do not go on where the input ends or such a run stands. -/
theorem Ends.head?_not_accepted {rest : Run σ} (h : run.Ends accepts)
    (hrest : rest = [] ∨ run <+: rest) : ∀ s ∈ rest.head?, accepts s = false := by
  rcases hrest with rfl | ⟨after, rfl⟩
  · simp
  · exact ((ends_append_iff h.1 after).mpr h).2

end Run

/-! ## Reading -/

namespace Reader

variable {α : Type} {element : Reader σ α} {separator terminator : Reader σ Unit}

/-- The first value of a repetition is read at the start of the input. -/
theorem exists_of_repetition_yields_cons {count : CountRange} {input rest : Run σ} {value : α}
    {values : List α}
    (h : (repetition element separator terminator count input).Yields (value :: values) rest) :
    ∃ middle, (element input).Yields value middle := by
  obtain ⟨_, hvalues, _⟩ := repetition_yields_iff.mp h
  have hchain := gather_iterates element separator count.max.toNat 0 input
  rw [hvalues] at hchain
  cases hchain with
  | @more _ _ middle _ _ _ step progress later =>
      obtain ⟨start, hstart, hvalue⟩ := iteration_yields_iff.mp step
      obtain rfl := empty_yields_iff.mp hstart
      exact ⟨middle, hvalue⟩

section Forms

variable [DecidableEq σ] {β : Type} {between : Run σ} {form : β → Run σ} {image : β → α}
  {values : List β}

theorem literal_yields (text rest : Run σ) : (literal text (text ++ rest)).Yields () rest :=
  words_yields [] (by simp)

/-- From its form each value is read as its image, before the separator and at the end. -/
def ReadsForms (element : Reader σ α) (between : Run σ) (form : β → Run σ) (image : β → α)
    (values : List β) : Prop :=
  ∀ value ∈ values, ∀ rest, rest = [] ∨ between <+: rest →
    (element (form value ++ rest)).Yields (image value) rest

omit [Symbol σ] [DecidableEq σ] in
/-- Behind a value the input ends or the separator stands. -/
theorem later_forms_follow (between : Run σ) (form : β → Run σ) (values : List β) :
    (values.flatMap fun value => between ++ form value) = [] ∨
      between <+: values.flatMap fun value => between ++ form value := by
  cases values with
  | nil => exact Or.inl rfl
  | cons value others =>
      rw [List.flatMap_cons, List.append_assoc]
      exact Or.inr (List.prefix_append _ _)

/-- An iteration reads a form, behind a separator unless it is the first. -/
theorem Iterates.cons_form {count : Nat} {value : β} {later : List α} {rest left : Run σ}
    (hvalue : (element (form value ++ rest)).Yields (image value) rest)
    (hprogress : (if count = 0 then [] else between) ++ form value ≠ [])
    (hlater : Iterates element (literal between) (count + 1) rest later left) :
    Iterates element (literal between) count
      ((if count = 0 then [] else between) ++ form value ++ rest) (image value :: later) left := by
  have hstep : (iteration element (literal between) count
      ((if count = 0 then [] else between) ++ form value ++ rest)).Yields (image value) rest := by
    rw [iteration_yields_iff, List.append_assoc]
    refine ⟨form value ++ rest, ?_, hvalue⟩
    by_cases hcount : count = 0
    · rw [if_pos hcount, if_pos hcount]
      exact empty_yields_iff.mpr rfl
    · rw [if_neg hcount, if_neg hcount]
      exact literal_yields between _
  refine .more hstep ?_ hlater
  have hpositive := mt Run.units_eq_zero_iff.mp hprogress
  rw [Run.units_append]
  omega

/-- Behind the first value, each iteration reads a separator and a form. -/
theorem iterates_of_later_forms {count : Nat} (hcount : count ≠ 0)
    (hread : ReadsForms element between form image values)
    (hprogress : ∀ value ∈ values, between ++ form value ≠ []) :
    Iterates element (literal between) count (values.flatMap fun value => between ++ form value)
      (values.map image) [] := by
  induction values generalizing count with
  | nil => exact .done
  | cons value others ih =>
      obtain ⟨hvalue, hothers⟩ := List.forall_mem_cons.mp hread
      obtain ⟨hnonempty, hlater⟩ := List.forall_mem_cons.mp hprogress
      have hchain := ih (Nat.succ_ne_zero count) hothers hlater
      have hlead : (if count = 0 then [] else between) = between := if_neg hcount
      have hwhole : Iterates element (literal between) count
          ((if count = 0 then [] else between) ++ form value ++
            others.flatMap fun other => between ++ form other)
          (image value :: others.map image) [] :=
        hchain.cons_form (hvalue _ (later_forms_follow between form others)) (by rwa [hlead])
      rwa [hlead] at hwhole

/-- The forms of a list are read iteration by iteration up to the end of the input. -/
theorem iterates_of_forms (hread : ReadsForms element between form image values)
    (hfirst : ∀ value ∈ values.head?, form value ≠ [])
    (hlater : ∀ value ∈ values.tail, between ++ form value ≠ []) :
    Iterates element (literal between) 0 (List.intercalate between (values.map form))
      (values.map image) [] := by
  cases values with
  | nil => exact .done
  | cons value others =>
      obtain ⟨hvalue, hothers⟩ := List.forall_mem_cons.mp hread
      have hchain := iterates_of_later_forms Nat.one_ne_zero hothers hlater
      rw [List.map_cons, Run.intercalate_cons_eq_flatMap, List.flatMap_map]
      exact hchain.cons_form (hvalue _ (later_forms_follow between form others)) (hfirst value rfl)

/-- A list of any length is read from its joined forms if they are the whole input and the
terminator is read at its end. -/
theorem repetition_yields_forms (hcount : values.length < UInt64.size)
    (hread : ReadsForms element between form image values)
    (hfirst : ∀ value ∈ values.head?, form value ≠ [])
    (hlater : ∀ value ∈ values.tail, between ++ form value ≠ [])
    (hterminator : (terminator []).Yields () []) :
    (repetition element (literal between) terminator .any
      (List.intercalate between (values.map form))).Yields (values.map image) [] := by
  have hany : CountRange.any.max.toNat = UInt64.size - 1 := rfl
  have hchain := iterates_of_forms hread hfirst hlater
  have hlimit : 0 + (values.map image).length ≤ CountRange.any.max.toNat := by
    rw [List.length_map, hany]
    omega
  obtain ⟨hvalues, hrest⟩ := gather_of_iterates hchain (Or.inr hlimit) (stops_nil _ _ _ _)
  exact repetition_yields_iff.mpr ⟨[], hvalues, hrest, Nat.zero_le _, hterminator⟩

end Forms

end Reader

/-! ## Writing -/

namespace Grammar

variable {α : Type} {element : Grammar σ α} {between : Run σ} {terminator : Grammar σ Unit}
  {values : List α}

/-- Fewer values than there are counts are written if each of them can be, and the first
prints something. A later one may print nothing if the separator is there. -/
theorem repetition_accepted_iff (hcount : values.length < UInt64.size)
    (hterminator : Part.Accepted ⟨terminator, ()⟩) :
    ((repetition element (.literal between) terminator .any).write values []).result = .ok () ↔
      (∀ value ∈ values, Part.Accepted ⟨element, value⟩) ∧
        (∀ value ∈ values.head?, element.output value ≠ []) ∧
        ∀ value ∈ values.tail, between ++ element.output value ≠ [] := by
  have hchecks := (repetition_checked element (.literal between) terminator .any values []).result_eq
  have hseparator : Part.Accepted (⟨.literal between, ()⟩ : Part σ) := rfl
  have hprinted : (literal between).output () = between := rfl
  rw [hchecks, forM_eq_ok_iff, joinChecks, if_pos (CountRange.any_contains hcount),
    List.forall_mem_cons, List.forall_mem_append, Part.forall_firstChecks_iff,
    List.forall_mem_singleton, hprinted]
  constructor
  · rintro ⟨_, ⟨hvalues, _, hfirst, hlater⟩, _⟩
    exact ⟨hvalues, hfirst, hlater⟩
  · rintro ⟨hvalues, hfirst, hlater⟩
    exact ⟨rfl, ⟨hvalues, fun _ => hseparator, hfirst, hlater⟩, hterminator⟩

/-- If accepted values print something, each iteration does. -/
theorem repetition_accepted_iff_of_prints (hcount : values.length < UInt64.size)
    (hterminator : Part.Accepted ⟨terminator, ()⟩)
    (hprints : ∀ value ∈ values, Part.Accepted ⟨element, value⟩ → element.output value ≠ []) :
    ((repetition element (.literal between) terminator .any).write values []).result = .ok () ↔
      ∀ value ∈ values, Part.Accepted ⟨element, value⟩ := by
  rw [repetition_accepted_iff hcount hterminator]
  constructor
  · intro h
    exact h.1
  · intro h
    refine ⟨h, fun value hfirst => ?_, fun value hlater => ?_⟩
    · have hmem := List.mem_of_mem_head? hfirst
      exact hprints value hmem (h value hmem)
    · have hmem := List.mem_of_mem_tail hlater
      exact List.append_ne_nil_of_right_ne_nil _ (hprints value hmem (h value hmem))

theorem repetition_output {count : CountRange}
    (h : ((repetition element (.literal between) terminator count).write values []).result =
      .ok ()) :
    (repetition element (.literal between) terminator count).output values =
      List.intercalate between (values.map element.output) ++ terminator.output () := by
  have hchecked := repetition_checked element (.literal between) terminator count values []
  exact (hchecked.buffer_eq h).trans (List.nil_append _)

/-! ## Both directions -/

variable [DecidableEq σ]

/-- A list that was written is decoded value by value, each as the image of the value, if
the terminator leaves no trace. -/
theorem decodeExact_repetition {image : α → α} (hcount : values.length < UInt64.size)
    (haccepted :
      ((repetition element (.literal between) terminator .any).write values []).result = .ok ())
    (hread : Reader.ReadsForms element.read between element.output image values)
    (hterminator : terminator.RoundTrips () []) (hnothing : terminator.output () = []) :
    ((repetition element (.literal between) terminator .any).decodeExact
      ((repetition element (.literal between) terminator .any).output values)).result =
        .ok (values.map image) := by
  obtain ⟨_, hfirst, hlater⟩ := (repetition_accepted_iff hcount hterminator.1).mp haccepted
  have hclosing : (terminator.read []).Yields () [] := by
    have hread := hterminator.2
    rwa [hnothing] at hread
  rw [repetition_output haccepted, hnothing, List.append_nil, decodeExact_ok_iff]
  exact Reader.repetition_yields_forms hcount hread hfirst hlater hclosing

/-- Without a terminator something is read from every input, if only an empty list. If
elements and separators are written as they were read, so is the list. -/
theorem separated_reads {separator : Grammar σ Unit}
    (helement : Reproduces element.read element.write)
    (hseparator : Reproduces separator.read separator.write) (input : Run σ) :
    ∃ values taken rest, input = taken ++ rest ∧
      ((separated element separator).read input).Yields values rest ∧
      (separated element separator).write.Prints values taken := by
  have hread : ((separated element separator).read input).Yields _ _ :=
    Reader.repetition_yields_iff.mpr
      ⟨_, rfl, rfl, Nat.zero_le _, Reader.empty_yields_iff.mpr rfl⟩
  obtain ⟨taken, hinput, hprints⟩ :=
    reproduces_repetition helement hseparator reproduces_empty .any input _ _ hread
  exact ⟨_, taken, _, hinput, hread, hprints⟩

end Grammar

end InvertibleGrammar
