import InvertibleGrammar.Proofs.Attempts

/-!
# Reports of attempts

The attempts that a grammar makes are made with its parts. A report stands right behind the
attempt that it is about and names the failure of that attempt, if it failed.
-/

namespace InvertibleGrammar

/-- The failure that an event names. -/
def Event.failure? : Event → Option Failure
  | decodeFailed failure _ => some failure
  | encodeFailed failure => some failure
  | alternativeNotRead _ failure => some failure
  | alternativeNotWritten _ failure => some failure
  | repetitionStopped _ (.separator failure) => some failure
  | repetitionStopped _ (.element failure) => some failure
  | repetitionStopped _ .noProgress => none
  | optionalAbsent failure => some failure

variable {σ : Type}

/-- The parts of a grammar, each of them as a slot. -/
def Grammar.children {α : Type} : Grammar σ α → List (Slot σ)
  | sequence slots => slots.toList
  | choice alternatives _ => alternatives.toList.map fun grammar => ⟨grammar⟩
  | repetition element separator terminator _ => [⟨element⟩, ⟨separator⟩, ⟨terminator⟩]
  | skip inner => [⟨inner⟩]
  | convert inner _ => [⟨inner⟩]
  | optional inner => [⟨inner⟩]
  | _ => []

theorem Slots.mem_toList_of_mem_parts {types : List Type} : (slots : Slots σ types) →
    {tuple : Tuple types} → {part : Part σ} → part ∈ slots.parts tuple →
    ⟨part.grammar⟩ ∈ slots.toList
  | .nil, _, _, h => absurd h List.not_mem_nil
  | .keep _ others, _, _, h => by
      rcases List.mem_cons.mp h with rfl | h
      · exact List.mem_cons_self
      · exact List.mem_cons_of_mem _ (others.mem_toList_of_mem_parts h)
  | .skip _ others, _, _, h => by
      rcases List.mem_cons.mp h with rfl | h
      · exact List.mem_cons_self
      · exact List.mem_cons_of_mem _ (others.mem_toList_of_mem_parts h)

/-- The grammar that an attempt is made with. -/
def Attempt.slot : Attempt σ → Slot σ
  | read grammar _ => ⟨grammar⟩
  | write grammar _ _ => ⟨grammar⟩

/-! ## The forms of steps -/

/-- What comes of an option comes of a value that is there. -/
theorem exists_of_mem_elim.{u, v} {γ : Type u} {δ : Type v} {found? : Option γ}
    {f : γ → List δ} {item : δ} (h : item ∈ found?.elim [] f) :
    ∃ found, found? = some found ∧ item ∈ f found := by
  cases found? with
  | none => exact absurd h List.not_mem_nil
  | some found => exact ⟨found, rfl, h⟩

section Forms

variable [Symbol σ]

theorem Part.exists_of_mem_steps {parts : List (Part σ)} {buffer : Run σ} {step : Step σ}
    (h : step ∈ steps parts buffer) :
    ∃ part ∈ parts, ∃ start, step = ⟨.write part.grammar part.value start, none⟩ := by
  induction parts generalizing buffer with
  | nil => exact absurd h List.not_mem_nil
  | cons part others ih =>
      rcases List.mem_cons.mp h with rfl | h
      · exact ⟨part, List.mem_cons_self, buffer, rfl⟩
      · obtain ⟨next, _, h⟩ := exists_of_mem_elim h
        obtain ⟨other, hother, hstep⟩ := ih h
        exact ⟨other, List.mem_cons_of_mem _ hother, hstep⟩

/-- A join writes separators, elements and the terminator, and reports nothing. -/
theorem Grammar.slot_mem_of_mem_joinSteps {α : Type} {element : Grammar σ α}
    {separator terminator : Grammar σ Unit} {first : Bool} {values : List α} {buffer : Run σ}
    {step : Step σ} (h : step ∈ joinSteps element separator terminator first values buffer) :
    step.report? = none ∧ step.attempt.slot ∈ [⟨element⟩, ⟨separator⟩, ⟨terminator⟩] := by
  induction values generalizing first buffer with
  | nil =>
      obtain rfl := List.mem_singleton.mp h
      exact ⟨rfl, by simp [Attempt.slot]⟩
  | cons value others ih =>
      rcases List.mem_append.mp h with hiteration | hothers
      · obtain ⟨part, hpart, start, rfl⟩ := Part.exists_of_mem_steps hiteration
        refine ⟨rfl, ?_⟩
        cases first with
        | true =>
            obtain rfl := List.mem_singleton.mp hpart
            simp [Attempt.slot]
        | false =>
            rcases List.mem_cons.mp hpart with rfl | hpart
            · simp [Attempt.slot]
            · obtain rfl := List.mem_singleton.mp hpart
              simp [Attempt.slot]
      · obtain ⟨next, _, hothers⟩ := exists_of_mem_elim hothers
        exact ih hothers

variable [DecidableEq σ]

theorem Slot.exists_of_mem_steps {slots : List (Slot σ)} {input : Run σ} {step : Step σ}
    (h : step ∈ steps slots input) :
    ∃ slot ∈ slots, ∃ start, step = ⟨.read slot.grammar start, none⟩ := by
  induction slots generalizing input with
  | nil => exact absurd h List.not_mem_nil
  | cons slot others ih =>
      rcases List.mem_cons.mp h with rfl | h
      · exact ⟨slot, List.mem_cons_self, input, rfl⟩
      · obtain ⟨found, _, h⟩ := exists_of_mem_elim h
        obtain ⟨other, hother, hstep⟩ := ih h
        exact ⟨other, List.mem_cons_of_mem _ hother, hstep⟩

theorem Grammar.exists_of_mem_gatherSteps {α : Type} {element : Grammar σ α}
    {separator : Grammar σ Unit} {more count : Nat} {input : Run σ} {step : Step σ}
    (h : step ∈ gatherSteps element separator more count input) :
    ∃ index start, step ∈ iterationSteps element separator index start := by
  induction more generalizing count input with
  | zero => exact absurd h List.not_mem_nil
  | succ more ih =>
      rcases List.mem_append.mp h with hiteration | hlater
      · exact ⟨count, input, hiteration⟩
      · cases hstop : Reader.stop? element.read separator.read count input with
        | none =>
            rw [hstop] at hlater
            exact ih hlater
        | some cause =>
            rw [hstop] at hlater
            exact absurd hlater List.not_mem_nil

section Iteration

variable {α : Type} {element : Grammar σ α} {separator : Grammar σ Unit} {count : Nat}
  {input start : Run σ}

theorem Grammar.iterationSteps_of_separator_error {failure : Failure} (hcount : count ≠ 0)
    (h : (separator.read input).result = .error failure) :
    iterationSteps element separator count input =
      [⟨.read separator input, some (.repetitionStopped count (.separator failure))⟩] := by
  have hfound : (separator.read input).found? = none := Reading.found?_eq_none_iff.mpr ⟨_, h⟩
  simp only [iterationSteps, hcount, if_false, hfound, Reader.stop?_of_separator_error hcount h,
    Option.map_some]

variable (element) in
/-- The element is read last. A separator that comes before it is not reported. -/
theorem Grammar.exists_iterationSteps_of_leads (h : separator.Leads count input start) :
    ∃ earlier, iterationSteps element separator count input =
        earlier ++ [⟨.read element start,
          (Reader.stop? element.read separator.read count input).map (.repetitionStopped count)⟩] ∧
      ∀ step ∈ earlier, step = ⟨.read separator input, none⟩ := by
  by_cases hcount : count = 0
  · obtain rfl : start = input := by simpa only [Leads, hcount, if_true] using h
    refine ⟨[], ?_, List.forall_mem_nil _⟩
    simp only [iterationSteps, hcount, if_true, List.nil_append]
  · have hfound : (separator.read input).found? = some ((), start) := by
      rw [Reading.found?_eq_some_iff]
      simpa only [Leads, hcount, if_false] using h
    refine ⟨[⟨.read separator input, none⟩], ?_, by simp⟩
    simp only [iterationSteps, hcount, if_false, hfound, List.cons_append, List.nil_append]

/-- An iteration fails in its separator or comes to its element. -/
theorem Grammar.separator_error_or_leads (separator : Grammar σ Unit) (count : Nat)
    (input : Run σ) :
    (count ≠ 0 ∧ ∃ failure, (separator.read input).result = .error failure) ∨
      ∃ start, separator.Leads count input start := by
  by_cases hcount : count = 0
  · exact Or.inr ⟨input, by simp only [Leads, hcount, if_true]⟩
  · cases hr : (separator.read input).result with
    | error failure => exact Or.inl ⟨hcount, failure, rfl⟩
    | ok _ =>
        refine Or.inr ⟨(separator.read input).rest, ?_⟩
        simp only [Leads, hcount, if_false]
        exact ⟨hr, rfl⟩

end Iteration

end Forms

/-! ## Reports are sound -/

variable [Symbol σ] [DecidableEq σ]

/-- What is reported behind the attempt of a step is for tracing and names its failure. -/
def Step.Sound (step : Step σ) : Prop :=
  ∀ event, step.report? = some event →
    event.level = .trace ∧ event.failure? = step.attempt.failure?

theorem Step.sound_of_none {step : Step σ} (h : step.report? = none) : step.Sound := by
  intro event hevent
  cases h.symm.trans hevent

/-- A report of nothing but the failure is sound. -/
theorem Step.sound_of_map {attempt : Attempt σ} {report : Failure → Event}
    (hlevel : ∀ failure, (report failure).level = .trace)
    (hfailure : ∀ failure, (report failure).failure? = some failure) :
    (⟨attempt, attempt.failure?.map report⟩ : Step σ).Sound := by
  intro event hevent
  obtain ⟨failure, hmet, rfl⟩ := Option.map_eq_some_iff.mp hevent
  exact ⟨hlevel failure, (hfailure failure).trans hmet.symm⟩

/-- A step is an attempt with one of some grammars, and what is reported behind it is sound. -/
structure Step.MadeWith (step : Step σ) (slots : List (Slot σ)) : Prop where
  slot_mem : step.attempt.slot ∈ slots
  sound : step.Sound

/-- With grammars listed first, a step is still one with some of them. -/
theorem Step.MadeWith.of_append {step : Step σ} {slots : List (Slot σ)}
    (h : step.MadeWith slots) (others : List (Slot σ)) : step.MadeWith (slots ++ others) :=
  ⟨List.mem_append_left others h.slot_mem, h.sound⟩

namespace Grammar

variable {α : Type}

/-- An iteration reports its end with the failure of what was read last, or with none if that
succeeded. -/
theorem madeWith_of_mem_iterationSteps {element : Grammar σ α} {separator : Grammar σ Unit}
    {count : Nat} {input : Run σ} {step : Step σ}
    (h : step ∈ iterationSteps element separator count input) :
    step.MadeWith [⟨element⟩, ⟨separator⟩] := by
  rcases separator_error_or_leads separator count input with
    ⟨hcount, failure, hfails⟩ | ⟨start, hlead⟩
  · rw [iterationSteps_of_separator_error hcount hfails] at h
    obtain rfl := List.mem_singleton.mp h
    refine ⟨by simp [Attempt.slot], ?_⟩
    intro event hevent
    obtain rfl := Option.some.inj hevent
    exact ⟨rfl, (cause?_eq_some_iff.mpr hfails).symm⟩
  · obtain ⟨earlier, hsteps, hearlier⟩ := exists_iterationSteps_of_leads element hlead
    rw [hsteps] at h
    rcases List.mem_append.mp h with h | h
    · rw [hearlier step h]
      exact ⟨by simp [Attempt.slot], Step.sound_of_none rfl⟩
    · obtain rfl := List.mem_singleton.mp h
      refine ⟨by simp [Attempt.slot], ?_⟩
      intro event hevent
      obtain ⟨cause, hstop, rfl⟩ := Option.map_eq_some_iff.mp hevent
      refine ⟨rfl, ?_⟩
      rw [Reader.stop?_of_lead (leads_iff.mp hlead)] at hstop
      cases hr : (element.read start).result with
      | error failure =>
          rw [hr] at hstop
          obtain rfl := Option.some.inj hstop
          exact (cause?_eq_some_iff.mpr hr).symm
      | ok value =>
          simp only [hr] at hstop
          split at hstop
          · cases hstop
          · obtain rfl := Option.some.inj hstop
            simp [Event.failure?, Attempt.failure?, cause?, hr]

/-- A grammar reads through its parts. -/
theorem madeWith_of_mem_readSteps {grammar : Grammar σ α} {input : Run σ} {step : Step σ}
    (h : step ∈ grammar.readSteps input) : step.MadeWith grammar.children := by
  cases grammar with
  | sequence slots =>
      obtain ⟨slot, hslot, start, rfl⟩ := Slot.exists_of_mem_steps h
      exact ⟨hslot, Step.sound_of_none rfl⟩
  | choice alternatives order =>
      obtain ⟨entry, hentry, rfl⟩ := List.mem_map.mp h
      have hmem := List.fst_mem_of_mem_zipIdx (mem_of_mem_upToFirst hentry)
      exact ⟨List.mem_map_of_mem hmem, Step.sound_of_map (fun _ => rfl) fun _ => rfl⟩
  | repetition element separator terminator count =>
      rcases List.mem_append.mp h with h | h
      · obtain ⟨index, start, h⟩ := exists_of_mem_gatherSteps h
        exact (madeWith_of_mem_iterationSteps h).of_append [⟨terminator⟩]
      · split at h
        · exact absurd h List.not_mem_nil
        · obtain rfl := List.mem_singleton.mp h
          exact ⟨by simp [children, Attempt.slot], Step.sound_of_none rfl⟩
  | skip inner =>
      obtain rfl := List.mem_singleton.mp h
      exact ⟨List.mem_cons_self, Step.sound_of_none rfl⟩
  | convert inner conversion =>
      obtain rfl := List.mem_singleton.mp h
      exact ⟨List.mem_cons_self, Step.sound_of_none rfl⟩
  | optional inner =>
      obtain rfl := List.mem_singleton.mp h
      exact ⟨List.mem_cons_self, Step.sound_of_map (fun _ => rfl) fun _ => rfl⟩
  | literal | run | endOfInput | empty | integer | boolean => exact absurd h List.not_mem_nil

/-- A grammar writes through its parts. -/
theorem madeWith_of_mem_writeSteps {grammar : Grammar σ α} {value : α} {buffer : Run σ}
    {step : Step σ} (h : step ∈ grammar.writeSteps value buffer) :
    step.MadeWith grammar.children := by
  cases grammar with
  | sequence slots =>
      obtain ⟨part, hpart, start, rfl⟩ := Part.exists_of_mem_steps h
      exact ⟨slots.mem_toList_of_mem_parts hpart, Step.sound_of_none rfl⟩
  | choice alternatives order =>
      obtain ⟨entry, hentry, rfl⟩ := List.mem_map.mp h
      have hmem := List.fst_mem_of_mem_zipIdx (order.mem_arrange.mp (mem_of_mem_upToFirst hentry))
      exact ⟨List.mem_map_of_mem hmem, Step.sound_of_map (fun _ => rfl) fun _ => rfl⟩
  | repetition element separator terminator count =>
      rw [writeSteps] at h
      split at h
      · obtain ⟨hnone, hslot⟩ := slot_mem_of_mem_joinSteps h
        exact ⟨hslot, Step.sound_of_none hnone⟩
      · exact absurd h List.not_mem_nil
  | skip inner =>
      obtain rfl := List.mem_singleton.mp h
      exact ⟨List.mem_cons_self, Step.sound_of_none rfl⟩
  | convert inner conversion =>
      rw [writeSteps] at h
      split at h
      · obtain rfl := List.mem_singleton.mp h
        exact ⟨List.mem_cons_self, Step.sound_of_none rfl⟩
      · exact absurd h List.not_mem_nil
  | optional inner =>
      cases value with
      | none => exact absurd h List.not_mem_nil
      | some present =>
          obtain rfl := List.mem_singleton.mp h
          exact ⟨List.mem_cons_self, Step.sound_of_none rfl⟩
  | literal | run | endOfInput | empty | integer | boolean => exact absurd h List.not_mem_nil

end Grammar

theorem Attempt.madeWith_of_mem_steps {attempt : Attempt σ} {step : Step σ}
    (h : step ∈ attempt.steps) : step.MadeWith attempt.slot.grammar.children := by
  cases attempt with
  | read grammar input => exact Grammar.madeWith_of_mem_readSteps h
  | write grammar value buffer => exact Grammar.madeWith_of_mem_writeSteps h

end InvertibleGrammar
