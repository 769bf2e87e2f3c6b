import InvertibleGrammar.Proofs.Reports

/-!
# Nested attempts

An attempt within another is made for it directly or within an attempt that is. However deep
it lies and whether it is kept or taken back, its events stand in the log of the whole in one
piece, with its report behind them. The log is made of the reports of these attempts alone.
-/

namespace InvertibleGrammar

variable {σ : Type}

/-! ## Parts of grammars -/

/-- The property passes from the parts of a grammar to the grammar. -/
def Slot.Inductive (motive : Slot σ → Prop) : Prop :=
  ∀ slot : Slot σ, (∀ child ∈ slot.grammar.children, motive child) → motive slot

section Induction

variable {motive : Slot σ → Prop}

theorem Slot.Inductive.of_no_children (h : Inductive motive) {slot : Slot σ}
    (hslot : slot.grammar.children = []) : motive slot := by
  apply h
  rw [hslot]
  exact List.forall_mem_nil _

mutual

/-- What passes from parts to grammars holds of every grammar. -/
theorem Grammar.of_inductive (h : Slot.Inductive motive) {α : Type} :
    (grammar : Grammar σ α) → motive ⟨grammar⟩
  | .sequence slots => h _ (slots.of_inductive h)
  | .choice alternatives _ => by
      apply h
      intro child hchild
      obtain ⟨grammar, hgrammar, rfl⟩ := List.mem_map.mp hchild
      exact alternatives.of_inductive h grammar hgrammar
  | .repetition element separator terminator _ => by
      apply h
      exact List.forall_mem_cons.mpr ⟨element.of_inductive h, List.forall_mem_cons.mpr
        ⟨separator.of_inductive h, List.forall_mem_singleton.mpr (terminator.of_inductive h)⟩⟩
  | .skip inner => h _ (List.forall_mem_singleton.mpr (inner.of_inductive h))
  | .convert inner _ => h _ (List.forall_mem_singleton.mpr (inner.of_inductive h))
  | .optional inner => h _ (List.forall_mem_singleton.mpr (inner.of_inductive h))
  | .literal _ => h.of_no_children rfl
  | .run _ _ => h.of_no_children rfl
  | .endOfInput => h.of_no_children rfl
  | .empty => h.of_no_children rfl
  | .integer _ => h.of_no_children rfl
  | .boolean => h.of_no_children rfl

theorem Slots.of_inductive (h : Slot.Inductive motive) {types : List Type} :
    (slots : Slots σ types) → ∀ slot ∈ slots.toList, motive slot
  | .nil => List.forall_mem_nil _
  | .keep first others =>
      List.forall_mem_cons.mpr ⟨first.of_inductive h, others.of_inductive h⟩
  | .skip first others =>
      List.forall_mem_cons.mpr ⟨first.of_inductive h, others.of_inductive h⟩

theorem Alternatives.of_inductive (h : Slot.Inductive motive) {α : Type} :
    (alternatives : Alternatives σ α) → ∀ grammar ∈ alternatives.toList, motive ⟨grammar⟩
  | .nil => List.forall_mem_nil _
  | .cons first others =>
      List.forall_mem_cons.mpr ⟨first.of_inductive h, others.of_inductive h⟩

end

end Induction

/-! ## Attempts at any depth -/

namespace Attempt

variable [Symbol σ] [DecidableEq σ]

/-- What passes from the attempts made for one to that one holds of every attempt. -/
theorem of_steps {motive : Attempt σ → Prop}
    (h : ∀ attempt : Attempt σ, (∀ step ∈ attempt.steps, motive step.attempt) → motive attempt)
    (attempt : Attempt σ) : motive attempt := by
  have hslot : Slot.Inductive fun slot : Slot σ =>
      ∀ attempt : Attempt σ, attempt.slot = slot → motive attempt := by
    rintro _ hchildren attempt rfl
    apply h
    intro step hstep
    exact hchildren _ (madeWith_of_mem_steps hstep).slot_mem step.attempt rfl
  exact attempt.slot.grammar.of_inductive hslot attempt rfl

/-- The step is made for the attempt, or for an attempt within it. -/
inductive Includes : Attempt σ → Step σ → Prop
  | made {attempt : Attempt σ} {step : Step σ} (h : step ∈ attempt.steps) : Includes attempt step
  | within {attempt : Attempt σ} {outer step : Step σ} (h : outer ∈ attempt.steps)
      (later : Includes outer.attempt step) : Includes attempt step

theorem isInfix_of_mem_steps {attempt : Attempt σ} {step : Step σ} (h : step ∈ attempt.steps) :
    step.log <:+: attempt.log := by
  obtain ⟨before, after, hsteps⟩ := List.append_of_mem h
  rw [attempt.log_eq, hsteps]
  exact ⟨before.flatMap Step.log, after.flatMap Step.log, by simp⟩

/-- What is told during an attempt at any depth is kept in one piece, with the report. -/
theorem Includes.isInfix {attempt : Attempt σ} {step : Step σ} (h : attempt.Includes step) :
    step.log <:+: attempt.log := by
  induction h with
  | made h => exact isInfix_of_mem_steps h
  | @within attempt outer step h later ih =>
      have houter : outer.attempt.log <:+: outer.log := List.infix_append' [] _ _
      exact ih.trans (houter.trans (isInfix_of_mem_steps h))

theorem Includes.sound {attempt : Attempt σ} {step : Step σ} (h : attempt.Includes step) :
    step.Sound := by
  induction h with
  | made h => exact (madeWith_of_mem_steps h).sound
  | within h later ih => exact ih

/-- The events of an attempt are the reports of the attempts within it. -/
theorem mem_log_iff {attempt : Attempt σ} {event : Event} :
    event ∈ attempt.log ↔ ∃ step, attempt.Includes step ∧ step.report? = some event := by
  constructor
  · induction attempt using of_steps with
    | h attempt ih =>
        intro hevent
        rw [attempt.log_eq] at hevent
        obtain ⟨step, hstep, hevent⟩ := List.mem_flatMap.mp hevent
        rcases List.mem_append.mp hevent with hwithin | hreport
        · obtain ⟨inner, hinner, hevent⟩ := ih step hstep hwithin
          exact ⟨inner, .within hstep hinner, hevent⟩
        · exact ⟨step, .made hstep, Option.mem_toList.mp hreport⟩
  · rintro ⟨step, hincludes, hevent⟩
    apply hincludes.isInfix.mem
    exact List.mem_append_right _ (Option.mem_toList.mpr hevent)

theorem level_of_mem_log {attempt : Attempt σ} {event : Event} (h : event ∈ attempt.log) :
    event.level = .trace := by
  obtain ⟨step, hincludes, hevent⟩ := mem_log_iff.mp h
  exact (hincludes.sound event hevent).1

end Attempt

end InvertibleGrammar
