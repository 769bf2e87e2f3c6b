import InvertibleGrammar.Grammar.Directions

/-!
# Conditions on every node

A condition on grammars holds everywhere in a grammar if it holds of the grammar
itself and of every grammar that it is built from.
-/

namespace InvertibleGrammar

variable {σ : Type}

mutual

/-- The condition holds of the grammar and of all its parts. -/
def Grammar.Everywhere (holds : (γ : Type) → Grammar σ γ → Prop) {α : Type} :
    Grammar σ α → Prop
  | .sequence slots => holds _ (.sequence slots) ∧ slots.Everywhere holds
  | .choice alternatives order =>
      holds _ (.choice alternatives order) ∧ alternatives.Everywhere holds
  | .repetition element separator terminator count =>
      holds _ (.repetition element separator terminator count) ∧ element.Everywhere holds ∧
        separator.Everywhere holds ∧ terminator.Everywhere holds
  | .skip inner => holds _ (.skip inner) ∧ inner.Everywhere holds
  | .convert inner conversion => holds _ (.convert inner conversion) ∧ inner.Everywhere holds
  | .optional inner => holds _ (.optional inner) ∧ inner.Everywhere holds
  | .literal text => holds _ (.literal text)
  | .run accepts length => holds _ (.run accepts length)
  | .endOfInput => holds _ .endOfInput
  | .empty => holds _ .empty
  | .integer t => holds _ (.integer t)
  | .boolean => holds _ .boolean

/-- The condition holds everywhere in every slot. -/
def Slots.Everywhere (holds : (γ : Type) → Grammar σ γ → Prop) {types : List Type} :
    Slots σ types → Prop
  | .nil => True
  | .keep first others => first.Everywhere holds ∧ others.Everywhere holds
  | .skip first others => first.Everywhere holds ∧ others.Everywhere holds

/-- The condition holds everywhere in every alternative. -/
def Alternatives.Everywhere (holds : (γ : Type) → Grammar σ γ → Prop) {α : Type} :
    Alternatives σ α → Prop
  | .nil => True
  | .cons first others => first.Everywhere holds ∧ others.Everywhere holds

end

section Mono

variable {holds holds' : (γ : Type) → Grammar σ γ → Prop}

mutual

/-- A condition that follows from another holds wherever the other does. -/
theorem Grammar.everywhere_mono (h : ∀ γ grammar, holds γ grammar → holds' γ grammar) {α : Type} :
    (grammar : Grammar σ α) → grammar.Everywhere holds → grammar.Everywhere holds'
  | .sequence slots, hall => by
      obtain ⟨hself, hslots⟩ := hall
      exact ⟨h _ _ hself, slots.everywhere_mono h hslots⟩
  | .choice alternatives _, hall => by
      obtain ⟨hself, halternatives⟩ := hall
      exact ⟨h _ _ hself, alternatives.everywhere_mono h halternatives⟩
  | .repetition element separator terminator _, hall => by
      obtain ⟨hself, helement, hseparator, hterminator⟩ := hall
      exact ⟨h _ _ hself, element.everywhere_mono h helement,
        separator.everywhere_mono h hseparator,
        terminator.everywhere_mono h hterminator⟩
  | .skip inner, hall => by
      obtain ⟨hself, hinner⟩ := hall
      exact ⟨h _ _ hself, inner.everywhere_mono h hinner⟩
  | .convert inner _, hall => by
      obtain ⟨hself, hinner⟩ := hall
      exact ⟨h _ _ hself, inner.everywhere_mono h hinner⟩
  | .optional inner, hall => by
      obtain ⟨hself, hinner⟩ := hall
      exact ⟨h _ _ hself, inner.everywhere_mono h hinner⟩
  | .literal _, hself => h _ _ hself
  | .run _ _, hself => h _ _ hself
  | .endOfInput, hself => h _ _ hself
  | .empty, hself => h _ _ hself
  | .integer _, hself => h _ _ hself
  | .boolean, hself => h _ _ hself

theorem Slots.everywhere_mono (h : ∀ γ grammar, holds γ grammar → holds' γ grammar)
    {types : List Type} :
    (slots : Slots σ types) → slots.Everywhere holds → slots.Everywhere holds'
  | .nil, _ => trivial
  | .keep first others, hall => by
      obtain ⟨hfirst, hothers⟩ := hall
      exact ⟨first.everywhere_mono h hfirst, others.everywhere_mono h hothers⟩
  | .skip first others, hall => by
      obtain ⟨hfirst, hothers⟩ := hall
      exact ⟨first.everywhere_mono h hfirst, others.everywhere_mono h hothers⟩

theorem Alternatives.everywhere_mono (h : ∀ γ grammar, holds γ grammar → holds' γ grammar)
    {α : Type} : (alternatives : Alternatives σ α) →
    alternatives.Everywhere holds → alternatives.Everywhere holds'
  | .nil, _ => trivial
  | .cons first others, hall => by
      obtain ⟨hfirst, hothers⟩ := hall
      exact ⟨first.everywhere_mono h hfirst, others.everywhere_mono h hothers⟩

end

end Mono

end InvertibleGrammar
