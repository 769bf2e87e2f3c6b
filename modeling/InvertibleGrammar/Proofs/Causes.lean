import InvertibleGrammar.Grammar.Codec
import InvertibleGrammar.Proofs.Everywhere
import InvertibleGrammar.Proofs.FailedWriting
import InvertibleGrammar.Proofs.FailureLeaves
import InvertibleGrammar.Proofs.Remainder

/-!
# Which causes a grammar can meet

The failure of a reading or a writing has the form of the grammar: each exhausted choice
in it belongs to a choice of the grammar and lists one failure for each alternative, and
each leaf is a cause of the direction. In reading, a cause records how much was left
where a part started. A part never starts with more than the whole had, so a failure
stands within the input.
-/

namespace InvertibleGrammar

/-- A conversion that refuses a value gives a reason of its own and no other cause. -/
def Conversion.GivesReasons {α β : Type} (conversion : Conversion α β) : Prop :=
  (∀ a cause, conversion.apply a = .error cause → ∃ reason, cause = .conversion reason) ∧
    ∀ b cause, conversion.unapply b = .error cause → ∃ reason, cause = .conversion reason

/-- If the grammar is a conversion, it gives reasons for what it refuses. -/
def Grammar.GivesReasons {σ : Type} : (γ : Type) → Grammar σ γ → Prop
  | _, .convert _ conversion => conversion.GivesReasons
  | _, _ => True

/-! ## The form of failures -/

section Explained

variable {σ : Type} {leaf : Failure → Prop}

mutual

/-- The failure has the form of the grammar, with leaves of a kind. -/
def Grammar.Explains (leaf : Failure → Prop) {α : Type} : Grammar σ α → Failure → Prop
  | .literal _, failure => leaf failure
  | .run _ _, failure => leaf failure
  | .sequence slots, failure => slots.Explains leaf failure
  | .choice alternatives _, failure =>
      ∃ failures, failure = .exhausted failures ∧ alternatives.Explains leaf failures
  | .repetition element separator terminator _, failure =>
      leaf failure ∨ element.Explains leaf failure ∨ separator.Explains leaf failure ∨
        terminator.Explains leaf failure
  | .skip inner, failure => inner.Explains leaf failure
  | .convert inner _, failure => leaf failure ∨ inner.Explains leaf failure
  | .optional inner, failure => inner.Explains leaf failure
  | .endOfInput, failure => leaf failure
  | .empty, _ => False
  | .integer _, failure => leaf failure
  | .boolean, failure => leaf failure

/-- The failure has the form of one of the slots. -/
def Slots.Explains (leaf : Failure → Prop) {types : List Type} : Slots σ types → Failure → Prop
  | .nil, _ => False
  | .keep first others, failure => first.Explains leaf failure ∨ others.Explains leaf failure
  | .skip first others, failure => first.Explains leaf failure ∨ others.Explains leaf failure

/-- There is one failure for each alternative, and it has the form of that alternative. -/
def Alternatives.Explains (leaf : Failure → Prop) {α : Type} :
    Alternatives σ α → List Failure → Prop
  | .nil, failures => failures = []
  | .cons first others, failures => ∃ failure later, failures = failure :: later ∧
      first.Explains leaf failure ∧ others.Explains leaf later

end

theorem Alternatives.length_of_explains {α : Type} : (alternatives : Alternatives σ α) →
    {failures : List Failure} → alternatives.Explains leaf failures →
    failures.length = alternatives.toList.length
  | .nil, _, h => by
      obtain rfl := h
      rfl
  | .cons first others, _, ⟨failure, later, hsplit, _, hothers⟩ => by
      rw [hsplit, toList, List.length_cons, List.length_cons, others.length_of_explains hothers]

/-- A cause of the kind is its own leaf. -/
theorem leaf_of_leaf (hleaf : ∀ cause, leaf cause → cause.leaves = [cause]) {failure : Failure}
    (h : leaf failure) : ∀ cause ∈ failure.leaves, leaf cause := by
  rw [hleaf failure h]
  intro cause hcause
  rwa [List.mem_singleton.mp hcause]

mutual

/-- The leaves of a failure that has the form of a grammar are of the kind. -/
theorem Grammar.leaf_of_explains (hleaf : ∀ cause, leaf cause → cause.leaves = [cause])
    {α : Type} : (grammar : Grammar σ α) → {failure : Failure} → grammar.Explains leaf failure →
    ∀ cause ∈ failure.leaves, leaf cause
  | .literal _, _, h => leaf_of_leaf hleaf h
  | .run _ _, _, h => leaf_of_leaf hleaf h
  | .sequence slots, _, h => slots.leaf_of_explains hleaf h
  | .choice alternatives _, _, h => by
      obtain ⟨failures, hfailure, hfailures⟩ := h
      rw [hfailure, Failure.leaves]
      exact alternatives.leaf_of_explains hleaf hfailures
  | .repetition element separator terminator _, _, h => by
      rcases h with h | h | h | h
      · exact leaf_of_leaf hleaf h
      · exact element.leaf_of_explains hleaf h
      · exact separator.leaf_of_explains hleaf h
      · exact terminator.leaf_of_explains hleaf h
  | .skip inner, _, h => inner.leaf_of_explains hleaf h
  | .convert inner _, _, h => by
      rcases h with h | h
      · exact leaf_of_leaf hleaf h
      · exact inner.leaf_of_explains hleaf h
  | .optional inner, _, h => inner.leaf_of_explains hleaf h
  | .endOfInput, _, h => leaf_of_leaf hleaf h
  | .empty, _, h => h.elim
  | .integer _, _, h => leaf_of_leaf hleaf h
  | .boolean, _, h => leaf_of_leaf hleaf h

theorem Slots.leaf_of_explains (hleaf : ∀ cause, leaf cause → cause.leaves = [cause])
    {types : List Type} : (slots : Slots σ types) → {failure : Failure} →
    slots.Explains leaf failure → ∀ cause ∈ failure.leaves, leaf cause
  | .nil, _, h => h.elim
  | .keep first others, _, h => by
      rcases h with h | h
      · exact first.leaf_of_explains hleaf h
      · exact others.leaf_of_explains hleaf h
  | .skip first others, _, h => by
      rcases h with h | h
      · exact first.leaf_of_explains hleaf h
      · exact others.leaf_of_explains hleaf h

theorem Alternatives.leaf_of_explains (hleaf : ∀ cause, leaf cause → cause.leaves = [cause])
    {α : Type} : (alternatives : Alternatives σ α) → {failures : List Failure} →
    alternatives.Explains leaf failures → ∀ cause ∈ Failure.leavesOf failures, leaf cause
  | .nil, _, h => by
      obtain rfl := h
      intro cause hcause
      exact absurd hcause (by simp [Failure.leavesOf])
  | .cons first others, _, ⟨failure, later, hsplit, hfirst, hothers⟩ => by
      intro cause hcause
      rw [hsplit, Failure.leavesOf] at hcause
      rcases List.mem_append.mp hcause with hcause | hcause
      · exact first.leaf_of_explains hleaf hfirst cause hcause
      · exact others.leaf_of_explains hleaf hothers cause hcause

end

end Explained

/-! ## Reading -/

section Reading

variable {σ : Type} [Symbol σ]

theorem Run.units_le_of_suffix {rest input : Run σ} (h : rest <:+ input) :
    rest.units ≤ input.units := by
  obtain ⟨taken, rfl⟩ := h
  rw [Run.units_append]
  exact Nat.le_add_left _ _

theorem Reader.missing_located [DecidableEq σ] (expected : String) (words : List (Run σ))
    {input : Run σ} {limit : Nat} (hlimit : input.units ≤ limit) :
    (missing expected words input).Located limit := by
  rw [missing]
  split
  · trivial
  · exact hlimit

theorem Numeral.located_of_read {t : IntType} {input : Run σ} {cause : Failure} {limit : Nat}
    (hlimit : input.units ≤ limit) (h : Numeral.read t input = .error cause) :
    cause.Located limit := by
  simp only [Numeral.read_eq] at h
  split at h
  · obtain rfl := Except.error.inj h
    trivial
  · split at h
    · obtain rfl := Except.error.inj h
      exact hlimit
    · split at h
      · cases h
      · obtain rfl := Except.error.inj h
        exact hlimit

variable [DecidableEq σ] {limit : Nat}

theorem Grammar.units_le_of_yields {α : Type} (grammar : Grammar σ α) {input rest : Run σ}
    {value : α} (h : (grammar.read input).Yields value rest) : rest.units ≤ input.units := by
  rw [← h.2]
  exact Run.units_le_of_suffix (grammar.read_leavesTail input)

mutual

/-- A failed reading has the form of the grammar and records no more than was left. -/
theorem Grammar.explains_of_breaks {α : Type} : (grammar : Grammar σ α) →
    grammar.Everywhere Grammar.GivesReasons → {input rest : Run σ} → {cause : Failure} →
    input.units ≤ limit → (grammar.read input).Breaks cause rest →
    grammar.Explains (Failure.Located limit) cause
  | .literal _, _, _, _, _, hlimit, h => by
      obtain ⟨rfl, _⟩ := Reader.words_breaks h
      exact Reader.missing_located _ _ hlimit
  | .boolean, _, _, _, _, hlimit, h => by
      obtain ⟨rfl, _⟩ := Reader.words_breaks h
      exact Reader.missing_located _ _ hlimit
  | .integer _, _, _, _, _, hlimit, h =>
      Numeral.located_of_read hlimit (Reader.integer_breaks_iff.mp h).1
  | .endOfInput, _, _, _, _, hlimit, h => by
      obtain ⟨_, rfl, _⟩ := Reader.endOfInput_breaks_iff.mp h
      exact hlimit
  | .run _ _, _, _, _, _, hlimit, h => by
      obtain ⟨_, rfl, _⟩ := Reader.run_breaks_iff.mp h
      exact hlimit
  | .empty, _, _, _, _, _, h => absurd h Reader.not_empty_breaks
  | .sequence slots, hreasons, _, _, _, hlimit, h =>
      slots.explains_of_breaks hreasons.2 hlimit h
  | .choice alternatives _, hreasons, _, _, _, hlimit, h => by
      obtain ⟨causes, hcauses, hcause, _⟩ := Reader.choice_breaks_iff.mp h
      exact ⟨causes, hcause.symm, alternatives.explains_of_breaks hreasons.2 hlimit hcauses⟩
  | .repetition element separator terminator _, hreasons, _, _, _, hlimit, h => by
      obtain ⟨values, middle, hgathers, hend⟩ := Reader.repetition_breaks_iff.mp h
      rcases hend with ⟨_, rfl, _⟩ | ⟨_, hterminator⟩
      · exact Or.inl hlimit
      · have hmiddle := Run.units_le_of_suffix
          (hgathers.chain.rest_suffix element.read_leavesTail separator.read_leavesTail)
        have hleft := Nat.le_trans hmiddle hlimit
        exact Or.inr (Or.inr (Or.inr
          (terminator.explains_of_breaks hreasons.2.2.2 hleft hterminator)))
  | .skip inner, hreasons, _, _, _, hlimit, h => inner.explains_of_breaks hreasons.2 hlimit h
  | .convert inner _, hreasons, _, _, _, hlimit, h => by
      rcases Reader.convert_breaks_iff.mp h with hinner | ⟨value, _, hrefused⟩
      · exact Or.inr (inner.explains_of_breaks hreasons.2 hlimit hinner)
      · obtain ⟨reason, rfl⟩ := hreasons.1.1 value _ hrefused
        exact Or.inl trivial
  | .optional _, _, _, _, _, _, h => absurd h Reader.not_optional_breaks

theorem Slots.explains_of_breaks {types : List Type} : (slots : Slots σ types) →
    slots.Everywhere Grammar.GivesReasons → {input rest : Run σ} → {cause : Failure} →
    input.units ≤ limit → (slots.read input).Breaks cause rest →
    slots.Explains (Failure.Located limit) cause
  | .nil, _, _, _, _, _, h => absurd h Reader.not_empty_breaks
  | .keep first others, hreasons, _, _, _, hlimit, h => by
      rcases Reader.keep_breaks_iff.mp h with hfirst | ⟨value, middle, hyields, hothers⟩
      · exact Or.inl (first.explains_of_breaks hreasons.1 hlimit hfirst)
      · have hleft := Nat.le_trans (first.units_le_of_yields hyields) hlimit
        exact Or.inr (others.explains_of_breaks hreasons.2 hleft hothers)
  | .skip first others, hreasons, _, _, _, hlimit, h => by
      rcases Reader.skip_breaks_iff.mp h with hfirst | ⟨value, middle, hyields, hothers⟩
      · exact Or.inl (first.explains_of_breaks hreasons.1 hlimit hfirst)
      · have hleft := Nat.le_trans (first.units_le_of_yields hyields) hlimit
        exact Or.inr (others.explains_of_breaks hreasons.2 hleft hothers)

theorem Alternatives.explains_of_breaks {α : Type} : (alternatives : Alternatives σ α) →
    alternatives.Everywhere Grammar.GivesReasons → {input : Run σ} → {causes : List Failure} →
    input.units ≤ limit →
    alternatives.readers.map (fun reader => (reader input).result) = causes.map .error →
    alternatives.Explains (Failure.Located limit) causes
  | .nil, _, _, causes, _, h => by
      simpa [Alternatives.readers, Alternatives.Explains, eq_comm] using h
  | .cons first others, hreasons, input, causes, hlimit, h => by
      rw [Alternatives.readers, List.map_cons] at h
      obtain ⟨cause, later, hsplit, hfirst, hothers⟩ := List.map_eq_cons_iff.mp h.symm
      exact ⟨cause, later, hsplit,
        first.explains_of_breaks hreasons.1 hlimit ⟨hfirst.symm, rfl⟩,
        others.explains_of_breaks hreasons.2 hlimit hothers.symm⟩

end

end Reading

/-! ## Writing -/

section Writing

variable {σ : Type} [Symbol σ]

mutual

/-- A refused writing has the form of the grammar and records no position. -/
theorem Grammar.explains_of_refused {α : Type} : (grammar : Grammar σ α) →
    grammar.Everywhere Grammar.GivesReasons → {value : α} → {buffer : Run σ} → {cause : Failure} →
    (grammar.write value buffer).result = .error cause →
    grammar.Explains Failure.Refusal cause
  | .literal _, _, _, _, _, h => absurd h Writing.not_succeed_error
  | .boolean, _, _, _, _, h => absurd h Writing.not_succeed_error
  | .integer _, _, _, _, _, h => absurd h Writing.not_succeed_error
  | .endOfInput, _, _, _, _, h => absurd h Writing.not_succeed_error
  | .empty, _, _, _, _, h => absurd h Writing.not_succeed_error
  | .run _ _, _, _, _, _, h => by
      obtain ⟨reason, rfl⟩ := Writer.run_error h
      trivial
  | .sequence slots, hreasons, _, _, _, h => slots.explains_of_refused hreasons.2 h
  | .choice alternatives _, hreasons, _, _, _, h => by
      obtain ⟨causes, hcauses, hcause⟩ :=
        (Writer.choice_error_iff alternatives.writers_appendOnly).mp h
      exact ⟨causes, hcause.symm, alternatives.explains_of_refused hreasons.2 hcauses⟩
  | .repetition element separator terminator _, hreasons, _, _, _, h => by
      rcases Writer.repetition_error h with
        ⟨_, hseparator⟩ | ⟨_, _, helement⟩ | ⟨_, hterminator⟩ | ⟨reason, rfl⟩
      · exact Or.inr (Or.inr (Or.inl (separator.explains_of_refused hreasons.2.2.1 hseparator)))
      · exact Or.inr (Or.inl (element.explains_of_refused hreasons.2.1 helement))
      · exact Or.inr (Or.inr (Or.inr
          (terminator.explains_of_refused hreasons.2.2.2 hterminator)))
      · exact Or.inl trivial
  | .skip inner, hreasons, _, _, _, h => inner.explains_of_refused hreasons.2 h
  | .convert inner _, hreasons, value, _, _, h => by
      rcases Writer.convert_error h with hrefused | ⟨_, hinner⟩
      · obtain ⟨reason, rfl⟩ := hreasons.1.2 value _ hrefused
        exact Or.inl trivial
      · exact Or.inr (inner.explains_of_refused hreasons.2 hinner)
  | .optional inner, hreasons, _, _, _, h => by
      obtain ⟨_, hinner⟩ := Writer.optional_error h
      exact inner.explains_of_refused hreasons.2 hinner

theorem Slots.explains_of_refused {types : List Type} : (slots : Slots σ types) →
    slots.Everywhere Grammar.GivesReasons → {tuple : Tuple types} → {buffer : Run σ} →
    {cause : Failure} → (slots.write tuple buffer).result = .error cause →
    slots.Explains Failure.Refusal cause
  | .nil, _, _, _, _, h => absurd h Writing.not_succeed_error
  | .keep first others, hreasons, _, _, _, h => by
      rcases Writer.keep_error h with hfirst | ⟨_, hothers⟩
      · exact Or.inl (first.explains_of_refused hreasons.1 hfirst)
      · exact Or.inr (others.explains_of_refused hreasons.2 hothers)
  | .skip first others, hreasons, _, _, _, h => by
      rcases Writer.skip_error h with hfirst | ⟨_, hothers⟩
      · exact Or.inl (first.explains_of_refused hreasons.1 hfirst)
      · exact Or.inr (others.explains_of_refused hreasons.2 hothers)

theorem Alternatives.explains_of_refused {α : Type} : (alternatives : Alternatives σ α) →
    alternatives.Everywhere Grammar.GivesReasons → {value : α} → {buffer : Run σ} →
    {causes : List Failure} →
    alternatives.writers.map (fun writer => (writer value buffer).result) = causes.map .error →
    alternatives.Explains Failure.Refusal causes
  | .nil, _, _, _, _, h => by
      simpa [Alternatives.writers, Alternatives.Explains, eq_comm] using h
  | .cons first others, hreasons, _, _, _, h => by
      rw [Alternatives.writers, List.map_cons] at h
      obtain ⟨cause, later, hsplit, hfirst, hothers⟩ := List.map_eq_cons_iff.mp h.symm
      exact ⟨cause, later, hsplit, first.explains_of_refused hreasons.1 hfirst.symm,
        others.explains_of_refused hreasons.2 hothers.symm⟩

end

end Writing

/-! ## Positions -/

theorem Slots.everywhere_of_mem {σ : Type} {holds : (γ : Type) → Grammar σ γ → Prop}
    {types : List Type} : (slots : Slots σ types) → slots.Everywhere holds →
    ∀ slot ∈ slots.toList, slot.grammar.Everywhere holds
  | .nil, _, _, h => absurd h List.not_mem_nil
  | .keep first others, hall, slot, h => by
      rcases List.mem_cons.mp h with rfl | h
      · exact hall.1
      · exact others.everywhere_of_mem hall.2 slot h
  | .skip first others, hall, slot, h => by
      rcases List.mem_cons.mp h with rfl | h
      · exact hall.1
      · exact others.everywhere_of_mem hall.2 slot h

namespace Grammar

variable {σ : Type} [Symbol σ]

section Reading

variable [DecidableEq σ] {α : Type} {grammar : Grammar σ α} {input rest : Run σ}
  {failure : Failure}

/-- What a failed reading records at its leaves is at most what was left at the start. -/
theorem located_of_breaks (hreasons : grammar.Everywhere GivesReasons)
    (h : (grammar.read input).Breaks failure rest) :
    ∀ leaf ∈ failure.leaves, leaf.Located input.units :=
  grammar.leaf_of_explains (fun _ hleaf => hleaf.leaves_eq)
    (grammar.explains_of_breaks hreasons (Nat.le_refl _) h)

/-- A failed sequence stands at the earliest where the slot that failed was started. -/
theorem sequence_offset {types : List Type} {slots : Slots σ types}
    (hreasons : slots.Everywhere GivesReasons)
    (h : ((sequence slots).read input).result = .error failure) :
    ∃ earlier slot later middle, slots.toList = earlier ++ slot :: later ∧
      Slot.Passes earlier input middle ∧ (slot.grammar.read middle).result = .error failure ∧
      ∀ offset, failure.offset? input.units = some offset →
        input.units - middle.units ≤ offset := by
  obtain ⟨earlier, slot, later, middle, hsplit, hearlier, hslot⟩ :=
    slots.read_breaks_iff.mp ⟨h, rfl⟩
  have hmem : slot ∈ slots.toList := by
    rw [hsplit]
    exact List.mem_append_cons_self
  have hlocated := located_of_breaks (slots.everywhere_of_mem hreasons slot hmem) hslot
  have hmiddle := Run.units_le_of_suffix hearlier.rest_suffix
  refine ⟨earlier, slot, later, middle, hsplit, hearlier, hslot.1, ?_⟩
  intro offset hoffset
  exact (Failure.offset?_bounds_of_located hlocated hmiddle hoffset).1

theorem decode_error_iff :
    (grammar.decode input).result = .error failure ↔
      (grammar.read input).result = .error failure := by
  cases hr : (grammar.read input).result with
  | ok value => simp [decode, hr]
  | error cause => simp [decode, hr]

/-- Whole decoding fails as the reading does, or for what a successful reading left. -/
theorem decodeExact_error (h : (grammar.decodeExact input).result = .error failure) :
    (grammar.read input).result = .error failure ∨
      ∃ value consumed rest, (grammar.read input).Yields value rest ∧ input = consumed ++ rest ∧
        rest ≠ [] ∧ failure = .extraData rest.units ∧
        failure.offset? input.units = some consumed.units := by
  cases hr : (grammar.read input).result with
  | error cause =>
      have hdecode : (grammar.decodeExact input).result = .error cause := by
        simp [decodeExact, decode, hr]
      rw [hdecode] at h
      exact Or.inl h
  | ok value =>
      obtain ⟨consumed, hconsumed⟩ := grammar.read_leavesTail input
      simp only [decodeExact, decode, hr] at h
      split at h
      · cases h
      · rename_i hempty
        have hne : (grammar.read input).rest ≠ [] := by simpa using hempty
        have hunits : input.units = Run.units consumed + (grammar.read input).rest.units := by
          rw [← Run.units_append, hconsumed]
        obtain rfl := Except.error.inj h
        refine Or.inr ⟨value, consumed, _, ⟨hr, rfl⟩, hconsumed.symm, hne, rfl, ?_⟩
        rw [Failure.offset?, Failure.position?, hunits, if_pos (Nat.le_add_left _ _),
          Nat.add_sub_cancel]

end Reading

theorem encode_error_iff {α : Type} {grammar : Grammar σ α} {value : α} {failure : Failure} :
    (grammar.encode value).result = .error failure ↔
      (grammar.write value []).result = .error failure := by
  cases hr : (grammar.write value []).result with
  | ok _ => simp [encode, hr]
  | error cause => simp [encode, hr]

/-- The failures of grammars whose conversions give reasons of their own.

* A failed reading has the form of the grammar. Its leaves are causes of reading and record
  at most what was left at the start. It stands within the input, or has no position, which
  is so just if conversions alone refused.
* A failed sequence stands no earlier than the slot that failed was started.
* A refused writing has the form of the grammar, and its leaves are refusals, so it never
  has a position.
* An exhausted choice lists one failure for each alternative.
* Decoding and encoding fail as reading and writing do. Whole decoding may also fail for
  what was left, at the end of what was read. No other failure tells of data left over. -/
theorem failure_causes [DecidableEq σ] (input : Run σ) :
    (∀ (α : Type) (grammar : Grammar σ α), grammar.Everywhere GivesReasons →
      ∀ failure, (grammar.read input).result = .error failure →
        grammar.Explains (Failure.Located input.units) failure ∧
        (∀ leaf ∈ failure.leaves, leaf.Located input.units) ∧
        (failure.offset? input.units = none ↔
          ∀ leaf ∈ failure.leaves, ∃ reason, leaf = .conversion reason) ∧
        ∀ offset, failure.offset? input.units = some offset → offset ≤ input.units) ∧
    (∀ (types : List Type) (slots : Slots σ types), slots.Everywhere GivesReasons →
      ∀ failure, ((sequence slots).read input).result = .error failure →
        ∃ earlier slot later middle, slots.toList = earlier ++ slot :: later ∧
          Slot.Passes earlier input middle ∧
          (slot.grammar.read middle).result = .error failure ∧
          ∀ offset, failure.offset? input.units = some offset →
            input.units - middle.units ≤ offset) ∧
    (∀ (α : Type) (grammar : Grammar σ α), grammar.Everywhere GivesReasons →
      ∀ value buffer failure, (grammar.write value buffer).result = .error failure →
        grammar.Explains Failure.Refusal failure ∧
        (∀ leaf ∈ failure.leaves, leaf.Refusal) ∧
        ∀ length, failure.offset? length = none) ∧
    (∀ (α : Type) (alternatives : Alternatives σ α) (order : PrintOrder) (failure : Failure),
      ((choice alternatives order).read input).result = .error failure ∨
        (∃ value buffer, ((choice alternatives order).write value buffer).result =
          .error failure) →
      ∃ failures, failure = .exhausted failures ∧
        failures.length = alternatives.toList.length) ∧
    (∀ (α : Type) (grammar : Grammar σ α), grammar.Everywhere GivesReasons → ∀ failure,
      ((grammar.decode input).result = .error failure ↔
        (grammar.read input).result = .error failure) ∧
      (∀ value, (grammar.encode value).result = .error failure ↔
        (grammar.write value []).result = .error failure) ∧
      ((grammar.decodeExact input).result = .error failure →
        ((grammar.read input).result = .error failure ∧
          ∀ remaining, .extraData remaining ∉ failure.leaves) ∨
        ∃ value consumed rest, (grammar.read input).Yields value rest ∧
          input = consumed ++ rest ∧ rest ≠ [] ∧ failure = .extraData rest.units ∧
          failure.offset? input.units = some consumed.units)) := by
  refine ⟨?_, ?_, ?_, ?_, ?_⟩
  · intro α grammar hreasons failure h
    have hlocated := located_of_breaks hreasons ⟨h, rfl⟩
    refine ⟨grammar.explains_of_breaks hreasons (Nat.le_refl _) ⟨h, rfl⟩, hlocated,
      Failure.offset?_eq_none_iff_of_located hlocated (Nat.le_refl _), ?_⟩
    intro offset hoffset
    exact (Failure.offset?_bounds_of_located hlocated (Nat.le_refl _) hoffset).2
  · intro types slots hreasons failure h
    exact sequence_offset hreasons h
  · intro α grammar hreasons value buffer failure h
    have hexplains := grammar.explains_of_refused hreasons h
    have hleaves := grammar.leaf_of_explains (fun _ hleaf => hleaf.leaves_eq) hexplains
    refine ⟨hexplains, hleaves, fun length => Failure.offset?_eq_none_iff.mpr ?_⟩
    intro leaf hleaf
    exact (hleaves leaf hleaf).offset?_eq_none length
  · intro α alternatives order failure h
    rcases h with hread | ⟨value, buffer, hwrite⟩
    · obtain ⟨failures, hfailures, hfailure, _⟩ := Reader.choice_breaks_iff.mp ⟨hread, rfl⟩
      refine ⟨failures, hfailure.symm, ?_⟩
      simpa [alternatives.readers_eq_map] using (congrArg List.length hfailures).symm
    · obtain ⟨failures, hfailures, hfailure⟩ :=
        (Writer.choice_error_iff alternatives.writers_appendOnly).mp hwrite
      refine ⟨failures, hfailure.symm, ?_⟩
      simpa [alternatives.writers_eq_map] using (congrArg List.length hfailures).symm
  · intro α grammar hreasons failure
    refine ⟨decode_error_iff, fun value => encode_error_iff, ?_⟩
    intro h
    rcases decodeExact_error h with hread | hextra
    · refine Or.inl ⟨hread, ?_⟩
      intro remaining hmem
      exact located_of_breaks hreasons ⟨hread, rfl⟩ _ hmem
    · exact Or.inr hextra

/-- The word `up`, for a switch that is on. -/
def up : Grammar Char Bool := .convert (.text "up")
  ⟨fun _ => .ok true, fun on => if on then .ok () else .error (.conversion "off")⟩

/-- A switch, as a truth value or as a word. -/
def switchSlots : Slots Char [Bool] := .skip (.text "on=") (.keep (.orElse .boolean up) .nil)

/-- Both alternatives fail behind the first slot, at different positions. -/
theorem failure_causes_switch :
    switchSlots.Everywhere GivesReasons ∧
      ((sequence switchSlots).read "on=tr".toList).result =
        .error (.exhausted [.endOfInput "boolean", .unexpected "literal" 2]) ∧
      (sequence switchSlots).Explains (Failure.Located 5)
        (.exhausted [.endOfInput "boolean", .unexpected "literal" 2]) ∧
      ∃ earlier slot later middle, switchSlots.toList = earlier ++ slot :: later ∧
        Slot.Passes earlier "on=tr".toList middle ∧
        (slot.grammar.read middle).result =
          .error (.exhausted [.endOfInput "boolean", .unexpected "literal" 2]) ∧
        ∀ offset, Failure.offset? 5
            (.exhausted [.endOfInput "boolean", .unexpected "literal" 2]) = some offset →
          5 - middle.units ≤ offset := by
  have hup : up.Everywhere GivesReasons := by
    refine ⟨⟨nofun, ?_⟩, trivial⟩
    intro on cause h
    cases on with
    | true => cases h
    | false => exact ⟨"off", (Except.error.inj h).symm⟩
  have hreasons : switchSlots.Everywhere GivesReasons :=
    ⟨trivial, ⟨trivial, trivial, hup, trivial⟩, trivial⟩
  have hread : ((sequence switchSlots).read "on=tr".toList).result =
      .error (.exhausted [.endOfInput "boolean", .unexpected "literal" 2]) := by
    with_unfolding_all rfl
  have hcauses := failure_causes "on=tr".toList
  exact ⟨hreasons, hread, (hcauses.1 _ (sequence switchSlots) ⟨trivial, hreasons⟩ _ hread).1,
    hcauses.2.1 _ switchSlots hreasons _ hread⟩

end Grammar

end InvertibleGrammar
