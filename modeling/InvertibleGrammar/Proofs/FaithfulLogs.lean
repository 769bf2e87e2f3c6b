import InvertibleGrammar.Grammar.Codec
import InvertibleGrammar.Proofs.FirstSuccess
import InvertibleGrammar.Proofs.NestedAttempts

/-!
# Faithful logs

What is told of a run shows where it went. A choice reports each alternative that failed,
by its declared number and in the order of trying. A repetition reports where it stopped,
unless it was full. A whole operation reports its own failure last.
-/

namespace InvertibleGrammar

/-- An event as it is shown: the level, the sentence and the details. -/
def Event.shown (event : Event) : String × String × List (String × String) :=
  (event.level.name, event.message, event.fields)

/-- The failure that an event names is shown by its text. -/
theorem Event.lookup_err (event : Event) :
    event.fields.lookup "err" = event.failure?.map Failure.message := by
  cases event with
  | repetitionStopped count cause => cases cause <;> rfl
  | decodeFailed | encodeFailed | optionalAbsent => rfl
  | alternativeNotRead | alternativeNotWritten => rfl

theorem Event.lookup_count (count : Nat) (cause : Stop) :
    (repetitionStopped count cause).fields.lookup "count" = some (toString count) := by
  cases cause <;> rfl

/-- If all items failed, the reports of their failures are those of the causes, with the same
numbers and in the same order. -/
theorem filterMap_reports_of_causes.{u} {γ : Type u} {ε α : Type} {items : List γ}
    {result : γ → Except ε α} {causes : List ε} (h : items.map result = causes.map .error)
    (order : PrintOrder) (report : Nat → ε → Event) :
    (order.arrange items.zipIdx).filterMap
        (fun entry => (cause? (result entry.1)).map (report entry.2)) =
      (order.arrange causes.zipIdx).map fun met => report met.2 met.1 := by
  have hresults : (order.arrange items.zipIdx).map (Prod.map result id) =
      (order.arrange causes.zipIdx).map (Prod.map .error id) := by
    rw [← order.arrange_map, ← order.arrange_map, ← List.zipIdx_map, ← List.zipIdx_map, h]
  calc
    (order.arrange items.zipIdx).filterMap
          (fun entry => (cause? (result entry.1)).map (report entry.2))
        = ((order.arrange items.zipIdx).map (Prod.map result id)).filterMap
            fun entry => (cause? entry.1).map (report entry.2) := by
      rw [List.filterMap_map]
      rfl
    _ = (order.arrange causes.zipIdx).map fun met => report met.2 met.1 := by
      rw [hresults, List.filterMap_map, ← List.filterMap_eq_map]
      rfl

/-- If all items failed, all of them were tried. -/
theorem upToFirst_of_causes.{u} {γ : Type u} {ε α : Type} {items : List γ}
    {result : γ → Except ε α} {causes : List ε} (h : items.map result = causes.map .error)
    (order : PrintOrder) :
    upToFirst (fun entry => (cause? (result entry.1)).isNone) (order.arrange items.zipIdx) =
      order.arrange items.zipIdx := by
  apply upToFirst_eq_self
  intro entry hentry
  have hmem := List.fst_mem_of_mem_zipIdx (order.mem_arrange.mp hentry)
  have hresult : result entry.1 ∈ causes.map .error := by
    rw [← h]
    exact List.mem_map_of_mem hmem
  obtain ⟨cause, _, hcause⟩ := List.mem_map.mp hresult
  simp [cause?, ← hcause]

namespace Grammar

variable {σ α : Type} [Symbol σ] [DecidableEq σ]

/-! ## Choices -/

/-- A choice tells of the alternatives up to the first that reads the input. -/
theorem read_choice_log (alternatives : Alternatives σ α) (order : PrintOrder) (input : Run σ) :
    ((choice alternatives order).read input).log =
      (upToFirst (fun entry => (cause? (entry.1.read input).result).isNone)
        alternatives.toList.zipIdx).flatMap fun entry => (entry.1.read input).log ++
          ((cause? (entry.1.read input).result).map (.alternativeNotRead entry.2)).toList := by
  rw [read_log, readSteps, List.flatMap_map]
  rfl

theorem read_choice_reports {alternatives : Alternatives σ α} {order : PrintOrder}
    {input : Run σ} {causes : List Failure}
    (h : ((choice alternatives order).read input).result = .error (.exhausted causes)) :
    (Attempt.read (choice alternatives order) input).reports =
      causes.zipIdx.map fun met => .alternativeNotRead met.2 met.1 := by
  obtain ⟨listed, hresults, hlisted, _⟩ := read_choice_breaks_iff.mp ⟨h, rfl⟩
  obtain rfl := Failure.exhausted.inj hlisted
  have htried : upToFirst (fun entry => (cause? (entry.1.read input).result).isNone)
      alternatives.toList.zipIdx = alternatives.toList.zipIdx :=
    upToFirst_of_causes hresults .declared
  rw [Attempt.reports, Attempt.steps, readSteps, htried, List.filterMap_map]
  exact filterMap_reports_of_causes hresults .declared .alternativeNotRead

/-- A choice tells of the alternatives up to the first that writes the value, in the order of
trying. -/
theorem write_choice_log (alternatives : Alternatives σ α) (order : PrintOrder) (value : α)
    (buffer : Run σ) :
    ((choice alternatives order).write value buffer).log =
      (upToFirst (fun entry => (cause? (entry.1.write value buffer).result).isNone)
        (order.arrange alternatives.toList.zipIdx)).flatMap fun entry =>
          (entry.1.write value buffer).log ++
            ((cause? (entry.1.write value buffer).result).map
              (.alternativeNotWritten entry.2)).toList := by
  rw [write_log, writeSteps, List.flatMap_map]
  rfl

theorem write_choice_reports {alternatives : Alternatives σ α} {order : PrintOrder} {value : α}
    {buffer : Run σ} {causes : List Failure}
    (h : ((choice alternatives order).write value buffer).result = .error (.exhausted causes)) :
    (Attempt.write (choice alternatives order) value buffer).reports =
      (order.arrange causes.zipIdx).map fun met => .alternativeNotWritten met.2 met.1 := by
  obtain ⟨listed, hresults, hlisted⟩ := write_choice_error_iff.mp h
  obtain rfl := Failure.exhausted.inj hlisted
  rw [Attempt.reports, Attempt.steps, writeSteps, upToFirst_of_causes hresults order,
    List.filterMap_map]
  exact filterMap_reports_of_causes hresults order .alternativeNotWritten

/-! ## Repetitions -/

/-- The cause for which iteration `count`, started at `input`, ends a repetition. -/
inductive StopsFor (element : Grammar σ α) (separator : Grammar σ Unit) (count : Nat)
    (input : Run σ) : Stop → Prop
  /-- A separator is due and fails. -/
  | separator {failure : Failure} (hcount : count ≠ 0)
      (h : (separator.read input).result = .error failure) :
      StopsFor element separator count input (.separator failure)
  /-- The element fails behind what stands in front of it. -/
  | element {start : Run σ} {failure : Failure} (lead : separator.Leads count input start)
      (h : (element.read start).result = .error failure) :
      StopsFor element separator count input (.element failure)
  /-- Both are read and use nothing. -/
  | noProgress {value : α} (turn : TakesTurn element separator count input ⟨value, input⟩) :
      StopsFor element separator count input .noProgress

section Repetition

variable {element : Grammar σ α} {separator : Grammar σ Unit} {count more : Nat}
  {input last : Run σ}

/-- An iteration that is no turn ends the repetition for a cause. -/
theorem TakesNoTurn.exists_stopsFor (h : TakesNoTurn element separator count input) :
    ∃ cause, StopsFor element separator count input cause ∧
      Reader.stop? element.read separator.read count input = some cause := by
  rcases h with ⟨hcount, failure, hfails⟩ | ⟨start, hlead, failure, hfails⟩ | ⟨value, hturn⟩
  · exact ⟨_, .separator hcount hfails, Reader.stop?_of_separator_error hcount hfails⟩
  · refine ⟨_, .element hlead hfails, ?_⟩
    simp only [Reader.stop?_of_lead (leads_iff.mp hlead), hfails]
  · refine ⟨_, .noProgress hturn, ?_⟩
    obtain ⟨start, hlead, hvalue, hstop⟩ := hturn
    simp only [Reader.stop?_of_lead (leads_iff.mp hlead), hvalue, hstop, Nat.lt_irrefl, if_false]

/-- A turn that uses something does not end the repetition. -/
theorem TakesTurn.stop?_eq_none {turn : Turn σ α}
    (h : TakesTurn element separator count input turn)
    (hprogress : turn.stop.units < input.units) :
    Reader.stop? element.read separator.read count input = none := by
  obtain ⟨start, hlead, hvalue, hstop⟩ := h
  simp only [Reader.stop?_of_lead (leads_iff.mp hlead), hvalue, hstop, hprogress, if_true]

theorem iterationSteps_reports (element : Grammar σ α) (separator : Grammar σ Unit) (count : Nat)
    (input : Run σ) :
    (iterationSteps element separator count input).filterMap Step.report? =
      ((Reader.stop? element.read separator.read count input).map
        (Event.repetitionStopped count)).toList := by
  rcases separator_error_or_leads separator count input with
    ⟨hcount, failure, hfails⟩ | ⟨start, hlead⟩
  · rw [iterationSteps_of_separator_error hcount hfails,
      Reader.stop?_of_separator_error hcount hfails]
    rfl
  · obtain ⟨earlier, hsteps, hearlier⟩ := exists_iterationSteps_of_leads element hlead
    have hnone : earlier.filterMap Step.report? = [] := by
      apply List.filterMap_eq_nil_iff.mpr
      intro step hstep
      rw [hearlier step hstep]
    rw [hsteps, List.filterMap_append, hnone, List.nil_append, List.filterMap_cons]
    cases Reader.stop? element.read separator.read count input with
    | none => rfl
    | some cause => rfl

/-- Of a chain that goes on for as long as it may, nothing is reported but its end. -/
theorem Chain.reports {turns : List (Turn σ α)}
    (h : Chain element separator count input turns last) (hlength : turns.length ≤ more)
    (hends : turns.length = more ∨ TakesNoTurn element separator (count + turns.length) last) :
    (turns.length = more ∧
        (gatherSteps element separator more count input).filterMap Step.report? = []) ∨
      (turns.length < more ∧
        ∃ cause, StopsFor element separator (count + turns.length) last cause ∧
          (gatherSteps element separator more count input).filterMap Step.report? =
            [.repetitionStopped (count + turns.length) cause]) := by
  induction h generalizing more with
  | @done count start =>
      cases more with
      | zero => exact Or.inl ⟨rfl, rfl⟩
      | succ more =>
          have hnone := hends.resolve_left (by simp)
          obtain ⟨cause, hcause, hstop⟩ := hnone.exists_stopsFor
          simp only [List.length_nil, Nat.add_zero] at hcause hstop
          refine Or.inr ⟨Nat.succ_pos more, cause, hcause, ?_⟩
          simp only [gatherSteps, hstop, List.append_nil, iterationSteps_reports]
          rfl
  | @more count start last turn turns step progress later ih =>
      cases more with
      | zero => exact absurd hlength (by simp)
      | succ more =>
          have hstop := step.stop?_eq_none progress
          have hrest : (Reader.iteration element.read separator.read count start).rest =
              turn.stop := (takesTurn_iff.mp step).2
          have hreports : (gatherSteps element separator (more + 1) count start).filterMap
                Step.report? =
              (gatherSteps element separator more (count + 1) turn.stop).filterMap
                Step.report? := by
            simp only [gatherSteps, List.filterMap_append, iterationSteps_reports, hstop, hrest]
            rfl
          have hcount : count + (turns.length + 1) = count + 1 + turns.length := by omega
          simp only [List.length_cons, hcount, hreports, Nat.succ_lt_succ_iff,
            Nat.succ_le_succ_iff, Nat.add_right_cancel_iff] at hlength hends ⊢
          exact ih hlength hends

/-- A repetition reports where it stopped, behind as many values as it then has. It reports
nothing if it stopped because it was full. -/
theorem repetition_reports (element : Grammar σ α) (separator terminator : Grammar σ Unit)
    (count : CountRange) (input : Run σ) :
    ∃ turns last, MaximalRun element separator count.max.toNat input turns last ∧
      (∀ values, ((repetition element separator terminator count).read input).result =
        .ok values → values = turns.map Turn.value) ∧
      ((turns.length = count.max.toNat ∧
          (Attempt.read (repetition element separator terminator count) input).reports = []) ∨
        (turns.length < count.max.toNat ∧
          ∃ cause, StopsFor element separator turns.length last cause ∧
            (Attempt.read (repetition element separator terminator count) input).reports =
              [.repetitionStopped turns.length cause])) := by
  obtain ⟨values, last, hgathers⟩ := Reader.exists_gathers element.read separator.read
    count.max.toNat input
  obtain ⟨turns, hvalues, hrun⟩ := exists_maximalRun hgathers
  have hfound (found : List α)
      (h : ((repetition element separator terminator count).read input).result = .ok found) :
      found = turns.map Turn.value := by
    obtain ⟨_, hgathered, _⟩ := Reader.repetition_yields_iff.mp ⟨h, rfl⟩
    rw [hvalues, ← hgathered, (Reader.gathers_iff.mp hgathers).1]
  have hreports : (Attempt.read (repetition element separator terminator count) input).reports =
      (gatherSteps element separator count.max.toNat 0 input).filterMap Step.report? := by
    rw [Attempt.reports, Attempt.steps, readSteps, List.filterMap_append]
    split
    · exact List.append_nil _
    · exact List.append_nil _
  have hchain := hrun.chain.reports hrun.length_le (by simpa only [Nat.zero_add] using hrun.ends)
  rw [Nat.zero_add, ← hreports] at hchain
  exact ⟨turns, last, hrun, hfound, hchain⟩

end Repetition

/-! ## Whole operations -/

theorem decode_log (grammar : Grammar σ α) (input : Run σ) :
    (grammar.decode input).log = (grammar.read input).log ++
      ((cause? (grammar.read input).result).map fun failure =>
        .decodeFailed failure (failure.offset? input.units)).toList := by
  cases hr : (grammar.read input).result with
  | ok value => simp [decode, cause?, hr]
  | error failure => simp [decode, cause?, hr]

theorem decodeExact_log (grammar : Grammar σ α) (input : Run σ) :
    (grammar.decodeExact input).log = (grammar.decode input).log := by
  cases hr : (grammar.decode input).result with
  | error failure => simp only [decodeExact, hr]
  | ok found =>
      simp only [decodeExact, hr]
      split
      · rfl
      · rfl

omit [DecidableEq σ] in
theorem encode_log (grammar : Grammar σ α) (value : α) :
    (grammar.encode value).log = (grammar.write value []).log ++
      ((cause? (grammar.write value []).result).map .encodeFailed).toList := by
  cases hr : (grammar.write value []).result with
  | ok _ => simp [encode, cause?, hr]
  | error failure => simp [encode, cause?, hr]

/-! ## All that is told -/

/-- The log of an attempt consists of the logs of the attempts made for it, in order, with a
report behind some of them. The log of an attempt at any depth stands in it in one piece, with
the report, and there are no other events in it. All are for tracing.

A choice reports just the alternatives that it tried and that failed, each behind its own
events, by declared number and in the order of trying. If all failed, these are the failures
of the exhausted choice. A repetition reports once where it stopped, with the number of values
it has, or not at all if it was full.

A whole operation adds one event for debugging, as the last, if and only if its reading or
writing failed. Input that is left over adds none. -/
theorem log_is_faithful :
    (∀ attempt : Attempt σ,
      attempt.log = attempt.steps.flatMap Step.log ∧
      (∀ step, attempt.Includes step → step.log <:+: attempt.log ∧ step.Sound) ∧
      ∀ event, (event ∈ attempt.log ↔
          ∃ step, attempt.Includes step ∧ step.report? = some event) ∧
        (event ∈ attempt.log → event.level = .trace)) ∧
    (∀ (alternatives : Alternatives σ α) (order : PrintOrder) (input : Run σ),
      ((choice alternatives order).read input).log =
        (upToFirst (fun entry => (cause? (entry.1.read input).result).isNone)
          alternatives.toList.zipIdx).flatMap (fun entry => (entry.1.read input).log ++
            ((cause? (entry.1.read input).result).map (.alternativeNotRead entry.2)).toList) ∧
      ∀ causes, ((choice alternatives order).read input).result = .error (.exhausted causes) →
        (Attempt.read (choice alternatives order) input).reports =
          causes.zipIdx.map fun met => .alternativeNotRead met.2 met.1) ∧
    (∀ (alternatives : Alternatives σ α) (order : PrintOrder) (value : α) (buffer : Run σ),
      ((choice alternatives order).write value buffer).log =
        (upToFirst (fun entry => (cause? (entry.1.write value buffer).result).isNone)
          (order.arrange alternatives.toList.zipIdx)).flatMap (fun entry =>
            (entry.1.write value buffer).log ++
              ((cause? (entry.1.write value buffer).result).map
                (.alternativeNotWritten entry.2)).toList) ∧
      ∀ causes,
        ((choice alternatives order).write value buffer).result = .error (.exhausted causes) →
        (Attempt.write (choice alternatives order) value buffer).reports =
          (order.arrange causes.zipIdx).map fun met => .alternativeNotWritten met.2 met.1) ∧
    (∀ (element : Grammar σ α) (separator terminator : Grammar σ Unit) (count : CountRange)
        (input : Run σ),
      ∃ turns last, MaximalRun element separator count.max.toNat input turns last ∧
        (∀ values, ((repetition element separator terminator count).read input).result =
          .ok values → values = turns.map Turn.value) ∧
        ((turns.length = count.max.toNat ∧
            (Attempt.read (repetition element separator terminator count) input).reports = []) ∨
          (turns.length < count.max.toNat ∧
            ∃ cause, StopsFor element separator turns.length last cause ∧
              (Attempt.read (repetition element separator terminator count) input).reports =
                [.repetitionStopped turns.length cause]))) ∧
    (∀ (grammar : Grammar σ α) (input : Run σ),
      (grammar.decode input).log = (grammar.read input).log ++
        ((cause? (grammar.read input).result).map fun failure =>
          .decodeFailed failure (failure.offset? input.units)).toList ∧
      (grammar.decodeExact input).log = (grammar.decode input).log) ∧
    (∀ (grammar : Grammar σ α) (value : α),
      (grammar.encode value).log = (grammar.write value []).log ++
        ((cause? (grammar.write value []).result).map .encodeFailed).toList) ∧
    (∀ event : Event, event.fields.lookup "err" = event.failure?.map Failure.message) ∧
    (∀ index failure,
      (Event.alternativeNotRead index failure).shown =
        ("TRACE", "alternative failed to decode",
          [("alternative", toString index), ("err", failure.message)]) ∧
      (Event.alternativeNotWritten index failure).shown =
        ("TRACE", "alternative failed to encode",
          [("alternative", toString index), ("err", failure.message)])) ∧
    (∀ count cause,
      (Event.repetitionStopped count cause).fields.lookup "count" = some (toString count)) ∧
    ∀ failure offset,
      (Event.decodeFailed failure offset).shown =
        ("DEBUG", "decode failed",
          [("offset", Event.showOffset offset), ("err", failure.message)]) ∧
      (Event.encodeFailed failure).shown =
        ("DEBUG", "encode failed", [("err", failure.message)]) := by
  refine ⟨?_, ?_, ?_, repetition_reports, ?_, encode_log, Event.lookup_err,
    fun _ _ => ⟨rfl, rfl⟩, Event.lookup_count, fun _ _ => ⟨rfl, rfl⟩⟩
  · intro attempt
    exact ⟨attempt.log_eq, fun _ h => ⟨h.isInfix, h.sound⟩,
      fun _ => ⟨Attempt.mem_log_iff, Attempt.level_of_mem_log⟩⟩
  · intro alternatives order input
    exact ⟨read_choice_log alternatives order input, fun _ => read_choice_reports⟩
  · intro alternatives order value buffer
    exact ⟨write_choice_log alternatives order value buffer, fun _ => write_choice_reports⟩
  · intro grammar input
    exact ⟨decode_log grammar input, decodeExact_log grammar input⟩

/-- A number or a word in capital letters, of one to nine characters. -/
def numberOrWord : Grammar Char (Run Char) :=
  .oneOf [.run Char.isDigit ⟨1, 9⟩, .run Char.isUpper ⟨1, 9⟩]

/-- Up to nine numbers or words, with commas between them. -/
def numbersAndWords : Grammar Char (List (Run Char)) :=
  .repetition numberOrWord (.text ",") .empty ⟨0, 9⟩

/-- A comma is read and given back, since no value follows it. What was told behind the comma
is kept, and the report of the stop after one value comes last. -/
theorem log_is_faithful_numbersAndWords :
    let short : Failure := .predicate "prefix length" 1
    let refused : Failure := .unrepresentable "prefix predicate"
    let alternatives : Alternatives Char (Run Char) :=
      .ofList [.run Char.isDigit ⟨1, 9⟩, .run Char.isUpper ⟨1, 9⟩]
    let attempt : Attempt Char := .read numbersAndWords "7,?".toList
    let step : Step Char :=
      ⟨.read (.run Char.isUpper ⟨1, 9⟩) ['?'], some (.alternativeNotRead 1 short)⟩
    (attempt.Includes step ∧ step.log <:+: attempt.log ∧
      (Event.alternativeNotRead 1 short).failure? = step.attempt.failure?) ∧
    (.repetitionStopped 1 (.element (.exhausted [short, short])) ∈ attempt.log ∧
      (Event.repetitionStopped 1 (.element (.exhausted [short, short]))).level = .trace) ∧
    ((numberOrWord.read ['?']).result = .error (.exhausted [short, short]) ∧
      (Attempt.read (choice alternatives .reverse) ['?']).reports =
        [.alternativeNotRead 0 short, .alternativeNotRead 1 short]) ∧
    ((numberOrWord.write ['?'] []).result = .error (.exhausted [refused, refused]) ∧
      (Attempt.write (choice alternatives .reverse) ['?'] []).reports =
        [.alternativeNotWritten 1 refused, .alternativeNotWritten 0 refused]) ∧
    (numbersAndWords.read "7,?".toList).result = .ok [['7']] ∧
      ∃ turns last, MaximalRun numberOrWord (.text ",") 9 "7,?".toList turns last ∧
        [['7']] = turns.map Turn.value := by
  intro short refused alternatives attempt step
  have hsteps : attempt.steps =
      [⟨.read numberOrWord "7,?".toList, none⟩, ⟨.read (.text ",") ",?".toList, none⟩,
        ⟨.read numberOrWord ['?'],
          some (.repetitionStopped 1 (.element (.exhausted [short, short])))⟩,
        ⟨.read .empty ",?".toList, none⟩] := by
    with_unfolding_all rfl
  have houter : ⟨.read numberOrWord ['?'],
      some (.repetitionStopped 1 (.element (.exhausted [short, short])))⟩ ∈ attempt.steps := by
    rw [hsteps]
    exact List.mem_cons_of_mem _ (List.mem_cons_of_mem _ List.mem_cons_self)
  have hinner : step ∈ (Attempt.read numberOrWord ['?']).steps :=
    List.mem_cons_of_mem _ List.mem_cons_self
  have hincludes : attempt.Includes step := .within houter (.made hinner)
  have hread : (numberOrWord.read ['?']).result = .error (.exhausted [short, short]) := rfl
  have hwrite : (numberOrWord.write ['?'] []).result = .error (.exhausted [refused, refused]) :=
    rfl
  have hfound : (numbersAndWords.read "7,?".toList).result = .ok [['7']] := by
    with_unfolding_all rfl
  obtain ⟨hattempts, hreading, hwriting, hstopping, _⟩ :=
    log_is_faithful (σ := Char) (α := Run Char)
  obtain ⟨_, hkept, htold⟩ := hattempts attempt
  obtain ⟨hpiece, hsound⟩ := hkept step hincludes
  have hstop := (htold _).1.mpr ⟨_, .made houter, rfl⟩
  obtain ⟨turns, last, hrun, hvalues, _⟩ :=
    hstopping numberOrWord (.text ",") .empty ⟨0, 9⟩ "7,?".toList
  exact ⟨⟨hincludes, hpiece, (hsound _ rfl).2⟩, ⟨hstop, (htold _).2 hstop⟩,
    ⟨hread, (hreading alternatives .reverse ['?']).2 _ hread⟩,
    ⟨hwrite, (hwriting alternatives .reverse ['?'] []).2 _ hwrite⟩,
    hfound, turns, last, hrun, hvalues _ hfound⟩

end Grammar

end InvertibleGrammar
