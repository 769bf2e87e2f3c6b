import InvertibleGrammar.Grammar.Codec
import InvertibleGrammar.Proofs.Gathering
import InvertibleGrammar.Proofs.Parts
import InvertibleGrammar.Proofs.SuccessfulWriting

/-!
# Reading what was written

A value makes a round trip before a rest if it can be written and if its output,
with the rest behind it, is read back as the value and leaves the rest. The rest
matters, since a reader may go on into what was not written for it. What a
combination needs is that each of its parts makes the round trip before all that is
printed after that part.
-/

namespace InvertibleGrammar

variable {σ : Type} [Symbol σ] [DecidableEq σ]

/-- What writing a value into an empty buffer leaves there. -/
def Grammar.output {α : Type} (grammar : Grammar σ α) (value : α) : Run σ :=
  (grammar.write value []).buffer

/-- The value can be written, and it is read back before the rest from its output. -/
def Grammar.RoundTrips {α : Type} (grammar : Grammar σ α) (value : α) (rest : Run σ) : Prop :=
  (grammar.write value []).result = .ok () ∧
    (grammar.read (grammar.output value ++ rest)).Yields value rest

namespace Grammar

variable {α : Type} {value : α} {rest : Run σ}

omit [DecidableEq σ] in
/-- What an accepted value prints after any buffer is its output. -/
theorem prints_output {grammar : Grammar σ α} (h : (grammar.write value []).result = .ok ()) :
    grammar.write.Prints value (grammar.output value) :=
  grammar.write_appendOnly.prints_iff.mpr ⟨h, rfl⟩

omit [DecidableEq σ] in
theorem output_eq_of_prints {grammar : Grammar σ α} {printed : Run σ}
    (h : grammar.write.Prints value printed) : grammar.output value = printed :=
  (h []).2

/-- A value that is read back from what it prints makes the round trip. -/
theorem roundTrips_of_prints (grammar : Grammar σ α) {printed : Run σ}
    (hprints : grammar.write.Prints value printed)
    (hread : (grammar.read (printed ++ rest)).Yields value rest) :
    grammar.RoundTrips value rest := by
  have hresult : (grammar.write value []).result = .ok () := (hprints []).1
  exact ⟨hresult, by rwa [output_eq_of_prints hprints]⟩

end Grammar

namespace Part

omit [DecidableEq σ] in
@[simp] theorem output_mk {α : Type} (grammar : Grammar σ α) (value : α) :
    output ⟨grammar, value⟩ = grammar.output value := rfl

/-- Each part makes the round trip before the outputs of the later parts and the rest. -/
def RoundTripAll : List (Part σ) → Run σ → Prop
  | [], _ => True
  | part :: others, rest =>
      part.grammar.RoundTrips part.value (others.flatMap output ++ rest) ∧
        RoundTripAll others rest

theorem roundTripAll_append {front back : List (Part σ)} {rest : Run σ} :
    RoundTripAll (front ++ back) rest ↔
      RoundTripAll front (back.flatMap output ++ rest) ∧ RoundTripAll back rest := by
  induction front with
  | nil => simp [RoundTripAll]
  | cons part others ih =>
      simp only [List.cons_append, RoundTripAll, ih, List.flatMap_append, List.append_assoc,
        and_assoc]

/-- Parts that make the round trip before every rest make it one after the other. -/
theorem roundTripAll_of_forall {parts : List (Part σ)} {rest : Run σ}
    (h : ∀ part ∈ parts, ∀ after, part.grammar.RoundTrips part.value after) :
    RoundTripAll parts rest := by
  induction parts with
  | nil => trivial
  | cons part others ih =>
      have hothers : RoundTripAll others rest :=
        ih fun other hother => h other (List.mem_cons_of_mem _ hother)
      exact ⟨h part List.mem_cons_self _, hothers⟩

end Part

/-! ## Sequences -/

/-- Slots are printed one by one. -/
theorem Slots.prints_of_roundTripAll {types : List Type} : (slots : Slots σ types) →
    (tuple : Tuple types) → (rest : Run σ) → Part.RoundTripAll (slots.parts tuple) rest →
    slots.write.Prints tuple ((slots.parts tuple).flatMap Part.output)
  | .nil, _, _, _ => Writer.empty_prints
  | .keep first others, tuple, rest, h => by
      obtain ⟨hfirst, hothers⟩ := h
      have hprints := Grammar.prints_output hfirst.1
      exact Writer.keep_prints hprints (others.prints_of_roundTripAll tuple.tail rest hothers)
  | .skip first others, tuple, rest, h => by
      obtain ⟨hfirst, hothers⟩ := h
      have hprints := Grammar.prints_output hfirst.1
      exact Writer.skip_prints hprints (others.prints_of_roundTripAll tuple rest hothers)

/-- Slots are read back one by one, each before the outputs of those after it. -/
theorem Slots.read_of_roundTripAll {types : List Type} : (slots : Slots σ types) →
    (tuple : Tuple types) → (rest : Run σ) → Part.RoundTripAll (slots.parts tuple) rest →
    (slots.read ((slots.parts tuple).flatMap Part.output ++ rest)).Yields tuple rest
  | .nil, _, _, _ => Reader.empty_yields_iff.mpr rfl
  | .keep first others, tuple, rest, h => by
      obtain ⟨hfirst, hothers⟩ := h
      simp only [parts, List.flatMap_cons, List.append_assoc]
      exact Reader.keep_yields_iff.mpr
        ⟨_, hfirst.2, others.read_of_roundTripAll tuple.tail rest hothers⟩
  | .skip first others, tuple, rest, h => by
      obtain ⟨hfirst, hothers⟩ := h
      simp only [parts, List.flatMap_cons, List.append_assoc]
      exact Reader.skip_yields_iff.mpr
        ⟨_, hfirst.2, others.read_of_roundTripAll tuple rest hothers⟩

namespace Grammar

variable {α β : Type} {rest : Run σ}

theorem sequence_roundTrips {types : List Type} {slots : Slots σ types} {tuple : Tuple types}
    (h : Part.RoundTripAll (slots.parts tuple) rest) : (sequence slots).RoundTrips tuple rest :=
  (sequence slots).roundTrips_of_prints (slots.prints_of_roundTripAll tuple rest h)
    (slots.read_of_roundTripAll tuple rest h)

/-! ## Conversions and optional parts -/

theorem convert_roundTrips {inner : Grammar σ α} {conversion : Conversion α β} {before : α}
    {value : β} (hunapply : conversion.unapply value = .ok before)
    (happly : conversion.apply before = .ok value) (h : inner.RoundTrips before rest) :
    (convert inner conversion).RoundTrips value rest := by
  refine (convert inner conversion).roundTrips_of_prints
    (Writer.convert_prints hunapply (prints_output h.1)) ?_
  exact Reader.convert_yields_iff.mpr ⟨before, h.2, happly⟩

theorem optional_roundTrips_some_iff {inner : Grammar σ α} {value : α} :
    (optional inner).RoundTrips (some value) rest ↔ inner.RoundTrips value rest := by
  constructor
  · intro h
    have hprints := Writer.optional_prints_some_iff.mp (prints_output h.1)
    exact inner.roundTrips_of_prints hprints (Reader.optional_yields_some_iff.mp h.2)
  · intro h
    have hprints := Writer.optional_prints_some_iff.mpr (prints_output h.1)
    exact (optional inner).roundTrips_of_prints hprints
      (Reader.optional_yields_some_iff.mpr h.2)

theorem optional_roundTrips_none_iff {inner : Grammar σ α} :
    (optional inner).RoundTrips none rest ↔ (inner.read rest).Fails := by
  constructor
  · rintro ⟨_, hread⟩
    exact (Reader.optional_yields_none_iff.mp hread).1
  · intro h
    exact ⟨rfl, Reader.optional_yields_none_iff.mpr ⟨h, rfl⟩⟩

end Grammar

/-! ## Choice -/

/-- Of the alternatives before and after one, those that are tried before it in writing. -/
def PrintOrder.triedBefore.{u} {γ : Type u} (order : PrintOrder) (earlier later : List γ) :
    List γ :=
  match order with
  | reverse => later.reverse
  | declared => earlier

theorem PrintOrder.arrange_split.{u} {γ : Type u} (order : PrintOrder) (earlier later : List γ)
    (item : γ) : ∃ untried,
    order.arrange (earlier ++ item :: later) =
      order.triedBefore earlier later ++ item :: untried := by
  cases order with
  | reverse => exact ⟨earlier.reverse, by simp [arrange, triedBefore]⟩
  | declared => exact ⟨later, rfl⟩

omit [DecidableEq σ] in
/-- A choice prints as the first alternative that accepts the value in the order of trying. -/
theorem Grammar.choice_prints {α : Type} {alternatives : Alternatives σ α} {order : PrintOrder}
    {earlier later : List (Grammar σ α)} {chosen : Grammar σ α} {value : α}
    (hsplit : alternatives.toList = earlier ++ chosen :: later)
    (hrefused : ∀ tried ∈ order.triedBefore earlier later, (tried.write value []).Refused)
    (haccepted : (chosen.write value []).result = .ok ()) :
    (choice alternatives order).write.Prints value (chosen.output value) := by
  obtain ⟨untried, harranged⟩ := order.arrange_split earlier later chosen
  have hwriters : order.arrange alternatives.writers =
      (order.triedBefore earlier later).map (fun grammar => grammar.write) ++
        chosen.write :: untried.map fun grammar => grammar.write := by
    calc
      order.arrange alternatives.writers
          = (order.arrange alternatives.toList).map fun grammar => grammar.write := by
        rw [alternatives.writers_eq_map, order.arrange_map]
      _ = _ := by rw [hsplit, harranged, List.map_append, List.map_cons]
  apply Writer.choice_prints alternatives.writers_appendOnly hwriters (prints_output haccepted)
  exact List.forall_mem_map.mpr hrefused

/-- A choice makes the round trip as the first alternative that accepts the value in the
order of trying, if no alternative declared before that one can read the output. -/
theorem Grammar.choice_roundTrips {α : Type} {alternatives : Alternatives σ α} {order : PrintOrder}
    {earlier later : List (Grammar σ α)} {chosen : Grammar σ α} {value : α} {rest : Run σ}
    (hsplit : alternatives.toList = earlier ++ chosen :: later)
    (hrefused : ∀ tried ∈ order.triedBefore earlier later, (tried.write value []).Refused)
    (hchosen : chosen.RoundTrips value rest)
    (hunread : ∀ other ∈ earlier, (other.read (chosen.output value ++ rest)).Fails) :
    (choice alternatives order).RoundTrips value rest := by
  have hreaders : alternatives.readers = earlier.map (fun grammar => grammar.read) ++
      chosen.read :: later.map fun grammar => grammar.read := by
    rw [alternatives.readers_eq_map, hsplit, List.map_append, List.map_cons]
  apply (choice alternatives order).roundTrips_of_prints
    (choice_prints hsplit hrefused hchosen.1)
  refine Reader.choice_yields_iff.mpr ⟨_, _, _, hreaders, ?_, hchosen.2⟩
  intro reader hreader
  obtain ⟨other, hother, rfl⟩ := List.mem_map.mp hreader
  exact hunread other hother

/-! ## Repetition -/

section Repetition

variable {α : Type} {element : Grammar σ α} {separator terminator : Grammar σ Unit}

/-- The parts of an iteration: the separator, unless it is the first, and the element. -/
def Part.iteration (element : Grammar σ α) (separator : Grammar σ Unit) (first : Bool)
    (value : α) : List (Part σ) :=
  if first then [⟨element, value⟩] else [⟨separator, ()⟩, ⟨element, value⟩]

/-- The parts of each iteration in turn. -/
def Part.iterations (element : Grammar σ α) (separator : Grammar σ Unit) :
    Bool → List α → List (List (Part σ))
  | _, [] => []
  | first, value :: others =>
      iteration element separator first value :: iterations element separator false others

omit [Symbol σ] [DecidableEq σ] in
/-- The parts of the iterations are the separator and the element, with each of the values. -/
theorem Part.eq_or_exists_of_mem_iterations {first : Bool} {values : List α} {part : Part σ}
    (h : part ∈ (iterations element separator first values).flatten) :
    part = ⟨separator, ()⟩ ∨ ∃ value ∈ values, part = ⟨element, value⟩ := by
  induction values generalizing first with
  | nil => cases h
  | cons value others ih =>
      rcases List.mem_append.mp h with hfirst | hothers
      · cases first with
        | true => exact Or.inr ⟨value, List.mem_cons_self, List.mem_singleton.mp hfirst⟩
        | false =>
            rcases List.mem_cons.mp hfirst with hseparator | helement
            · exact Or.inl hseparator
            · exact Or.inr ⟨value, List.mem_cons_self, List.mem_singleton.mp helement⟩
      · rcases ih hothers with hseparator | ⟨later, hlater, helement⟩
        · exact Or.inl hseparator
        · exact Or.inr ⟨later, List.mem_cons_of_mem _ hlater, helement⟩

omit [DecidableEq σ] in
/-- An iteration prints something where its element does. -/
theorem Part.flatMap_output_ne_nil {first : Bool} {values : List α}
    (h : ∀ value ∈ values, element.output value ≠ []) :
    ∀ parts ∈ iterations element separator first values, parts.flatMap output ≠ [] := by
  induction values generalizing first with
  | nil => simp [iterations]
  | cons value others ih =>
      intro parts hparts
      rcases List.mem_cons.mp hparts with rfl | hparts
      · have hvalue := h value List.mem_cons_self
        cases first <;> simp [iteration, hvalue]
      · exact ih (fun other hother => h other (List.mem_cons_of_mem _ hother)) parts hparts

omit [DecidableEq σ] in
/-- The iterations put the separator between the outputs of the values. -/
theorem Part.flatMap_output_iterations (values : List α) :
    (iterations element separator true values).flatten.flatMap output =
      List.intercalate (separator.output ()) (values.map element.output) := by
  have hlater (value : α) (others : List α) :
      (iterations element separator false (value :: others)).flatten.flatMap output =
        separator.output () ++
          (iterations element separator true (value :: others)).flatten.flatMap output := by
    simp [iterations, iteration]
  induction values with
  | nil => rfl
  | cons value others ih =>
      have hfirst : (iterations element separator true (value :: others)).flatten.flatMap output =
          element.output value ++
            (iterations element separator false others).flatten.flatMap output := by
        simp [iterations, iteration]
      cases others with
      | nil => simp [iterations, iteration]
      | cons next others =>
          rw [hfirst, hlater, ih]
          simp only [List.map_cons, List.intercalate_cons_cons, List.append_assoc]

/-- The parts of an iteration are read back in an iteration. -/
theorem Part.read_iteration {count : Nat} {value : α} {rest : Run σ}
    (h : RoundTripAll (iteration element separator (decide (count = 0)) value) rest) :
    (Reader.iteration element.read separator.read count
      ((iteration element separator (decide (count = 0)) value).flatMap output ++ rest)).Yields
        value rest := by
  rw [Reader.iteration_yields_iff]
  by_cases hcount : count = 0
  · simp only [iteration, hcount, decide_true, if_true, RoundTripAll, List.flatMap_cons,
      List.flatMap_nil, List.append_nil, List.nil_append, output_mk] at h ⊢
    exact ⟨_, Reader.empty_yields_iff.mpr rfl, h.1.2⟩
  · simp only [iteration, hcount, decide_false, Bool.false_eq_true, if_false, RoundTripAll,
      List.flatMap_cons, List.flatMap_nil, List.append_nil, List.nil_append, List.append_assoc,
      output_mk] at h ⊢
    exact ⟨_, h.1.2, h.2.1.2⟩

/-- The parts of an iteration are printed in an iteration. -/
theorem Part.iteration_leaves {first : Bool} {value : α} {rest : Run σ}
    (h : RoundTripAll (iteration element separator first value) rest)
    (hprogress : (iteration element separator first value).flatMap output ≠ [])
    (buffer : Run σ) :
    (Writer.iteration element.write separator.write first value buffer).Leaves
      (buffer ++ (iteration element separator first value).flatMap output) := by
  cases first with
  | true =>
      have helement := Grammar.prints_output h.1.1
      simp only [iteration, if_true, List.flatMap_cons, List.flatMap_nil, List.append_nil,
        output_mk] at hprogress ⊢
      have hlead : (if true then Writer.empty else separator.write : Writer σ Unit).Prints () [] :=
        Writer.empty_prints
      exact Writer.iteration_leaves hlead helement hprogress buffer
  | false =>
      have hlead : (if false then Writer.empty else separator.write : Writer σ Unit).Prints ()
          (separator.output ()) := Grammar.prints_output h.1.1
      have helement := Grammar.prints_output h.2.1.1
      simp only [iteration, Bool.false_eq_true, if_false, List.flatMap_cons, List.flatMap_nil,
        List.append_nil, output_mk] at hprogress ⊢
      exact Writer.iteration_leaves hlead helement hprogress buffer

/-- The iterations are read back as a chain that leaves what stands behind them. -/
theorem Part.iterates_of_roundTripAll {count : Nat} {values : List α} {rest : Run σ}
    (h : RoundTripAll (iterations element separator (decide (count = 0)) values).flatten rest)
    (hprogress : ∀ parts ∈ iterations element separator (decide (count = 0)) values,
      parts.flatMap output ≠ []) :
    Reader.Iterates element.read separator.read count
      ((iterations element separator (decide (count = 0)) values).flatten.flatMap output ++ rest)
      values rest := by
  induction values generalizing count with
  | nil => exact .done
  | cons value others ih =>
      obtain ⟨hfirst, hothers⟩ := roundTripAll_append.mp h
      have hnonempty := hprogress _ List.mem_cons_self
      have hlater : Reader.Iterates element.read separator.read (count + 1) _ others rest :=
        ih hothers fun parts hparts => hprogress parts (List.mem_cons_of_mem _ hparts)
      simp only [iterations, List.flatten_cons, List.flatMap_append, List.append_assoc]
      refine .more (read_iteration hfirst) ?_ hlater
      have hpositive := mt Run.units_eq_zero_iff.mp hnonempty
      simp only [Run.units_append]
      omega

/-- The iterations and the terminator are joined to their outputs. -/
theorem Part.join_leaves {first : Bool} {values : List α} {rest : Run σ}
    (h : RoundTripAll (iterations element separator first values).flatten rest)
    (hprogress : ∀ parts ∈ iterations element separator first values,
      parts.flatMap output ≠ []) {closing : Run σ}
    (hclosing : terminator.write.Prints () closing) (buffer : Run σ) :
    (Writer.join element.write separator.write terminator.write first values buffer).Leaves
      (buffer ++ ((iterations element separator first values).flatten.flatMap output ++
        closing)) := by
  induction values generalizing first buffer with
  | nil => exact hclosing buffer
  | cons value others ih =>
      obtain ⟨hfirst, hothers⟩ := roundTripAll_append.mp h
      have hnonempty := hprogress _ List.mem_cons_self
      have hlater := ih hothers
        fun parts hparts => hprogress parts (List.mem_cons_of_mem _ hparts)
      simp only [iterations, List.flatten_cons, List.flatMap_append, List.append_assoc]
      exact Writer.join_leaves_cons (iteration_leaves hfirst hnonempty) hlater buffer

/-- A repetition prints its iterations and then the terminator. -/
theorem Grammar.repetition_prints {count : CountRange} {values : List α} {rest : Run σ}
    (hcount : count.contains values.length = true)
    (hparts : Part.RoundTripAll
      ((Part.iterations element separator true values).flatten ++ [⟨terminator, ()⟩]) rest)
    (hprogress : ∀ parts ∈ Part.iterations element separator true values,
      parts.flatMap Part.output ≠ []) :
    (repetition element separator terminator count).write.Prints values
      ((Part.iterations element separator true values).flatten.flatMap Part.output ++
        terminator.output ()) := by
  obtain ⟨hvalues, hterminator, _⟩ := Part.roundTripAll_append.mp hparts
  have hclosing := prints_output hterminator.1
  exact Writer.repetition_prints hcount (Part.join_leaves hvalues hprogress hclosing)

/-- A repetition makes the round trip if its parts do, each iteration prints something,
and no iteration is left to make where the terminator stands. -/
theorem Grammar.repetition_roundTrips {count : CountRange} {values : List α} {rest : Run σ}
    (hcount : count.contains values.length = true)
    (hparts : Part.RoundTripAll
      ((Part.iterations element separator true values).flatten ++ [⟨terminator, ()⟩]) rest)
    (hprogress : ∀ parts ∈ Part.iterations element separator true values,
      parts.flatMap Part.output ≠ [])
    (hstops : Reader.Stops element.read separator.read count.max.toNat values.length
      (terminator.output () ++ rest)) :
    (repetition element separator terminator count).RoundTrips values rest := by
  obtain ⟨hvalues, hterminator, _⟩ := Part.roundTripAll_append.mp hparts
  simp only [List.flatMap_cons, List.flatMap_nil, List.append_nil, List.nil_append,
    Part.output_mk] at hvalues hterminator
  obtain ⟨hmin, hmax⟩ := CountRange.contains_iff.mp hcount
  have hchain : Reader.Iterates element.read separator.read 0 _ values
      (terminator.output () ++ rest) := Part.iterates_of_roundTripAll hvalues hprogress
  rw [← Nat.zero_add values.length] at hstops
  obtain ⟨hgathered, hleft⟩ := Reader.gather_of_iterates hchain (Or.inr (by omega)) hstops
  apply (repetition element separator terminator count).roundTrips_of_prints
    (repetition_prints hcount hparts hprogress)
  rw [List.append_assoc]
  exact Reader.repetition_yields_iff.mpr ⟨_, hgathered, hleft, hmin, hterminator.2⟩

end Repetition

/-! ## Whole values -/

namespace Grammar

omit [DecidableEq σ] in
/-- Encoding gives the output of a value that is accepted. -/
theorem encode_ok_iff {α : Type} {grammar : Grammar σ α} {value : α} {printed : Run σ} :
    (grammar.encode value).result = .ok printed ↔
      (grammar.write value []).result = .ok () ∧ grammar.output value = printed := by
  cases hr : (grammar.write value []).result with
  | ok _ => simp [encode, hr, output]
  | error cause => simp [encode, hr]

omit [DecidableEq σ] in
theorem exists_encode_ok_iff {α : Type} {grammar : Grammar σ α} {value : α} :
    (∃ printed, (grammar.encode value).result = .ok printed) ↔
      (grammar.write value []).result = .ok () := by
  simp only [encode_ok_iff, exists_and_left, exists_eq', and_true]

/-- Decoding gives the value that was read and what is left of the input. -/
theorem decode_ok_iff {α : Type} {grammar : Grammar σ α} {value : α} {input rest : Run σ} :
    (grammar.decode input).result = .ok (value, rest) ↔
      (grammar.read input).Yields value rest := by
  cases hr : (grammar.read input).result with
  | ok found => simp [decode, Reading.Yields, hr]
  | error cause => simp [decode, Reading.Yields, hr]

/-- A whole input is decoded if it is read and nothing of it is left. -/
theorem decodeExact_ok_iff {α : Type} {grammar : Grammar σ α} {value : α} {input : Run σ} :
    (grammar.decodeExact input).result = .ok value ↔ (grammar.read input).Yields value [] := by
  cases hr : (grammar.read input).result with
  | error cause => simp [decodeExact, decode, Reading.Yields, hr]
  | ok found =>
      cases hrest : (grammar.read input).rest with
      | nil => simp [decodeExact, decode, Reading.Yields, hr, hrest]
      | cons symbol rest => simp [decodeExact, decode, Reading.Yields, hr, hrest]

/-- A value that makes the round trip before nothing is decoded from its output. -/
theorem decodeExact_output {α : Type} {grammar : Grammar σ α} {value : α}
    (h : grammar.RoundTrips value []) :
    (grammar.decodeExact (grammar.output value)).result = .ok value := by
  have hread := h.2
  rw [List.append_nil] at hread
  exact decodeExact_ok_iff.mpr hread

/-- Round trips are put together from those of the parts, each before what is printed
after it:

* a sequence, from its slots;
* a choice, from the first alternative in the order of trying that accepts the value, if
  those declared before it cannot read its output;
* a repetition, from the separators, the elements and the terminator, if every iteration
  prints something and none could follow the last one;
* an optional part, from the part itself or from its failure to read the rest;
* a conversion, from the value that it is undone to. -/
theorem roundTrips_of_parts (rest : Run σ) :
    (∀ (types : List Type) (slots : Slots σ types) (tuple : Tuple types),
      Part.RoundTripAll (slots.parts tuple) rest → (sequence slots).RoundTrips tuple rest) ∧
    (∀ (α : Type) (alternatives : Alternatives σ α) (order : PrintOrder)
      (earlier later : List (Grammar σ α)) (chosen : Grammar σ α) (value : α),
      alternatives.toList = earlier ++ chosen :: later →
      (∀ tried ∈ order.triedBefore earlier later, (tried.write value []).Refused) →
      chosen.RoundTrips value rest →
      (∀ other ∈ earlier, (other.read (chosen.output value ++ rest)).Fails) →
      (choice alternatives order).RoundTrips value rest) ∧
    (∀ (α : Type) (element : Grammar σ α) (separator terminator : Grammar σ Unit)
      (count : CountRange) (values : List α),
      count.contains values.length = true →
      Part.RoundTripAll
        ((Part.iterations element separator true values).flatten ++ [⟨terminator, ()⟩]) rest →
      (∀ parts ∈ Part.iterations element separator true values,
        parts.flatMap Part.output ≠ []) →
      Reader.Stops element.read separator.read count.max.toNat values.length
        (terminator.output () ++ rest) →
      (repetition element separator terminator count).RoundTrips values rest) ∧
    (∀ (α : Type) (inner : Grammar σ α) (value : α),
      (optional inner).RoundTrips (some value) rest ↔ inner.RoundTrips value rest) ∧
    (∀ (α : Type) (inner : Grammar σ α),
      (optional inner).RoundTrips none rest ↔ (inner.read rest).Fails) ∧
    (∀ (α β : Type) (inner : Grammar σ α) (conversion : Conversion α β) (before : α) (value : β),
      conversion.unapply value = .ok before → conversion.apply before = .ok value →
      inner.RoundTrips before rest → (convert inner conversion).RoundTrips value rest) := by
  refine ⟨?_, ?_, ?_, ?_, ?_, ?_⟩
  · intro types slots tuple hslots
    exact sequence_roundTrips hslots
  · intro α alternatives order earlier later chosen value hsplit hrefused hchosen hunread
    exact choice_roundTrips hsplit hrefused hchosen hunread
  · intro α element separator terminator count values hcount hparts hprogress hstops
    exact repetition_roundTrips hcount hparts hprogress hstops
  · intro α inner value
    exact optional_roundTrips_some_iff
  · intro α inner
    exact optional_roundTrips_none_iff
  · intro α β inner conversion before value hunapply happly hinner
    exact convert_roundTrips hunapply happly hinner

/-- Digits. -/
def number : Grammar Char (Run Char) := .run Char.isDigit ⟨1, 3⟩

/-- Numbers between commas, up to a semicolon. -/
def numbers : Grammar Char (List (Run Char)) :=
  .repetition number (.text ",") (.text ";") ⟨1, 5⟩

/-- Two numbers are read back from their list. A third cannot follow the semicolon. -/
theorem roundTrips_of_parts_numbers : numbers.RoundTrips [['1', '2'], ['3']] [',', '4'] := by
  refine (roundTrips_of_parts [',', '4']).2.2.1 _ number (.text ",") (.text ";") ⟨1, 5⟩ _
    rfl ?_ ?_ ?_
  · exact ⟨⟨rfl, rfl, rfl⟩, ⟨rfl, rfl, rfl⟩, ⟨rfl, rfl, rfl⟩, ⟨rfl, rfl, rfl⟩, trivial⟩
  · intro parts hparts
    rcases List.mem_cons.mp hparts with rfl | hparts
    · exact List.cons_ne_nil '1' ['2']
    · obtain rfl := List.mem_singleton.mp hparts
      exact List.cons_ne_nil ',' ['3']
  · exact Or.inr (Or.inl ⟨_, rfl⟩)

end Grammar

end InvertibleGrammar
