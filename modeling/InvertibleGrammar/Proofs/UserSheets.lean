import InvertibleGrammar.Proofs.FailedWriting
import InvertibleGrammar.Proofs.LeafRoundTrips
import InvertibleGrammar.Users

/-!
# Sheets of users

Which users can be written line by line, what their lines look like, and that the
lines are read back as the same users. A name may stand in quotes or bare. What the
bare form cannot hold the quoted form can, with the exception of the quote itself.
The separators of a line come after fields that stop before them, so a line is read
back before anything that may follow it.
-/

namespace InvertibleGrammar

namespace User

/-! ## Forms -/

/-- A name as it is printed, in quotes just if it holds a comma or a newline. -/
def nameForm (name : String) : Run Char :=
  if ',' ∈ name.toList ∨ '\n' ∈ name.toList then '"' :: name.toList ++ ['"'] else name.toList

/-- The line of a user. -/
def form (user : User) : Run Char :=
  Numeral.digits user.id.val ++ ',' :: nameForm user.name ++
    ',' :: (if user.admin then "true" else "false").toList

/-- The lines of some users. -/
def sheet (users : List User) : Run Char := List.intercalate ['\n'] (users.map form)

/-! ## Names -/

section Names

variable {name rest : Run Char}

theorem all_quoted (hquote : '"' ∉ name) : name.all (· != '"') = true := by
  rw [List.all_eq_true]
  intro c hc
  have hne : c ≠ '"' := fun heq => hquote (heq ▸ hc)
  simp [hne]

theorem all_bare (hquote : '"' ∉ name) (hplain : ¬ (',' ∈ name ∨ '\n' ∈ name)) :
    name.all (fun c => c != ',' && c != '"' && c != '\n') = true := by
  obtain ⟨hcomma, hnewline⟩ := not_or.mp hplain
  rw [List.all_eq_true]
  intro c hc
  have hne : c ≠ ',' ∧ c ≠ '"' ∧ c ≠ '\n' :=
    ⟨fun heq => hcomma (heq ▸ hc), fun heq => hquote (heq ▸ hc), fun heq => hnewline (heq ▸ hc)⟩
  simp [hne]

theorem not_all_bare (h : '"' ∈ name ∨ ',' ∈ name ∨ '\n' ∈ name) :
    name.all (fun c => c != ',' && c != '"' && c != '\n') = false := by
  rw [List.all_eq_false]
  rcases h with hquote | hcomma | hnewline
  · exact ⟨'"', hquote, by decide⟩
  · exact ⟨',', hcomma, by decide⟩
  · exact ⟨'\n', hnewline, by decide⟩

theorem quotedName_prints (hquote : '"' ∉ name) (hlength : name.length < UInt64.size) :
    quotedName.write.Prints name ('"' :: name ++ ['"']) := by
  have hmark : (Grammar.text "\"" : Grammar Char Unit).write.Prints () ['"'] :=
    Writer.literal_prints ['"']
  have hrun : (Grammar.runOf (· != '"')).write.Prints name name :=
    Writer.run_prints (all_quoted hquote) (CountRange.any_contains hlength)
  have hclosing : (Slots.skip (.text "\"") .nil : Slots Char []).write.Prints () ['"'] :=
    Writer.skip_prints hmark Writer.empty_prints
  have hbody : (Slots.keep (.runOf (· != '"')) (.skip (.text "\"") .nil)).write.Prints name
      (name ++ ['"']) := Writer.keep_prints hrun hclosing
  have hwhole : quotedName.write.Prints name (['"'] ++ (name ++ ['"'])) :=
    Writer.skip_prints hmark hbody
  rwa [List.singleton_append, ← List.cons_append] at hwhole

theorem quotedName_roundTrips (hquote : '"' ∉ name) (hlength : name.length < UInt64.size) :
    quotedName.RoundTrips name rest := by
  have hrun : (Grammar.runOf (· != '"')).RoundTrips name ('"' :: rest) := by
    apply Grammar.run_roundTrips (all_quoted hquote) (CountRange.any_contains hlength)
    exact Or.inr fun c hc => by simp [← Option.some.inj hc]
  apply Grammar.sequence_roundTrips
  exact ⟨Grammar.literal_roundTrips _ _, hrun, Grammar.literal_roundTrips _ _, trivial⟩

theorem bareName_roundTrips (hquote : '"' ∉ name) (hplain : ¬ (',' ∈ name ∨ '\n' ∈ name))
    (hlength : name.length < UInt64.size) (hrest : rest.head? = some ',') :
    bareName.RoundTrips name rest := by
  apply Grammar.run_roundTrips (all_bare hquote hplain) (CountRange.any_contains hlength)
  right
  intro c hc
  rw [hrest] at hc
  simp [← Option.some.inj hc]

theorem bareName_refused (h : '"' ∈ name ∨ ',' ∈ name ∨ '\n' ∈ name) (buffer : Run Char) :
    (bareName.write name buffer).Refused := by
  have haccepts := not_all_bare h
  refine ⟨.unrepresentable "prefix predicate", ?_⟩
  simp [bareName, Grammar.runOf, Grammar.write, Writer.run, haccepts, Writing.fail]

theorem quotedName_refused (hquote : '"' ∈ name) (buffer : Run Char) :
    (quotedName.write name buffer).Refused := by
  have haccepts : name.all (· != '"') = false := by
    rw [List.all_eq_false]
    exact ⟨'"', hquote, by decide⟩
  refine ⟨.unrepresentable "prefix predicate", ?_⟩
  simp [quotedName, Grammar.runOf, Grammar.text, Grammar.write, Slots.write, Writer.skip,
    Writer.keep, Writer.literal, Writer.run, Tuple.head, haccepts, Writing.andThen,
    Writing.succeed, Writing.fail]

/-- Only an input that starts with a quote holds a quoted name. -/
theorem head?_of_quotedName_yields {input : Run Char} {value : Run Char}
    (h : (quotedName.read input).Yields value rest) : input.head? = some '"' := by
  obtain ⟨middle, hquote, _⟩ := Reader.skip_yields_iff.mp h
  obtain ⟨word, hword, rfl⟩ := Reader.exists_of_words_yields hquote
  rw [(Prod.mk.inj (List.mem_singleton.mp hword)).1]
  rfl

/-- A name without quotes does not start with one, and neither does a comma after it. -/
theorem quotedName_fails (hquote : '"' ∉ name) (hrest : rest.head? = some ',') :
    (quotedName.read (name ++ rest)).Fails := by
  by_cases hfails : (quotedName.read (name ++ rest)).Fails
  · exact hfails
  · obtain ⟨value, left, hyields⟩ := Reading.exists_yields_of_not_fails hfails
    have hhead := head?_of_quotedName_yields hyields
    cases name with
    | nil =>
        rw [List.nil_append, hrest] at hhead
        cases hhead
    | cons c others =>
        rw [List.cons_append, List.head?_cons] at hhead
        rw [Option.some.inj hhead] at hquote
        exact absurd List.mem_cons_self hquote

end Names

/-- The field makes the round trip as the form that is chosen for the name. -/
theorem nameField_roundTrips_of_chosen {name : String} {rest : Run Char}
    (earlier : List (Grammar Char (Run Char))) {later : List (Grammar Char (Run Char))}
    {chosen : Grammar Char (Run Char)}
    (hsplit : [quotedName, bareName] = earlier ++ chosen :: later)
    (hrefused : ∀ tried ∈ later, (tried.write name.toList []).Refused)
    (hchosen : chosen.RoundTrips name.toList rest)
    (hunread : ∀ other ∈ earlier, (other.read (chosen.output name.toList ++ rest)).Fails) :
    nameField.RoundTrips name rest ∧
      nameField.write.Prints name (chosen.output name.toList) := by
  have hstring : Conversion.string.apply name.toList = .ok name :=
    congrArg Except.ok String.ofList_toList
  have htried : ∀ tried ∈ PrintOrder.reverse.triedBefore earlier later,
      (tried.write name.toList []).Refused := by
    intro tried htried
    exact hrefused tried (List.mem_reverse.mp htried)
  constructor
  · apply Grammar.convert_roundTrips rfl hstring
    exact Grammar.choice_roundTrips hsplit htried hchosen hunread
  · exact Writer.convert_prints rfl (Grammar.choice_prints hsplit htried hchosen.1)

/-- A name without quotes is printed in one form, and read back before a comma. -/
theorem nameField_roundTrips {name : String} {rest : Run Char} (hquote : '"' ∉ name.toList)
    (hlength : name.length < UInt64.size) (hrest : rest.head? = some ',') :
    nameField.RoundTrips name rest ∧ nameField.write.Prints name (nameForm name) := by
  by_cases hplain : ',' ∈ name.toList ∨ '\n' ∈ name.toList
  · have hquoted : quotedName.RoundTrips name.toList rest := quotedName_roundTrips hquote hlength
    have hform : quotedName.output name.toList = nameForm name := by
      rw [nameForm, if_pos hplain]
      exact Grammar.output_eq_of_prints (quotedName_prints hquote hlength)
    -- the bare form is tried first in writing, so it must refuse the name
    have hrefused : ∀ tried ∈ [bareName], (tried.write name.toList []).Refused := by
      intro tried htried
      rw [List.mem_singleton.mp htried]
      exact bareName_refused (Or.inr hplain) []
    rw [← hform]
    exact nameField_roundTrips_of_chosen [] rfl hrefused hquoted (by simp)
  · have hbare : bareName.RoundTrips name.toList rest :=
      bareName_roundTrips hquote hplain hlength hrest
    have hprinted : bareName.output name.toList = name.toList :=
      Grammar.output_eq_of_prints
        (Writer.run_prints (all_bare hquote hplain) (CountRange.any_contains hlength))
    have hform : bareName.output name.toList = nameForm name := by
      rw [hprinted, nameForm, if_neg hplain]
    -- the quoted form is tried first in reading, so it must not be able to read the name
    have hunread : ∀ other ∈ [quotedName],
        (other.read (bareName.output name.toList ++ rest)).Fails := by
      intro other hother
      rw [List.mem_singleton.mp hother, hprinted]
      exact quotedName_fails hquote hrest
    rw [← hform]
    exact nameField_roundTrips_of_chosen [quotedName] rfl (by simp) hbare hunread

/-- A name that holds a quote can be written in neither form. -/
theorem nameField_refused {name : String} (hquote : '"' ∈ name.toList) (buffer : Run Char) :
    (nameField.write name buffer).Refused := by
  obtain ⟨quotedCause, hquoted⟩ := quotedName_refused hquote buffer
  obtain ⟨bareCause, hbare⟩ := bareName_refused (Or.inl hquote) buffer
  refine ⟨.exhausted [quotedCause, bareCause], ?_⟩
  have happend : ∀ writer ∈ [quotedName.write, bareName.write], writer.AppendOnly := by
    intro writer hwriter
    rcases List.mem_cons.mp hwriter with rfl | hwriter
    · exact quotedName.write_appendOnly
    · rw [List.mem_singleton.mp hwriter]
      exact bareName.write_appendOnly
  have hcauses : [quotedName.write, bareName.write].map (fun writer =>
      (writer name.toList buffer).result) = [quotedCause, bareCause].map .error := by
    simp [hquoted, hbare]
  exact (Writer.choice_error_iff happend).mpr ⟨_, hcauses, rfl⟩

/-! ## Lines -/

/-- What a line is made of. -/
def parts (user : User) : List (Part Char) :=
  [⟨.integer ⟨true, .bits64⟩, user.id⟩, ⟨.text ",", ()⟩, ⟨nameField, user.name⟩, ⟨.text ",", ()⟩,
    ⟨.boolean, user.admin⟩]

/-- The parts of a user whose name holds no quote are read back before anything. -/
theorem roundTripAll_parts {user : User} (hquote : '"' ∉ user.name.toList)
    (hlength : user.name.length < UInt64.size) (rest : Run Char) :
    Part.RoundTripAll user.parts rest := by
  refine ⟨Grammar.integer_roundTrips (Or.inr ?_), Grammar.literal_roundTrips _ _, ?_,
    Grammar.literal_roundTrips _ _, Grammar.boolean_roundTrips _ _, trivial⟩
  · intro c hc
    rw [← Option.some.inj hc]
    rfl
  · exact (nameField_roundTrips hquote hlength rfl).1

theorem output_parts {user : User} (hquote : '"' ∉ user.name.toList)
    (hlength : user.name.length < UInt64.size) : user.parts.flatMap Part.output = user.form := by
  have hid : (Grammar.integer ⟨true, .bits64⟩).output user.id = Numeral.digits user.id.val :=
    (List.nil_append _).trans (List.flatMap_singleton' _)
  have hfield : nameField.RoundTrips user.name [','] ∧ _ :=
    nameField_roundTrips hquote hlength rfl
  have hname : nameField.output user.name = nameForm user.name :=
    Grammar.output_eq_of_prints hfield.2
  have hcomma : (Grammar.text "," : Grammar Char Unit).output () = [','] := rfl
  have hadmin : (Grammar.boolean : Grammar Char Bool).output user.admin =
      (if user.admin then "true" else "false").toList :=
    (List.nil_append _).trans (List.flatMap_singleton' _)
  simp only [parts, form, List.flatMap_cons, List.flatMap_nil, Part.output_mk, hid, hname,
    hcomma, hadmin, List.append_assoc, List.cons_append, List.nil_append, List.append_nil]

/-- A user whose name holds no quote is printed on a line, and read back before anything. -/
theorem line_roundTrips {user : User} (hquote : '"' ∉ user.name.toList)
    (hlength : user.name.length < UInt64.size) (rest : Run Char) :
    line.RoundTrips user rest ∧ line.output user = form user := by
  have hparts := roundTripAll_parts hquote hlength rest
  constructor
  · apply Grammar.convert_roundTrips (by rfl) (by rfl)
    exact Grammar.sequence_roundTrips hparts
  · rw [← output_parts hquote hlength]
    apply Grammar.output_eq_of_prints
    apply Writer.convert_prints (by rfl)
    exact Slots.prints_of_roundTripAll _ _ rest hparts

/-- A user whose name holds a quote cannot be written. -/
theorem line_refused {user : User} (hquote : '"' ∈ user.name.toList) :
    (line.write user []).result ≠ .ok () := by
  intro haccepted
  have hwrite : line.write user [] = Part.writeAll user.parts [] := rfl
  rw [hwrite] at haccepted
  have hname := Part.accepted_of_writeAll haccepted ⟨nameField, user.name⟩ (by simp [parts])
  obtain ⟨cause, hcause⟩ := nameField_refused hquote []
  exact absurd (hcause.symm.trans hname) (by simp)

/-! ## Sheets -/

/-- Users whose names hold no quote are printed line by line, and read back up to the end. -/
theorem lines_roundTrips {users : List User} (hquote : ∀ user ∈ users, '"' ∉ user.name.toList)
    (hcount : users.length < UInt64.size)
    (hlength : ∀ user ∈ users, user.name.length < UInt64.size) :
    lines.RoundTrips users [] ∧ lines.output users = sheet users := by
  have hline (user : User) (huser : user ∈ users) (rest : Run Char) :
      line.RoundTrips user rest ∧ line.output user = form user :=
    line_roundTrips (hquote user huser) (hlength user huser) rest
  have hiterations : ∀ part ∈ (Part.iterations line (.text "\n") true users).flatten,
      ∀ after, part.grammar.RoundTrips part.value after := by
    intro part hpart after
    rcases Part.eq_or_exists_of_mem_iterations hpart with rfl | ⟨user, huser, rfl⟩
    · exact Grammar.literal_roundTrips _ after
    · exact (hline user huser after).1
  have hparts : Part.RoundTripAll ((Part.iterations line (.text "\n") true users).flatten ++
      [⟨.endOfInput, ()⟩]) [] :=
    Part.roundTripAll_append.mpr
      ⟨Part.roundTripAll_of_forall hiterations, Grammar.endOfInput_roundTrips, trivial⟩
  have hprogress : ∀ parts ∈ Part.iterations line (.text "\n") true users,
      parts.flatMap Part.output ≠ [] := by
    apply Part.flatMap_output_ne_nil
    intro user huser
    rw [(hline user huser []).2]
    simp [form]
  constructor
  · exact Grammar.repetition_roundTrips (CountRange.any_contains hcount) hparts hprogress
      (Reader.stops_nil _ _ _ _)
  · have hprints := Grammar.repetition_prints (CountRange.any_contains hcount) hparts hprogress
    calc
      lines.output users
          = (Part.iterations line (.text "\n") true users).flatten.flatMap Part.output ++ [] :=
        Grammar.output_eq_of_prints hprints
      _ = List.intercalate ['\n'] (users.map line.output) := by
        rw [List.append_nil, Part.flatMap_output_iterations]
        rfl
      _ = sheet users := by
        rw [sheet, List.map_congr_left fun user huser => (hline user huser []).2]

/-- Users one of whose names holds a quote cannot be written. -/
theorem not_mem_of_lines_accepted {users : List User}
    (h : (lines.write users []).result = .ok ()) : ∀ user ∈ users, '"' ∉ user.name.toList := by
  intro user huser hquote
  obtain ⟨before, after, helement⟩ := Writer.exists_leaves_of_repetition ⟨h, rfl⟩ user huser
  apply line_refused hquote
  have happend := line.write_appendOnly user before
  rw [← helement.1, happend, Writing.after_result]

/-- Users can be encoded just if no name holds a quote. What they are encoded as is their
sheet, with names in quotes where they hold a comma or a newline, and it is decoded to the
same users. Counts and lengths are those of lists and texts that a machine can hold. -/
theorem encode_lines_iff_and_decodeExact_sheet {users : List User}
    (hcount : users.length < UInt64.size)
    (hlength : ∀ user ∈ users, user.name.length < UInt64.size) :
    ((∃ text, (lines.encode users).result = .ok text) ↔
      ∀ user ∈ users, '"' ∉ user.name.toList) ∧
    ∀ text, (lines.encode users).result = .ok text →
      (lines.decodeExact text).result = .ok users ∧ text = sheet users := by
  constructor
  · constructor
    · rintro ⟨text, htext⟩
      exact not_mem_of_lines_accepted (Grammar.encode_ok_iff.mp htext).1
    · intro hquote
      have hlines := lines_roundTrips hquote hcount hlength
      exact ⟨_, Grammar.encode_ok_iff.mpr ⟨hlines.1.1, rfl⟩⟩
  · intro text htext
    obtain ⟨haccepted, rfl⟩ := Grammar.encode_ok_iff.mp htext
    have hquote := not_mem_of_lines_accepted haccepted
    obtain ⟨hlines, hsheet⟩ := lines_roundTrips hquote hcount hlength
    exact ⟨Grammar.decodeExact_output hlines, hsheet⟩

/-- Someone with a comma in the name. -/
def ada : User := ⟨⟨-7, by decide⟩, "Ada, Countess", true⟩

/-- Someone without. -/
def bob : User := ⟨⟨12, by decide⟩, "Bob", false⟩

theorem encode_lines_iff_and_decodeExact_sheet_pair : [ada, bob].length < UInt64.size ∧
    (∀ user ∈ [ada, bob], user.name.length < UInt64.size) ∧
    (lines.encode [ada, bob]).result = .ok "-7,\"Ada, Countess\",true\n12,Bob,false".toList ∧
    (lines.decodeExact "-7,\"Ada, Countess\",true\n12,Bob,false".toList).result =
      .ok [ada, bob] := by
  have hcount : [ada, bob].length < UInt64.size := by decide
  have hlength : ∀ user ∈ [ada, bob], user.name.length < UInt64.size := by decide
  have hquote : ∀ user ∈ [ada, bob], '"' ∉ user.name.toList := by decide
  obtain ⟨hencodes, hdecodes⟩ := encode_lines_iff_and_decodeExact_sheet hcount hlength
  obtain ⟨text, htext⟩ := hencodes.mpr hquote
  obtain ⟨hdecoded, hsheet⟩ := hdecodes text htext
  have hprinted : text = "-7,\"Ada, Countess\",true\n12,Bob,false".toList := by
    rw [hsheet]
    decide
  rw [← hprinted]
  exact ⟨hcount, hlength, htext, hdecoded⟩

end User

end InvertibleGrammar
