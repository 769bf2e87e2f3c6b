import InvertibleGrammar.Proofs.SeparatedLists
import InvertibleGrammar.Proofs.UserSheets

/-!
# Sheets with optional spaces

Where a space may follow each comma, none is written, so users are printed on the same
sheet as without the spaces. In reading the space comes first: a bare name that starts
with one loses it to the space that may be there. A name in quotes keeps it, since the
quote stands in between.
-/

namespace InvertibleGrammar

namespace User

/-! ## Names that lose a space -/

/-- The name starts with a space and is printed without quotes. -/
def LosesSpace (name : String) : Prop :=
  name.toList.head? = some ' ' ∧ ',' ∉ name.toList ∧ '\n' ∉ name.toList

instance (name : String) : Decidable (LosesSpace name) := inferInstanceAs (Decidable (_ ∧ _))

/-- The name as it is read behind a space that may be there: without the first of its
spaces, if it loses that one. -/
def rereadName (name : String) : String :=
  if LosesSpace name then String.ofList name.toList.tail else name

/-- The user with the name as it is read. -/
def reread (user : User) : User := { user with name := rereadName user.name }

/-- Nothing but the start of a name is ever missing. -/
theorem rereadName_suffix (name : String) : (rereadName name).toList <:+ name.toList := by
  unfold rereadName
  split
  · rw [String.toList_ofList]
    exact List.tail_suffix _
  · exact List.suffix_rfl

theorem rereadName_eq_iff {name : String} : rereadName name = name ↔ ¬ LosesSpace name := by
  constructor
  · intro heq h
    obtain ⟨others, hname⟩ := List.head?_eq_some_iff.mp h.1
    have hothers : others = name.toList := by
      rw [← heq, rereadName, if_pos h, String.toList_ofList, hname, List.tail_cons]
    rw [hname] at hothers
    exact List.cons_ne_self _ _ hothers.symm
  · intro h
    rw [rereadName, if_neg h]

theorem reread_eq_iff {user : User} : reread user = user ↔ ¬ LosesSpace user.name := by
  rw [← rereadName_eq_iff]
  constructor
  · intro h
    exact congrArg User.name h
  · intro h
    rw [reread, h]

/-- A name that loses a space is printed with that space in front of what is read. -/
theorem nameForm_of_losesSpace {name : String} (h : LosesSpace name) :
    nameForm name = ' ' :: nameForm (rereadName name) := by
  have ⟨hspace, hcomma, hnewline⟩ := h
  obtain ⟨others, hname⟩ := List.head?_eq_some_iff.mp hspace
  have hreread : (rereadName name).toList = others := by
    rw [rereadName, if_pos h, String.toList_ofList, hname, List.tail_cons]
  rw [hname, List.mem_cons, not_or] at hcomma hnewline
  simp [nameForm, hreread, hname, hcomma.2, hnewline.2]

/-- A name that loses no space is printed so that no space is seen before the comma. -/
theorem head?_nameForm_ne {name : String} (h : ¬ LosesSpace name) (rest : Run Char) :
    (nameForm name ++ ',' :: rest).head? ≠ some ' ' := by
  by_cases hplain : ',' ∈ name.toList ∨ '\n' ∈ name.toList
  · rw [nameForm, if_pos hplain]
    simp
  · rw [nameForm, if_neg hplain]
    cases hname : name.toList with
    | nil => simp
    | cons c others =>
        intro hspace
        apply h
        refine ⟨?_, not_or.mp hplain⟩
        rw [hname]
        exact hspace

/-! ## The space -/

theorem space_prints : space.write.Prints () [] := fun _ => ⟨rfl, rfl⟩

/-- A space is read where there is one. -/
theorem space_yields_of_space (rest : Run Char) : (space.read (' ' :: rest)).Yields () rest :=
  Reader.choice_yields_iff.mpr
    ⟨[], _, _, rfl, by simp, Reader.literal_yields [' '] rest⟩

/-- Where there is none, nothing is. -/
theorem space_yields_of_no_space {input : Run Char} (h : input.head? ≠ some ' ') :
    (space.read input).Yields () input := by
  refine Reader.choice_yields_iff.mpr
    ⟨[(Grammar.text " ").read], _, [], rfl, ?_, Reader.literal_yields [] input⟩
  intro reader hreader
  rw [List.mem_singleton.mp hreader]
  refine Reader.words_fails_iff.mpr ?_
  rintro entry hentry ⟨after, hafter⟩
  rw [List.mem_singleton.mp hentry] at hafter
  exact h (hafter ▸ rfl)

/-- Behind the space stands the form of the name that is read. -/
theorem space_yields_nameForm (name : String) (rest : Run Char) :
    (space.read (nameForm name ++ ',' :: rest)).Yields ()
      (nameForm (rereadName name) ++ ',' :: rest) := by
  by_cases h : LosesSpace name
  · rw [nameForm_of_losesSpace h]
    exact space_yields_of_space _
  · rw [rereadName, if_neg h]
    exact space_yields_of_no_space (head?_nameForm_ne h rest)

/-! ## Lines -/

/-- What a line with optional spaces is made of. -/
def spacedParts (user : User) : List (Part Char) :=
  [⟨.integer ⟨true, .bits64⟩, user.id⟩, ⟨.text ",", ()⟩, ⟨space, ()⟩, ⟨nameField, user.name⟩,
    ⟨.text ",", ()⟩, ⟨space, ()⟩, ⟨.boolean, user.admin⟩]

/-- A name can be written just if it holds no quote. -/
theorem nameField_accepted_iff {name : String} (hlength : name.length < UInt64.size) :
    Part.Accepted ⟨nameField, name⟩ ↔ '"' ∉ name.toList := by
  constructor
  · intro h hquote
    obtain ⟨cause, hcause⟩ := nameField_refused hquote []
    cases hcause.symm.trans h
  · intro hquote
    have hfield : nameField.RoundTrips name [','] ∧ _ := nameField_roundTrips hquote hlength rfl
    exact hfield.1.1

/-- Only the name can keep a line from being written. -/
theorem spacedParts_accepted_iff {user : User} (hlength : user.name.length < UInt64.size) :
    (∀ part ∈ user.spacedParts, Part.Accepted part) ↔ '"' ∉ user.name.toList := by
  have hid : Part.Accepted (⟨.integer ⟨true, .bits64⟩, user.id⟩ : Part Char) := rfl
  have hcomma : Part.Accepted (⟨.text ",", ()⟩ : Part Char) := rfl
  have hspace : Part.Accepted ⟨space, ()⟩ := (space_prints []).1
  have hadmin : Part.Accepted (⟨.boolean, user.admin⟩ : Part Char) := rfl
  rw [← nameField_accepted_iff hlength]
  simp [spacedParts, hid, hcomma, hspace, hadmin]

theorem output_spacedParts (user : User) :
    user.spacedParts.flatMap Part.output = user.parts.flatMap Part.output := rfl

theorem spacedLine_accepted_iff {user : User} (hlength : user.name.length < UInt64.size) :
    Part.Accepted ⟨spacedLine, user⟩ ↔ '"' ∉ user.name.toList := by
  have hwrite : spacedLine.write user [] = Part.writeAll user.spacedParts [] := rfl
  rw [← spacedParts_accepted_iff hlength]
  constructor
  · intro h
    rw [Part.Accepted, Part.write, hwrite] at h
    exact Part.accepted_of_writeAll h
  · intro h
    exact (Part.writeAll_of_accepted h []).1

/-- No space is written, so the line is the same as without optional spaces. -/
theorem spacedLine_output {user : User} (hquote : '"' ∉ user.name.toList)
    (hlength : user.name.length < UInt64.size) : spacedLine.output user = user.form := by
  have haccepted := (spacedParts_accepted_iff hlength).mpr hquote
  calc
    spacedLine.output user = [] ++ user.spacedParts.flatMap Part.output :=
      (Part.writeAll_of_accepted haccepted []).2
    _ = user.form := by
      rw [List.nil_append, output_spacedParts, output_parts hquote hlength]

/-- Behind the space, the name that is left is read up to the comma. -/
theorem nameField_yields_reread {name : String} (hquote : '"' ∉ name.toList)
    (hlength : name.length < UInt64.size) (rest : Run Char) :
    (nameField.read (nameForm (rereadName name) ++ ',' :: rest)).Yields (rereadName name)
      (',' :: rest) := by
  have hsuffix := rereadName_suffix name
  have hshorter : (rereadName name).length < UInt64.size := by
    have hle := hsuffix.length_le
    rw [String.length_toList, String.length_toList] at hle
    exact Nat.lt_of_le_of_lt hle hlength
  obtain ⟨hfield, hprints⟩ : nameField.RoundTrips _ (',' :: rest) ∧ _ :=
    nameField_roundTrips (fun hmem => hquote (hsuffix.mem hmem)) hshorter rfl
  rw [← Grammar.output_eq_of_prints hprints]
  exact hfield.2

/-- The line of a user around the form of the name. -/
theorem form_eq_outputs (user : User) :
    user.form = (Grammar.integer ⟨true, .bits64⟩).output user.id ++
      ',' :: nameForm user.name ++ ',' :: Grammar.boolean.output user.admin := by
  have hid : (Grammar.integer ⟨true, .bits64⟩).output user.id = Numeral.digits user.id.val :=
    (Grammar.integer_output user.id).trans (List.flatMap_singleton' _)
  have hadmin : Grammar.boolean.output user.admin =
      (if user.admin then "true" else "false").toList :=
    (List.nil_append _).trans (List.flatMap_singleton' _)
  rw [form, hid, hadmin]

/-- No space stands in front of a role. -/
theorem space_yields_role (admin : Bool) (rest : Run Char) :
    (space.read (Grammar.boolean.output admin ++ rest)).Yields ()
      (Grammar.boolean.output admin ++ rest) := by
  apply space_yields_of_no_space
  cases admin <;> exact fun h => absurd (Option.some.inj h) (by decide)

/-- From its line, before anything, a user is read with the name that is left behind the
space. -/
theorem spacedLine_yields {user : User} (hquote : '"' ∉ user.name.toList)
    (hlength : user.name.length < UInt64.size) (rest : Run Char) :
    (spacedLine.read (user.form ++ rest)).Yields (reread user) rest := by
  have hid (after : Run Char) : ((Grammar.integer ⟨true, .bits64⟩).read
      ((Grammar.integer ⟨true, .bits64⟩).output user.id ++ ',' :: after)).Yields user.id
        (',' :: after) := by
    refine (Grammar.integer_roundTrips (Or.inr fun c hc => ?_)).2
    rw [← Option.some.inj hc]
    rfl
  have hcomma (after : Run Char) : ((Grammar.text ",").read (',' :: after)).Yields () after :=
    Reader.literal_yields [','] after
  have hadmin := (Grammar.boolean_roundTrips user.admin rest).2
  rw [form_eq_outputs, List.append_assoc, List.append_assoc, List.cons_append, List.cons_append]
  refine Reader.convert_yields_iff.mpr ⟨(user.id, rereadName user.name, user.admin), ?_, rfl⟩
  refine Reader.keep_yields_iff.mpr ⟨_, hid _, ?_⟩
  refine Reader.skip_yields_iff.mpr ⟨_, hcomma _, ?_⟩
  refine Reader.skip_yields_iff.mpr ⟨_, space_yields_nameForm _ _, ?_⟩
  refine Reader.keep_yields_iff.mpr ⟨_, nameField_yields_reread hquote hlength _, ?_⟩
  refine Reader.skip_yields_iff.mpr ⟨_, hcomma _, ?_⟩
  refine Reader.skip_yields_iff.mpr ⟨_, space_yields_role _ _, ?_⟩
  exact Reader.keep_yields_iff.mpr ⟨_, hadmin, Reader.empty_yields_iff.mpr rfl⟩

/-! ## Sheets -/

/-- Users line by line can be written just if no name holds a quote. -/
theorem spacedLines_accepted_iff {users : List User} (hcount : users.length < UInt64.size)
    (hlength : ∀ user ∈ users, user.name.length < UInt64.size) :
    (spacedLines.write users []).result = .ok () ↔ ∀ user ∈ users, '"' ∉ user.name.toList := by
  have hterminator : Part.Accepted (⟨.endOfInput, ()⟩ : Part Char) := rfl
  have hlines : (∀ user ∈ users, Part.Accepted ⟨spacedLine, user⟩) ↔
      ∀ user ∈ users, '"' ∉ user.name.toList :=
    forall₂_congr fun user huser => spacedLine_accepted_iff (hlength user huser)
  rw [← hlines]
  refine Grammar.repetition_accepted_iff_of_prints hcount hterminator fun user huser h => ?_
  have hquote := (spacedLine_accepted_iff (hlength user huser)).mp h
  rw [spacedLine_output hquote (hlength user huser)]
  simp [form]

/-- Users can be encoded just if no name holds a quote. What they are encoded as is the sheet
without optional spaces. It is always decoded, with each name left as it was or without the
space that it loses. So just those users are decoded again none of whose names starts with a
space and holds neither a comma nor a newline. -/
theorem encode_spacedLines_iff_and_decodeExact_reread {users : List User}
    (hcount : users.length < UInt64.size)
    (hlength : ∀ user ∈ users, user.name.length < UInt64.size) :
    ((∃ text, (spacedLines.encode users).result = .ok text) ↔
      ∀ user ∈ users, '"' ∉ user.name.toList) ∧
    ∀ text, (spacedLines.encode users).result = .ok text →
      text = sheet users ∧
      (spacedLines.decodeExact text).result = .ok (users.map reread) ∧
      ((spacedLines.decodeExact text).result = .ok users ↔
        ∀ user ∈ users, ¬ LosesSpace user.name) := by
  have haccepted := spacedLines_accepted_iff hcount hlength
  constructor
  · exact Grammar.exists_encode_ok_iff.trans haccepted
  · intro text htext
    obtain ⟨hwritten, rfl⟩ := Grammar.encode_ok_iff.mp htext
    have hquote := haccepted.mp hwritten
    have houtput (user : User) (huser : user ∈ users) : spacedLine.output user = form user :=
      spacedLine_output (hquote user huser) (hlength user huser)
    have hread : Reader.ReadsForms spacedLine.read ['\n'] spacedLine.output reread users := by
      intro user huser rest _
      rw [houtput user huser]
      exact spacedLine_yields (hquote user huser) (hlength user huser) rest
    have hdecoded : (spacedLines.decodeExact (spacedLines.output users)).result =
        .ok (users.map reread) :=
      Grammar.decodeExact_repetition hcount hwritten hread Grammar.endOfInput_roundTrips rfl
    refine ⟨?_, hdecoded, ?_⟩
    · calc
        spacedLines.output users
            = List.intercalate ['\n'] (users.map spacedLine.output) ++ [] :=
          Grammar.repetition_output hwritten
        _ = sheet users := by rw [List.append_nil, sheet, List.map_congr_left houtput]
    · calc
        (spacedLines.decodeExact (spacedLines.output users)).result = .ok users
            ↔ users.map reread = users.map fun user => user := by
          rw [hdecoded, List.map_id', Except.ok.injEq]
        _ ↔ ∀ user ∈ users, ¬ LosesSpace user.name :=
          List.map_inj_left.trans (forall₂_congr fun _ _ => reread_eq_iff)

/-- Someone with two spaces in front of the name. -/
def eve : User := ⟨⟨3, by decide⟩, "  Eve", true⟩

/-- Someone with a space in front of the name and a comma in it. -/
def joe : User := ⟨⟨4, by decide⟩, " Joe, Esq.", false⟩

/-- One space of two is lost, and the one between quotes is kept. -/
theorem encode_spacedLines_iff_and_decodeExact_reread_pair : [eve, joe].length < UInt64.size ∧
    (∀ user ∈ [eve, joe], user.name.length < UInt64.size) ∧
    (spacedLines.encode [eve, joe]).result = .ok "3,  Eve,true\n4,\" Joe, Esq.\",false".toList ∧
    (spacedLines.decodeExact "3,  Eve,true\n4,\" Joe, Esq.\",false".toList).result =
      .ok [{ eve with name := " Eve" }, joe] ∧
    (spacedLines.decodeExact "3,  Eve,true\n4,\" Joe, Esq.\",false".toList).result ≠
      .ok [eve, joe] := by
  have hcount : [eve, joe].length < UInt64.size := by decide
  have hlength : ∀ user ∈ [eve, joe], user.name.length < UInt64.size := by decide
  have hquote : ∀ user ∈ [eve, joe], '"' ∉ user.name.toList := by decide
  obtain ⟨hencodes, hdecodes⟩ := encode_spacedLines_iff_and_decodeExact_reread hcount hlength
  obtain ⟨text, htext⟩ := hencodes.mpr hquote
  obtain ⟨hsheet, hdecoded, hsame⟩ := hdecodes text htext
  have hprinted : text = "3,  Eve,true\n4,\" Joe, Esq.\",false".toList := by
    rw [hsheet]
    decide
  have hreread : [eve, joe].map reread = [{ eve with name := " Eve" }, joe] := by decide
  rw [← hprinted, ← hreread]
  refine ⟨hcount, hlength, htext, hdecoded, ?_⟩
  intro h
  exact hsame.mp h eve (by simp) (by decide)

end User

end InvertibleGrammar
