import InvertibleGrammar.Proofs.CharacterBytes

/-!
# Bytes that are no text

Bytes are those of a text if they are the sequences of its characters, one after the
other. Where they are not, they go on as a text for a while and then begin with no
character: there is no lead byte, too few bytes follow it, or what it spells has a shorter
sequence, is half of a surrogate pair or lies beyond the last character. These are all the
ways to fail, and none of them is ever taken for a text.
-/

namespace InvertibleGrammar.Utf8

/-- The bytes of a text, by its characters: each has the shortest of the sequences that
spell its number. -/
inductive Writes : Run Char → Run UInt8 → Prop where
  | nil : Writes [] []
  | cons {c : Char} {first : UInt8} {text : Run Char} {followers rest : Run UInt8}
      (hspells : Spells first followers c.toNat) (hshortest : followers.length = shortest c.toNat)
      (hrest : Writes text rest) : Writes (c :: text) (first :: (followers ++ rest))

/-- Bytes that begin with no character, by what is wrong with them. -/
inductive IllFormed : Run UInt8 → Prop where
  /-- The first byte leads no sequence. -/
  | noLead {first : UInt8} {rest : Run UInt8} (h : lead? first = none) : IllFormed (first :: rest)
  /-- Fewer bytes carry on than the first byte calls for. -/
  | truncated {first : UInt8} {rest : Run UInt8} {count bits : Nat}
      (h : lead? first = some (count, bits))
      (hshort : (rest.splitWhile count isContinuation).1.length < count) : IllFormed (first :: rest)
  /-- A shorter sequence spells the same number. -/
  | overlong {first : UInt8} {followers rest : Run UInt8} {n : Nat}
      (h : Spells first followers n) (hlong : shortest n < followers.length) :
      IllFormed (first :: (followers ++ rest))
  /-- The number is that of half of a surrogate pair. -/
  | surrogate {first : UInt8} {followers rest : Run UInt8} {n : Nat}
      (h : Spells first followers n) (hlow : 0xD800 ≤ n) (hhigh : n ≤ 0xDFFF) :
      IllFormed (first :: (followers ++ rest))
  /-- The number is greater than that of any character. -/
  | outOfRange {first : UInt8} {followers rest : Run UInt8} {n : Nat}
      (h : Spells first followers n) (hgreat : 0x10FFFF < n) :
      IllFormed (first :: (followers ++ rest))

/-! ## The first character -/

/-- Bytes that begin with a sequence begin with no other of that lead byte. -/
theorem Spells.unique_of_append {first : UInt8} {followers followers' rest rest' : Run UInt8}
    {n n' : Nat} (h : Spells first followers n) (h' : Spells first followers' n')
    (happend : followers ++ rest = followers' ++ rest') : followers = followers' ∧ n = n' := by
  obtain ⟨bits, hlead, _, hnumber⟩ := h
  obtain ⟨bits', hlead', _, hnumber'⟩ := h'
  obtain ⟨hlength, rfl⟩ := Prod.mk.inj (Option.some.inj (hlead.symm.trans hlead'))
  obtain ⟨rfl, _⟩ := List.append_inj happend hlength
  exact ⟨rfl, hnumber.symm.trans hnumber'⟩

/-- A sequence with which the bytes of a character begin is the shortest one for its number. -/
theorem Spells.eq_of_begins {first : UInt8} {followers rest after : Run UInt8} {n : Nat} {c : Char}
    (h : Spells first followers n)
    (hbegins : first :: (followers ++ rest) = String.utf8EncodeChar c ++ after) :
    n = c.toNat ∧ followers.length = shortest n := by
  obtain ⟨lead, others, hbytes, hspells, hshortest⟩ := utf8EncodeChar_spells c
  rw [hbytes, List.cons_append] at hbegins
  obtain ⟨rfl, happend⟩ := List.cons.inj hbegins
  obtain ⟨rfl, rfl⟩ := h.unique_of_append hspells happend
  exact ⟨rfl, hshortest⟩

/-- Ill-formed bytes do not begin with a character. -/
theorem IllFormed.ne_utf8EncodeChar_append {bytes : Run UInt8} (h : IllFormed bytes) (c : Char)
    (after : Run UInt8) : bytes ≠ String.utf8EncodeChar c ++ after := by
  obtain ⟨lead, others, hbytes, ⟨bits, hlead, hcontinue, _⟩, _⟩ := utf8EncodeChar_spells c
  have hvalid : c.toNat < 0xD800 ∨ 0xDFFF < c.toNat ∧ c.toNat < 0x110000 := c.valid
  intro hbegins
  cases h with
  | noLead hnone =>
      rw [hbytes, List.cons_append] at hbegins
      obtain ⟨rfl, _⟩ := List.cons.inj hbegins
      cases hnone.symm.trans hlead
  | truncated hcalls hshort =>
      rw [hbytes, List.cons_append] at hbegins
      obtain ⟨rfl, rfl⟩ := List.cons.inj hbegins
      obtain ⟨hcount, _⟩ := Prod.mk.inj (Option.some.inj (hcalls.symm.trans hlead))
      have hmatched : Run.Matched isContinuation others.length others after :=
        ⟨hcontinue, Nat.le_refl _, Or.inl rfl⟩
      rw [hcount, hmatched.splitWhile_eq] at hshort
      exact absurd hshort (Nat.lt_irrefl _)
  | overlong hspells hlong =>
      obtain ⟨_, hshortest⟩ := hspells.eq_of_begins hbegins
      omega
  | surrogate hspells hlow hhigh =>
      obtain ⟨hnumber, _⟩ := hspells.eq_of_begins hbegins
      omega
  | outOfRange hspells hgreat =>
      obtain ⟨hnumber, _⟩ := hspells.eq_of_begins hbegins
      omega

/-- A whole sequence is that of a character unless something is wrong with its number. -/
theorem Spells.illFormed_or_exists {first : UInt8} {followers : Run UInt8} {n : Nat}
    (h : Spells first followers n) (rest : Run UInt8) :
    IllFormed (first :: (followers ++ rest)) ∨
      ∃ c, String.utf8EncodeChar c = first :: followers := by
  by_cases hlong : shortest n < followers.length
  · exact Or.inl (.overlong h hlong)
  by_cases hsurrogate : 0xD800 ≤ n ∧ n ≤ 0xDFFF
  · exact Or.inl (.surrogate h hsurrogate.1 hsurrogate.2)
  by_cases hgreat : 0x10FFFF < n
  · exact Or.inl (.outOfRange h hgreat)
  · have hvalid : n.isValidChar := by
      rw [Nat.isValidChar]
      omega
    obtain ⟨c, rfl⟩ : ∃ c : Char, c.toNat = n := ⟨.ofNatAux n hvalid, rfl⟩
    have hshortest := h.shortest_le
    exact Or.inr ⟨c, h.eq_utf8EncodeChar (by omega)⟩

/-- Bytes begin with a character unless they are ill-formed. -/
theorem illFormed_or_exists_character (first : UInt8) (rest : Run UInt8) :
    IllFormed (first :: rest) ∨
      ∃ c after, first :: rest = String.utf8EncodeChar c ++ after := by
  cases hlead : lead? first with
  | none => exact Or.inl (.noLead hlead)
  | some said =>
      obtain ⟨count, bits⟩ := said
      rcases hsplit : rest.splitWhile count isContinuation with ⟨followers, after⟩
      have hmatched := Run.splitWhile_matched count isContinuation rest
      have hrest := Run.splitWhile_append count isContinuation rest
      rw [hsplit] at hmatched hrest
      rcases Nat.lt_or_eq_of_le hmatched.length_le with hshort | henough
      · exact Or.inl (.truncated hlead (by rwa [hsplit]))
      · subst hrest henough
        have hspells : Spells first followers (number bits followers) :=
          ⟨bits, hlead, hmatched.accepted, rfl⟩
        rcases hspells.illFormed_or_exists after with hfault | ⟨c, hc⟩
        · exact Or.inl hfault
        · exact Or.inr ⟨c, after, by rw [hc, List.cons_append]⟩

/-! ## Whole texts -/

theorem writes_iff {text : Run Char} {bytes : Run UInt8} :
    Writes text bytes ↔ encode text = bytes := by
  constructor
  · intro h
    induction h with
    | nil => rfl
    | cons hspells hshortest _ ih =>
        rw [encode_cons, hspells.eq_utf8EncodeChar hshortest, ih, List.cons_append]
  · rintro rfl
    induction text with
    | nil => exact .nil
    | cons c text ih =>
        obtain ⟨first, followers, hbytes, hspells, hlength⟩ := utf8EncodeChar_spells c
        rw [encode_cons, hbytes, List.cons_append]
        exact .cons hspells hlength ih

/-- Bytes go on as a text to their end or to where they are ill-formed. -/
theorem exists_text_or_illFormed (bytes : Run UInt8) :
    (∃ text, encode text = bytes) ∨
      ∃ text fault, bytes = encode text ++ fault ∧ IllFormed fault := by
  match bytes with
  | [] => exact Or.inl ⟨[], rfl⟩
  | first :: rest =>
      rcases illFormed_or_exists_character first rest with hfault | ⟨c, after, hbytes⟩
      · exact Or.inr ⟨[], first :: rest, rfl, hfault⟩
      · have hshorter : after.length < (first :: rest).length := by
          have hpositive := List.length_pos_iff.mpr (utf8EncodeChar_ne_nil c)
          rw [hbytes, List.length_append]
          omega
        rw [hbytes]
        rcases exists_text_or_illFormed after with ⟨text, rfl⟩ | ⟨text, fault, rfl, hfault⟩
        · exact Or.inl ⟨c :: text, encode_cons c text⟩
        · exact Or.inr ⟨c :: text, fault, by rw [encode_cons, List.append_assoc], hfault⟩
termination_by bytes.length
decreasing_by exact hshorter

/-- No text goes on with ill-formed bytes. -/
theorem IllFormed.encode_ne {fault : Run UInt8} (h : IllFormed fault) (text whole : Run Char) :
    encode whole ≠ encode text ++ fault := by
  intro hwhole
  -- One text leads the other, so the ill-formed bytes would be those of the characters left.
  obtain ⟨rest, rfl⟩ := encode_prefix_iff.mp ⟨fault, hwhole.symm⟩
  rw [encode_append, List.append_cancel_left_eq] at hwhole
  cases rest with
  | nil =>
      rw [← hwhole] at h
      cases h
  | cons c rest =>
      rw [encode_cons] at hwhole
      exact h.ne_utf8EncodeChar_append c (encode rest) hwhole.symm

/-- Bytes are those of no text if they are ill-formed somewhere. -/
theorem decode?_eq_none_iff {bytes : Run UInt8} :
    decode? bytes = none ↔ ∃ text fault, bytes = encode text ++ fault ∧ IllFormed fault := by
  constructor
  · intro hnone
    refine (exists_text_or_illFormed bytes).resolve_left ?_
    rintro ⟨text, htext⟩
    cases hnone.symm.trans (decode?_eq_some_iff.mpr htext)
  · rintro ⟨text, fault, rfl, hfault⟩
    cases hdecode : decode? (encode text ++ fault) with
    | none => rfl
    | some whole => exact absurd (decode?_eq_some_iff.mp hdecode) (hfault.encode_ne text whole)

/-! ## Conversions -/

theorem decode_eq_ok_iff {bytes : Run UInt8} {text : Run Char} :
    decode bytes = .ok text ↔ encode text = bytes := by
  rw [← decode?_eq_some_iff, decode]
  cases decode? bytes with
  | none => simp
  | some found => simp

theorem decode_eq_error_iff {bytes : Run UInt8} {failure : Failure} :
    decode bytes = .error failure ↔
      failure = .conversion "invalid utf-8" ∧ decode? bytes = none := by
  rw [decode]
  cases decode? bytes with
  | none => simp [eq_comm]
  | some found => simp

theorem utf8_apply_eq_ok_iff {bytes : Run UInt8} {string : String} :
    Conversion.utf8.apply bytes = .ok string ↔ decode bytes = .ok string.toList := by
  change (decode bytes).map String.ofList = .ok string ↔ _
  cases decode bytes with
  | error failure => simp [Except.map]
  | ok text =>
      change (.ok (String.ofList text) : Except Failure String) = .ok string ↔ _
      rw [Except.ok.injEq, Except.ok.injEq]
      constructor
      · rintro rfl
        exact String.toList_ofList.symm
      · rintro rfl
        exact String.ofList_toList

theorem utf8_apply_eq_error_iff {bytes : Run UInt8} {failure : Failure} :
    Conversion.utf8.apply bytes = .error failure ↔ decode bytes = .error failure := by
  change (decode bytes).map String.ofList = .error failure ↔ _
  cases decode bytes with
  | error cause => simp [Except.map]
  | ok text => simp [Except.map]

theorem utf8_unapply_eq_ok_iff {bytes : Run UInt8} {string : String} :
    Conversion.utf8.unapply string = .ok bytes ↔ encode string.toList = bytes := by
  change (.ok (encode string.toList) : Except Failure (Run UInt8)) = .ok bytes ↔ _
  rw [Except.ok.injEq]

/-- The bytes of the characters of a string are those that it is kept in. -/
theorem encode_toList_eq_iff {bytes : Run UInt8} {string : String} :
    encode string.toList = bytes ↔ string.toByteArray = bytes.toByteArray := by
  have hkept : (encode string.toList).toByteArray = string.toByteArray := String.utf8Encode_toList
  rw [← hkept]
  constructor
  · rintro rfl
    rfl
  · intro h
    have hlist := congrArg (fun array => array.data.toList) h
    simpa only [List.data_toByteArray] using hlist

/-- Bytes are read as a text exactly if they are written as its characters are, and refused
for being no UTF-8 exactly if they go on as a text up to ill-formed bytes. The conversion to
a string accepts and refuses the same bytes for the same cause, and gives the string that is
kept in them. Each direction of the conversion undoes the other, and every string can be
written by either conversion and read again. -/
theorem texts_and_bytes_convert (bytes : Run UInt8) (string : String) :
    (∀ text, decode bytes = .ok text ↔ Writes text bytes) ∧
    (∀ failure, decode bytes = .error failure ↔
      failure = .conversion "invalid utf-8" ∧
        ∃ text whole fault, Writes text whole ∧ bytes = whole ++ fault ∧ IllFormed fault) ∧
    (Conversion.utf8.apply bytes = .ok string ↔ decode bytes = .ok string.toList) ∧
    (∀ failure, Conversion.utf8.apply bytes = .error failure ↔ decode bytes = .error failure) ∧
    (Conversion.utf8.apply bytes = .ok string ↔ string.toByteArray = bytes.toByteArray) ∧
    (Conversion.utf8.apply bytes = .ok string ↔ Conversion.utf8.unapply string = .ok bytes) ∧
    (∃ written, Conversion.utf8.unapply string = .ok written ∧
      Conversion.utf8.apply written = .ok string) ∧
    ∃ run, Conversion.string.unapply string = .ok run ∧
      Conversion.string.apply run = .ok string := by
  have hok : ∀ written, Conversion.utf8.apply written = .ok string ↔
      encode string.toList = written := fun written =>
    utf8_apply_eq_ok_iff.trans decode_eq_ok_iff
  refine ⟨fun text => decode_eq_ok_iff.trans writes_iff.symm, ?_, utf8_apply_eq_ok_iff,
    fun failure => utf8_apply_eq_error_iff, (hok bytes).trans encode_toList_eq_iff,
    (hok bytes).trans utf8_unapply_eq_ok_iff.symm, ⟨_, rfl, (hok _).mpr rfl⟩,
    ⟨_, rfl, congrArg Except.ok String.ofList_toList⟩⟩
  intro failure
  rw [decode_eq_error_iff, decode?_eq_none_iff]
  refine and_congr_right' ⟨?_, ?_⟩
  · rintro ⟨text, fault, hbytes, hfault⟩
    exact ⟨text, encode text, fault, writes_iff.mpr rfl, hbytes, hfault⟩
  · rintro ⟨text, whole, fault, hwrites, hbytes, hfault⟩
    obtain rfl := writes_iff.mp hwrites
    exact ⟨text, fault, hbytes, hfault⟩

example : decode? [0xED, 0xA0, 0x80] = none := by decide

end InvertibleGrammar.Utf8
