import InvertibleGrammar.Proofs.Utf8

/-!
# Cuts of a text

Whatever is taken off the front of a text is cut off its bytes at a place that is counted
in bytes: the width of a character, the length of a text that is compared byte by byte, or
the widths of accepted characters added up. Each such place lies between two characters, so
the piece and what is left are texts again. No later cut meets bytes that are none, in
whichever order the cuts are made.
-/

namespace InvertibleGrammar

/-! ## Runs of accepted symbols -/

namespace Run

variable {σ : Type}

theorem splitWhile_zero (accepts : σ → Bool) (input : Run σ) :
    splitWhile 0 accepts input = ([], input) := by
  simp [splitWhile]

theorem splitWhile_succ_cons (max : Nat) (accepts : σ → Bool) (symbol : σ) (input : Run σ) :
    splitWhile (max + 1) accepts (symbol :: input) =
      if accepts symbol then
        (symbol :: (splitWhile max accepts input).1, (splitWhile max accepts input).2)
      else ([], symbol :: input) := by
  cases h : accepts symbol with
  | true => simp [splitWhile, h]
  | false => simp [splitWhile, h]

end Run

namespace Utf8

/-! ## Cuts -/

/-- A way to take something off the front of a text. -/
inductive Cut where
  /-- The first character, if there is one. -/
  | next
  /-- A given text, if it stands there. -/
  | strip (lead : Run Char)
  /-- The longest run of at most `max` accepted characters. -/
  | takeWhile (max : Nat) (accepts : Char → Bool)

/-- The piece that is taken off a text and what is left. -/
def Cut.ofText : Cut → Run Char → Run Char × Run Char
  | next, text =>
      match text.next? with
      | some (c, rest) => ([c], rest)
      | none => ([], text)
  | strip lead, text =>
      match lead.strip? text with
      | some rest => (lead, rest)
      | none => ([], text)
  | takeWhile max accepts, text => text.splitWhile max accepts

/-- Adds up the bytes and the number of characters, up to `max` characters or to the first
that is not accepted. -/
def measureWhile (max : Nat) (accepts : Char → Bool) (units count : Nat) : Run Char → Nat × Nat
  | [] => (units, count)
  | c :: text =>
      if count = max || !accepts c then (units, count)
      else measureWhile max accepts (units + c.utf8Size) (count + 1) text

/-- The number of bytes that are cut off the bytes of a text. -/
def Cut.length : Cut → Run Char → Run UInt8 → Nat
  | next, text, _ =>
      match text with
      | [] => 0
      | c :: _ => c.utf8Size
  | strip lead, _, bytes => if (encode lead).leads bytes then (encode lead).length else 0
  | takeWhile max accepts, text, _ => (measureWhile max accepts 0 0 text).1

/-- The bytes that are cut off and those that are left. Characters are looked at without a
check that the bytes are those of a text; where they are not, there is no result. -/
def Cut.ofBytes (cut : Cut) (bytes : Run UInt8) : Option (Run UInt8 × Run UInt8) :=
  (decode? bytes).map fun text => bytes.splitAt (cut.length text bytes)

/-- The pieces that are taken off one after another, and what is left in the end. -/
def Cut.allOfText : List Cut → Run Char → List (Run Char) × Run Char
  | [], text => ([], text)
  | cut :: cuts, text =>
      let (piece, rest) := cut.ofText text
      let (pieces, last) := allOfText cuts rest
      (piece :: pieces, last)

/-- The bytes of the pieces that are cut off one after another, and those left in the end. -/
def Cut.allOfBytes : List Cut → Run UInt8 → Option (List (Run UInt8) × Run UInt8)
  | [], bytes => some ([], bytes)
  | cut :: cuts, bytes =>
      (cut.ofBytes bytes).bind fun (piece, rest) =>
        (allOfBytes cuts rest).map fun (pieces, last) => (piece :: pieces, last)

/-! ## One cut -/

/-- What is added up on the way is the measure of the run that is taken off. -/
theorem measureWhile_eq (accepts : Char → Bool) (more units count : Nat) (text : Run Char) :
    measureWhile (count + more) accepts units count text =
      (units + Run.units (text.splitWhile more accepts).1,
        count + (text.splitWhile more accepts).1.length) := by
  induction text generalizing more units count with
  | nil => simp [measureWhile, Run.splitWhile]
  | cons c text ih =>
      cases more with
      | zero => simp [measureWhile, Run.splitWhile_zero]
      | succ more =>
          have hcount : (count = count + (more + 1)) = False := by simp
          have hnext : count + (more + 1) = count + 1 + more := by omega
          rw [measureWhile, Run.splitWhile_succ_cons]
          cases hc : accepts c with
          | false => simp
          | true =>
              simp only [hcount, decide_false, Bool.not_true, Bool.or_false, Bool.false_eq_true,
                if_false, if_true, Run.units_cons, List.length_cons]
              rw [hnext, ih, Nat.add_assoc, Nat.add_assoc count, Nat.add_comm 1]
              rfl

/-- Counting from nothing gives the bytes and the number of the characters taken off. -/
theorem measureWhile_zero (max : Nat) (accepts : Char → Bool) (text : Run Char) :
    measureWhile max accepts 0 0 text =
      ((encode (text.splitWhile max accepts).1).length, (text.splitWhile max accepts).1.length) := by
  have hmeasure := measureWhile_eq accepts max 0 0 text
  rw [Nat.zero_add, Nat.zero_add, Nat.zero_add] at hmeasure
  rw [hmeasure, length_encode]

theorem Cut.ofText_append (cut : Cut) (text : Run Char) :
    (cut.ofText text).1 ++ (cut.ofText text).2 = text := by
  cases cut with
  | next => cases text <;> rfl
  | strip lead =>
      simp only [ofText]
      split
      · rename_i rest hrest
        exact (Run.strip?_eq_some_iff.mp hrest).symm
      · rfl
  | takeWhile max accepts => exact Run.splitWhile_append max accepts text

/-- The place that is counted in bytes is the end of the piece that is taken off the text. -/
theorem Cut.length_encode (cut : Cut) (text : Run Char) :
    cut.length text (encode text) = (encode (cut.ofText text).1).length := by
  cases cut with
  | next =>
      cases text with
      | nil => rfl
      | cons c text =>
          have hpiece : (next.ofText (c :: text)).1 = [c] := rfl
          rw [hpiece, Utf8.length_encode]
          rfl
  | strip lead =>
      simp only [length, ofText, leads_encode]
      split
      · rename_i hleads
        obtain ⟨rest, hrest⟩ := List.isPrefixOf_iff_prefix.mp hleads
        rw [Run.strip?_eq_some_iff.mpr hrest.symm]
      · rename_i hleads
        rw [Run.leads, List.isPrefixOf_iff_prefix] at hleads
        rw [Run.strip?_eq_none_iff.mpr hleads]
        rfl
  | takeWhile max accepts => exact congrArg Prod.fst (measureWhile_zero max accepts text)

/-- A cut of the bytes of a text falls between two characters. -/
theorem Cut.ofBytes_encode (cut : Cut) (text : Run Char) :
    cut.ofBytes (encode text) =
      some (encode (cut.ofText text).1, encode (cut.ofText text).2) := by
  have hsplit : encode text = encode (cut.ofText text).1 ++ encode (cut.ofText text).2 := by
    rw [← encode_append, cut.ofText_append]
  rw [ofBytes, decode?_eq_some_iff.mpr rfl, Option.map_some, cut.length_encode,
    List.splitAt_eq, hsplit, List.take_left, List.drop_left]

/-! ## Cuts one after another -/

theorem encode_flatten (pieces : List (Run Char)) :
    encode pieces.flatten = (pieces.map encode).flatten := by
  induction pieces with
  | nil => rfl
  | cons piece pieces ih => rw [List.flatten_cons, encode_append, ih, List.map_cons,
      List.flatten_cons]

theorem Cut.allOfText_flatten (cuts : List Cut) (text : Run Char) :
    (allOfText cuts text).1.flatten ++ (allOfText cuts text).2 = text := by
  induction cuts generalizing text with
  | nil => rfl
  | cons cut cuts ih =>
      simp only [allOfText, List.flatten_cons, List.append_assoc, ih, cut.ofText_append]

theorem Cut.allOfBytes_encode (cuts : List Cut) (text : Run Char) :
    allOfBytes cuts (encode text) =
      some ((allOfText cuts text).1.map encode, encode (allOfText cuts text).2) := by
  induction cuts generalizing text with
  | nil => rfl
  | cons cut cuts ih =>
      simp only [allOfBytes, cut.ofBytes_encode, Option.bind_some, ih, Option.map_some, allOfText,
        List.map_cons]

/-- A run is cut where the greatest number or the next symbol says, in texts as in byte
strings, and counting characters on the way gives its number and its bytes. From bytes that
are those of a text, any cuts in any order go on to the end. Each piece and what is left
are the bytes of a text, namely of what the cuts take off the characters, and together they
are the bytes that were there at first. -/
theorem cuts_keep_texts :
    (∀ (σ : Type) (max : Nat) (accepts : σ → Bool) (input : Run σ), ∃ run rest,
      input.splitWhile max accepts = (run, rest) ∧ run ++ rest = input ∧ run.length ≤ max ∧
        (∀ symbol ∈ run, accepts symbol = true) ∧
        (run.length < max → ∀ symbol ∈ rest.head?, accepts symbol = false)) ∧
    (∀ (max : Nat) (accepts : Char → Bool) (text : Run Char),
      measureWhile max accepts 0 0 text =
        ((encode (text.splitWhile max accepts).1).length,
          (text.splitWhile max accepts).1.length)) ∧
    ∀ (bytes : Run UInt8) (text : Run Char), decode? bytes = some text → ∀ cuts : List Cut,
      ∃ pieces rest, Cut.allOfBytes cuts bytes = some (pieces, rest) ∧
        pieces.flatten ++ rest = bytes ∧
        pieces.map decode? = (Cut.allOfText cuts text).1.map some ∧
        decode? rest = some (Cut.allOfText cuts text).2 := by
  refine ⟨?_, measureWhile_zero, ?_⟩
  · intro σ max accepts input
    obtain ⟨haccepted, hlength, hlongest⟩ := Run.splitWhile_matched max accepts input
    refine ⟨_, _, rfl, Run.splitWhile_append max accepts input, hlength, haccepted, ?_⟩
    intro hless
    exact hlongest.resolve_left (Nat.ne_of_lt hless)
  · intro bytes text htext cuts
    obtain rfl := decode?_eq_some_iff.mp htext
    refine ⟨_, _, Cut.allOfBytes_encode cuts text, ?_, ?_, decode?_eq_some_iff.mpr rfl⟩
    · rw [← encode_flatten, ← encode_append, Cut.allOfText_flatten]
    · rw [List.map_map]
      exact List.map_congr_left fun piece _ => decode?_eq_some_iff.mpr rfl

/-- Accents take two bytes each and the other two characters three. The longer text is not
there to be taken off, and in the end nothing is left. -/
theorem cuts_keep_texts_accents :
    decode? [0xC3, 0xA9, 0xC3, 0xA9, 0xE6, 0x97, 0xA5, 0xE6, 0x9C, 0xAC] =
        some ['é', 'é', '日', '本'] ∧
      ∃ pieces rest,
        Cut.allOfBytes [.takeWhile 1 (· == 'é'), .takeWhile 5 (· == 'é'), .strip ['日', '本', '語'],
            .strip ['日'], .next, .next]
          [0xC3, 0xA9, 0xC3, 0xA9, 0xE6, 0x97, 0xA5, 0xE6, 0x9C, 0xAC] = some (pieces, rest) ∧
        pieces.flatten ++ rest = [0xC3, 0xA9, 0xC3, 0xA9, 0xE6, 0x97, 0xA5, 0xE6, 0x9C, 0xAC] ∧
        pieces.map decode? = [some ['é'], some ['é'], some [], some ['日'], some ['本'], some []] ∧
        decode? rest = some [] := by
  have htext : decode? [0xC3, 0xA9, 0xC3, 0xA9, 0xE6, 0x97, 0xA5, 0xE6, 0x9C, 0xAC] =
      some ['é', 'é', '日', '本'] := decode?_eq_some_iff.mpr rfl
  exact ⟨htext, cuts_keep_texts.2.2 _ _ htext _⟩

end Utf8

end InvertibleGrammar
