import InvertibleGrammar.Conversion
import InvertibleGrammar.Proofs.FailedReading
import InvertibleGrammar.Proofs.Numerals

/-!
# Runs in UTF-8

What is true of a text is true of its bytes. Lengths in bytes are the same, and one
text starts another just if its bytes start those of the other. Predicates that agree on
ASCII and are constant beyond it split a text and its bytes in the same place, so the
longest run of accepted bytes ends between two characters.
-/

namespace InvertibleGrammar.Utf8

/-! ## Characters -/

theorem le_toNat_ofNat {n : Nat} (hlow : 128 ≤ n) (hhigh : n < 256) :
    128 ≤ (UInt8.ofNat n).toNat := by
  rwa [UInt8.toNat_ofNat', Nat.mod_eq_of_lt hhigh]

/-- The bytes of a character beyond ASCII lie beyond ASCII. -/
theorem le_toNat_of_mem_utf8EncodeChar {c : Char} (hc : 128 ≤ c.toNat) {b : UInt8}
    (hb : b ∈ String.utf8EncodeChar c) : 128 ≤ b.toNat := by
  have hval : c.val.toNat = c.toNat := rfl
  simp only [String.utf8EncodeChar, hval] at hb
  split at hb
  · omega
  · split at hb
    · rcases List.mem_cons.mp hb with rfl | hb
      · exact le_toNat_ofNat (by omega) (by omega)
      · rw [List.mem_singleton.mp hb]
        exact le_toNat_ofNat (by omega) (by omega)
    · split at hb
      · rcases List.mem_cons.mp hb with rfl | hb
        · exact le_toNat_ofNat (by omega) (by omega)
        · rcases List.mem_cons.mp hb with rfl | hb
          · exact le_toNat_ofNat (by omega) (by omega)
          · rw [List.mem_singleton.mp hb]
            exact le_toNat_ofNat (by omega) (by omega)
      · simp only [List.mem_cons, List.not_mem_nil, or_false] at hb
        rcases hb with rfl | rfl | rfl | rfl
        · exact le_toNat_ofNat (by omega) (by omega)
        · exact le_toNat_ofNat (by omega) (by omega)
        · exact le_toNat_ofNat (by omega) (by omega)
        · exact le_toNat_ofNat (by omega) (by omega)

theorem utf8EncodeChar_ne_nil (c : Char) : String.utf8EncodeChar c ≠ [] := by
  intro hnil
  have hlength := String.length_utf8EncodeChar c
  have hpositive := c.utf8Size_pos
  rw [hnil, List.length_nil] at hlength
  omega

/-! ## Texts -/

@[simp] theorem encode_nil : encode [] = [] := rfl

@[simp] theorem encode_cons (c : Char) (text : Run Char) :
    encode (c :: text) = String.utf8EncodeChar c ++ encode text :=
  List.flatMap_cons

@[simp] theorem encode_append (a b : Run Char) : encode (a ++ b) = encode a ++ encode b :=
  List.flatMap_append

@[simp] theorem encode_eq_nil_iff {text : Run Char} : encode text = [] ↔ text = [] := by
  cases text with
  | nil => simp
  | cons c text => simp [utf8EncodeChar_ne_nil c]

@[simp] theorem isEmpty_encode (text : Run Char) : (encode text).isEmpty = text.isEmpty := by
  rw [Bool.eq_iff_iff, List.isEmpty_iff, List.isEmpty_iff, encode_eq_nil_iff]

/-- Bytes are spelled as the bytes of what is spelled in characters. -/
theorem flatMap_spell (chars : List Char) :
    (chars.flatMap Symbol.spell : Run UInt8) = encode (chars.flatMap Symbol.spell) :=
  congrArg encode (List.flatMap_singleton' chars).symm

theorem length_encode (text : Run Char) : (encode text).length = Run.units text := by
  induction text with
  | nil => rfl
  | cons c text ih =>
      rw [encode_cons, List.length_append, String.length_utf8EncodeChar, ih]
      rfl

theorem length_le_length_encode (text : Run Char) : text.length ≤ (encode text).length := by
  induction text with
  | nil => exact Nat.le_refl 0
  | cons c text ih =>
      have hpositive := c.utf8Size_pos
      rw [encode_cons, List.length_append, String.length_utf8EncodeChar, List.length_cons]
      omega

theorem units_eq_length (bytes : Run UInt8) : Run.units bytes = bytes.length := by
  induction bytes with
  | nil => rfl
  | cons b bytes ih =>
      rw [Run.units_cons, ih, List.length_cons, Nat.add_comm]
      rfl

@[simp] theorem units_encode (text : Run Char) : Run.units (encode text) = Run.units text := by
  rw [units_eq_length, length_encode]

/-- A text starts another just if its bytes start those of the other. -/
theorem encode_prefix_iff {a b : Run Char} : encode a <+: encode b ↔ a <+: b := by
  constructor
  · rintro ⟨after, hafter⟩
    apply List.isPrefix_of_utf8Encode_append_eq_utf8Encode after.toByteArray
    change (encode a).toByteArray ++ after.toByteArray = (encode b).toByteArray
    rw [← hafter, List.toByteArray_append]
  · rintro ⟨after, rfl⟩
    rw [encode_append]
    exact List.prefix_append _ _

/-- Taking off the bytes of a leading text leaves those of what follows it. -/
theorem drop_encode {lead input : Run Char} (h : lead <+: input) :
    (encode input).drop (encode lead).length = encode (input.drop lead.length) := by
  obtain ⟨rest, rfl⟩ := h
  rw [encode_append, List.drop_left, List.drop_left]

/-- The bytes after those of a text are those of what follows the text. -/
theorem strip?_encode (lead input : Run Char) :
    (encode lead).strip? (encode input) = (lead.strip? input).map encode := by
  cases htext : lead.strip? input with
  | some rest =>
      rw [Run.strip?_eq_some_iff.mp htext, encode_append]
      exact Run.strip?_eq_some_iff.mpr rfl
  | none =>
      cases hbytes : (encode lead).strip? (encode input) with
      | none => rfl
      | some after =>
          have hprefix : encode lead <+: encode input :=
            ⟨after, (Run.strip?_eq_some_iff.mp hbytes).symm⟩
          obtain ⟨rest, hrest⟩ := encode_prefix_iff.mp hprefix
          cases htext.symm.trans (Run.strip?_eq_some_iff.mpr hrest.symm)

theorem leads_encode (run whole : Run Char) :
    (encode run).leads (encode whole) = run.leads whole := by
  rw [Bool.eq_iff_iff]
  simp only [Run.leads, List.isPrefixOf_iff_prefix, encode_prefix_iff]

/-- The bytes that are decoded to a text are those of that text. -/
theorem decode?_eq_some_iff {bytes : Run UInt8} {text : Run Char} :
    decode? bytes = some text ↔ encode text = bytes := by
  constructor
  · intro h
    obtain ⟨string, hstring, rfl⟩ := Option.map_eq_some_iff.mp h
    rw [String.fromUTF8?] at hstring
    split at hstring
    · rename_i hvalid
      obtain rfl := Option.some.inj hstring
      have hbytes : (String.fromUTF8 ⟨bytes.toArray⟩ hvalid).toList.utf8Encode = ⟨bytes.toArray⟩ :=
        String.utf8Encode_toList
      have hlist := congrArg (fun array => array.data.toList) hbytes
      simp only [List.utf8Encode, List.data_toByteArray] at hlist
      exact hlist
    · cases hstring
  · rintro rfl
    have hbytes : (⟨(encode text).toArray⟩ : ByteArray) = (String.ofList text).toByteArray := by
      apply ByteArray.ext
      exact List.data_toByteArray.symm
    have hvalid : (String.ofList text).toByteArray.IsValidUTF8 := (String.ofList text).isValidUTF8
    rw [decode?, hbytes, String.fromUTF8?, dif_pos hvalid, Option.map_some]
    exact congrArg some String.toList_ofList

/-- The bytes of a text are decoded to that text. -/
theorem decode_encode (text : Run Char) : decode (encode text) = .ok text := by
  rw [decode, decode?_eq_some_iff.mpr rfl]

/-! ## Predicates -/

/-- A predicate on bytes is that of the characters on ASCII, and beyond ASCII both of them
are constant. -/
structure Follows (accepts : Char → Bool) (acceptsByte : UInt8 → Bool) (beyond : Bool) :
    Prop where
  ascii : ∀ c : Char, c.toNat < 128 → acceptsByte (UInt8.ofNat c.toNat) = accepts c
  char : ∀ c : Char, 128 ≤ c.toNat → accepts c = beyond
  byte : ∀ b : UInt8, 128 ≤ b.toNat → acceptsByte b = beyond

namespace Follows

variable {accepts : Char → Bool} {acceptsByte : UInt8 → Bool} {beyond : Bool}

/-- The bytes of a character are accepted as the character is. -/
theorem eq_of_mem (h : Follows accepts acceptsByte beyond) {c : Char} {b : UInt8}
    (hb : b ∈ String.utf8EncodeChar c) : acceptsByte b = accepts c := by
  rcases Nat.lt_or_ge c.toNat 128 with hc | hc
  · rw [Symbol.utf8EncodeChar_of_lt hc] at hb
    rw [List.mem_singleton.mp hb, h.ascii c hc]
  · rw [h.char c hc, h.byte b (le_toNat_of_mem_utf8EncodeChar hc hb)]

theorem all_utf8EncodeChar (h : Follows accepts acceptsByte beyond) (c : Char) :
    (String.utf8EncodeChar c).all acceptsByte = accepts c := by
  cases hc : accepts c with
  | true =>
      rw [List.all_eq_true]
      intro b hb
      rw [h.eq_of_mem hb, hc]
  | false =>
      rw [List.all_eq_false]
      obtain ⟨b, hb⟩ := List.exists_mem_of_ne_nil _ (utf8EncodeChar_ne_nil c)
      refine ⟨b, hb, ?_⟩
      simp [h.eq_of_mem hb, hc]

/-- All bytes of a text are accepted just if all its characters are. -/
theorem all_encode (h : Follows accepts acceptsByte beyond) (text : Run Char) :
    (encode text).all acceptsByte = text.all accepts := by
  induction text with
  | nil => rfl
  | cons c text ih =>
      rw [encode_cons, List.all_append, h.all_utf8EncodeChar, ih, List.all_cons]

/-- The first byte of a text is accepted as its first character is. -/
theorem head?_encode (h : Follows accepts acceptsByte beyond) {text : Run Char} {value : Bool}
    (htext : ∀ c ∈ text.head?, accepts c = value) :
    ∀ b ∈ (encode text).head?, acceptsByte b = value := by
  cases text with
  | nil => simp
  | cons c text =>
      obtain ⟨first, others, hc⟩ := List.exists_cons_of_ne_nil (utf8EncodeChar_ne_nil c)
      have hfirst : first ∈ String.utf8EncodeChar c := by
        rw [hc]
        exact List.mem_cons_self
      intro b hb
      rw [encode_cons, hc, List.cons_append, List.head?_cons] at hb
      rw [← Option.some.inj hb, h.eq_of_mem hfirst]
      exact htext c rfl

/-- Where nothing beyond ASCII is accepted, accepted texts have as many bytes as characters. -/
theorem length_encode_of_all (h : Follows accepts acceptsByte false) {text : Run Char}
    (htext : ∀ c ∈ text, accepts c = true) : (encode text).length = text.length := by
  induction text with
  | nil => rfl
  | cons c text ih =>
      have hc : c.toNat < 128 := by
        rcases Nat.lt_or_ge c.toNat 128 with hc | hc
        · exact hc
        · cases (h.char c hc).symm.trans (htext c List.mem_cons_self)
      rw [encode_cons, Symbol.utf8EncodeChar_of_lt hc, List.singleton_append, List.length_cons,
        List.length_cons, ih fun d hd => htext d (List.mem_cons_of_mem c hd)]

/-- The longest accepted run of a text becomes that of its bytes. -/
theorem matched_encode (h : Follows accepts acceptsByte beyond) {max : Nat} {run rest : Run Char}
    (hmatched : Run.Matched accepts max run rest) (hlength : (encode run).length ≤ max) :
    Run.Matched acceptsByte max (encode run) (encode rest) := by
  obtain ⟨haccepted, _, hlongest⟩ := hmatched
  have hall : (encode run).all acceptsByte = true := by
    rw [h.all_encode, List.all_eq_true]
    exact haccepted
  refine ⟨List.all_eq_true.mp hall, hlength, ?_⟩
  rcases hlongest with hmax | hrest
  · have hle := length_le_length_encode run
    exact Or.inl (by omega)
  · exact Or.inr (h.head?_encode hrest)

/-- Where nothing beyond ASCII is accepted, the accepted bytes are those of the accepted
characters. -/
theorem takeWhile_encode (h : Follows accepts acceptsByte false) (text : Run Char) :
    (encode text).takeWhile acceptsByte = encode (text.takeWhile accepts) := by
  induction text with
  | nil => rfl
  | cons c text ih =>
      cases hc : accepts c with
      | true =>
          have haccepted : ∀ b ∈ String.utf8EncodeChar c, acceptsByte b = true := by
            intro b hb
            rw [h.eq_of_mem hb, hc]
          rw [encode_cons, List.takeWhile_append_of_pos haccepted, ih,
            List.takeWhile_cons_of_pos hc, encode_cons]
      | false =>
          have hstop : ∀ b ∈ (encode (c :: text)).head?, acceptsByte b = false :=
            h.head?_encode fun d hd => by rw [← Option.some.inj hd, hc]
          rw [List.takeWhile_cons_of_neg (by simp [hc]), encode_nil]
          cases hbytes : encode (c :: text) with
          | nil => rfl
          | cons b bytes =>
              rw [hbytes] at hstop
              exact List.takeWhile_cons_of_neg (by simp [hstop b rfl])

end Follows

/-! ## Numerals -/

theorem toChar_ofNat {c : Char} (hc : c.toNat < 128) :
    Symbol.toChar (UInt8.ofNat c.toNat) = c := by
  have hspell : (Symbol.spell c : Run UInt8).map Symbol.toChar = [c] :=
    Symbol.map_toChar_spell c hc
  change (String.utf8EncodeChar c).map Symbol.toChar = [c] at hspell
  rw [Symbol.utf8EncodeChar_of_lt hc] at hspell
  exact (List.cons.inj hspell).1

/-- What bytes stand for is judged like characters, where only ASCII is accepted. -/
theorem follows_toChar {accepts : Char → Bool}
    (h : ∀ c : Char, 128 ≤ c.toNat → accepts c = false) :
    Follows accepts (fun b => accepts (Symbol.toChar b)) false where
  ascii c hc := by rw [toChar_ofNat hc]
  char := h
  byte b hb := h _ (by rwa [← Symbol.toNat_charOfByte b] at hb)

theorem isDigit_follows : Follows Char.isDigit (fun b => (Symbol.toChar b).isDigit) false := by
  apply follows_toChar
  intro c hc
  cases hdigit : c.isDigit with
  | false => rfl
  | true =>
      have hlt := Numeral.toNat_lt_of_isDigit hdigit
      omega

/-- The first byte of a text stands for its first character, or both lie beyond ASCII. -/
theorem encode_cons_cases (c : Char) (text : Run Char) :
    (∃ b, String.utf8EncodeChar c = [b] ∧ Symbol.toChar b = c) ∨
      ∃ b bytes, encode (c :: text) = b :: bytes ∧
        ∀ d : Char, d.toNat < 128 → Symbol.toChar b ≠ d ∧ c ≠ d := by
  rcases Nat.lt_or_ge c.toNat 128 with hc | hc
  · left
    exact ⟨UInt8.ofNat c.toNat, Symbol.utf8EncodeChar_of_lt hc, toChar_ofNat hc⟩
  · right
    obtain ⟨b, others, hbytes⟩ := List.exists_cons_of_ne_nil (utf8EncodeChar_ne_nil c)
    have hb : 128 ≤ (Symbol.toChar b).toNat := by
      have hmem : b ∈ String.utf8EncodeChar c := by
        rw [hbytes]
        exact List.mem_cons_self
      have hle := le_toNat_of_mem_utf8EncodeChar hc hmem
      rwa [← Symbol.toNat_charOfByte b] at hle
    refine ⟨b, others ++ encode text, by rw [encode_cons, hbytes, List.cons_append], ?_⟩
    intro d hd
    constructor
    · rintro rfl
      omega
    · rintro rfl
      omega

theorem sign_encode (t : IntType) (input : Run Char) :
    Numeral.sign t (encode input) =
      ((Numeral.sign t input).1, encode (Numeral.sign t input).2) := by
  cases input with
  | nil => rfl
  | cons c input =>
      have hchar : Symbol.toChar c = c := rfl
      rcases encode_cons_cases c input with ⟨b, hbytes, hb⟩ | ⟨b, bytes, hbytes, hb⟩
      · rw [encode_cons, hbytes, List.singleton_append]
        simp only [Numeral.sign, hb, hchar]
        split
        · rfl
        · rw [encode_cons, hbytes, List.singleton_append]
      · obtain ⟨hbyte, hc⟩ := hb '-' (by decide)
        simp only [hbytes, Numeral.sign, hchar, hbyte, hc, decide_false, Bool.and_false,
          Bool.false_eq_true, if_false]

theorem magnitude_encode (input : Run Char) :
    Numeral.magnitude (encode input) = encode (Numeral.magnitude input) := by
  have htake := isDigit_follows.takeWhile_encode input
  cases input with
  | nil => rfl
  | cons c input =>
      have hchar : Symbol.toChar c = c := rfl
      rcases encode_cons_cases c input with ⟨b, hbytes, hb⟩ | ⟨b, bytes, hbytes, hb⟩
      · rw [encode_cons, hbytes, List.singleton_append] at htake ⊢
        simp only [Numeral.magnitude, hb, hchar]
        split
        · rw [encode_cons, hbytes, encode_nil, List.append_nil]
        · exact htake
      · obtain ⟨hbyte, hc⟩ := hb '0' (by decide)
        rw [hbytes] at htake ⊢
        simp only [Numeral.magnitude, hchar, hbyte, hc, if_false]
        exact htake

/-- Digits stand for the same number in either mode. -/
theorem value_encode_magnitude (input : Run Char) :
    Numeral.value (encode (Numeral.magnitude input)) =
      Numeral.value (Numeral.magnitude input) := by
  have hascii : ∀ c ∈ Numeral.magnitude input, c.toNat < 128 :=
    fun c hc => Numeral.toNat_lt_of_isDigit (Numeral.isDigit_of_mem_magnitude hc)
  have hbytes : (encode (Numeral.magnitude input)).map Symbol.toChar = Numeral.magnitude input :=
    Numeral.map_toChar_flatMap_spell hascii
  have hchars : (Numeral.magnitude input).map Symbol.toChar = Numeral.magnitude input :=
    List.map_id _
  rw [Numeral.value, Numeral.value, hbytes, hchars]

/-- A numeral is read from the bytes of a text as from the text. -/
theorem read_encode (t : IntType) (input : Run Char) :
    Numeral.read t (encode input) =
      (Numeral.read t input).map fun (value, rest) => (value, encode rest) := by
  rcases hpair : Numeral.sign t input with ⟨negative, body⟩
  simp only [Numeral.read_eq, sign_encode, hpair, magnitude_encode, isEmpty_encode,
    value_encode_magnitude, drop_encode (Numeral.prefix_magnitude body), units_encode]
  split
  · rfl
  · split
    · rfl
    · split <;> rfl

end InvertibleGrammar.Utf8
