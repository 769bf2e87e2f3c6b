import InvertibleGrammar.Grammar.Basic
import InvertibleGrammar.Proofs.Utf8
import Mathlib.Data.List.Forall2

/-!
# Formats over text and over bytes

A format that is described over characters has a counterpart over bytes: the same tree
with its literals in UTF-8, with runs that judge ASCII in the same way and treat all that
lies beyond it alike, and with conversions that do the same in either mode. The values of
the two are related: they are equal but for texts, which the one has in characters and the
other in bytes. Texts have to fit into memory, since the greatest length of a run counts
characters in the one mode and bytes in the other.
-/

namespace InvertibleGrammar

/-! ## Related values -/

/-- Whether the length in bytes is one that a machine can count. -/
def Run.Fits {σ : Type} [Symbol σ] (run : Run σ) : Prop := run.units < UInt64.size

instance {σ : Type} [Symbol σ] (run : Run σ) : Decidable run.Fits :=
  inferInstanceAs (Decidable (run.units < UInt64.size))

theorem Run.Fits.of_append {σ : Type} [Symbol σ] {a b : Run σ} (h : Fits (a ++ b)) :
    a.Fits ∧ b.Fits := by
  rw [Fits, Run.units_append] at h
  constructor
  · rw [Fits]
    omega
  · rw [Fits]
    omega

theorem Run.Fits.of_suffix {σ : Type} [Symbol σ] {input rest : Run σ} (h : input.Fits)
    (hrest : rest <:+ input) : rest.Fits := by
  obtain ⟨used, rfl⟩ := hrest
  exact h.of_append.2

/-- The bytes are those of a text that fits. -/
structure Run.SameText (text : Run Char) (bytes : Run UInt8) : Prop where
  bytes_eq : bytes = Utf8.encode text
  fits : text.Fits

/-- The same string, which fits. -/
structure SameString (a b : String) : Prop where
  eq : a = b
  fits : Run.Fits a.toList

/-- Tuples with related heads and related tails. -/
def Tuple.Both {α β : Type} {types types' : List Type} (R : α → β → Prop)
    (Q : Tuple types → Tuple types' → Prop) : Tuple (α :: types) → Tuple (β :: types') → Prop :=
  fun a b => R a.head b.head ∧ Q a.tail b.tail

/-- Results that are related values or the same cause. -/
inductive SameResult {ε α β : Type} (R : α → β → Prop) : Except ε α → Except ε β → Prop where
  | value {a : α} {b : β} (h : R a b) : SameResult R (.ok a) (.ok b)
  | cause {cause : ε} : SameResult R (.error cause) (.error cause)

/-! ## Conversions -/

/-- Two conversions, each in its mode, that do the same: from related values either of them
comes to related values or to the same cause, in both directions. -/
structure Conversion.Respects {α β γ δ : Type} (R : α → β → Prop) (S : γ → δ → Prop)
    (conversion : Conversion α γ) (conversion' : Conversion β δ) : Prop where
  apply : ∀ a b, R a b → SameResult S (conversion.apply a) (conversion'.apply b)
  unapply : ∀ c d, S c d → SameResult R (conversion.unapply c) (conversion'.unapply d)

/-- What a text is as a string its bytes are too, so none of them is refused. -/
theorem Conversion.string_respects_utf8 :
    Respects Run.SameText SameString Conversion.string Conversion.utf8 where
  apply := by
    rintro text _ ⟨rfl, hfits⟩
    have hstring : (String.ofList text).toList = text := String.toList_ofList
    simp only [string, utf8, total, Utf8.decode_encode]
    exact .value ⟨rfl, by rwa [hstring]⟩
  unapply := by
    rintro text _ ⟨rfl, hfits⟩
    exact .value ⟨rfl, hfits⟩

/-! ## Counterparts -/

mutual

/-- The second grammar is the first one over bytes. Their values are related by `R`, which
is equality but for the texts in them. -/
inductive Grammar.Counterpart : {α β : Type} → (α → β → Prop) → Grammar Char α →
    Grammar UInt8 β → Prop where
  /-- A literal becomes its bytes. -/
  | literal (text : Run Char) : Grammar.Counterpart Eq (.literal text) (.literal (Utf8.encode text))
  /-- A run keeps its length, which is not bounded if it reaches beyond ASCII. -/
  | run {accepts : Char → Bool} {acceptsByte : UInt8 → Bool} {beyond : Bool}
      {length : CountRange} (follows : Utf8.Follows accepts acceptsByte beyond)
      (unbounded : beyond = true → length = .any) :
      Grammar.Counterpart Run.SameText (.run accepts length) (.run acceptsByte length)
  /-- A sequence has the counterparts of its slots. -/
  | sequence {types types' : List Type} {Q : Tuple types → Tuple types' → Prop}
      {slots : Slots Char types} {slots' : Slots UInt8 types'}
      (same : Slots.Counterpart Q slots slots') :
      Grammar.Counterpart Q (.sequence slots) (.sequence slots')
  /-- A choice has the counterparts of its alternatives, in the same order. -/
  | choice {α β : Type} {R : α → β → Prop} {alternatives : Alternatives Char α}
      {alternatives' : Alternatives UInt8 β} (order : PrintOrder)
      (same : Alternatives.Counterpart R alternatives alternatives') :
      Grammar.Counterpart R (.choice alternatives order) (.choice alternatives' order)
  /-- A repetition has the counterparts of its parts, and the same counts. -/
  | repetition {α β : Type} {R : α → β → Prop} {element : Grammar Char α}
      {element' : Grammar UInt8 β} {separator terminator : Grammar Char Unit}
      {separator' terminator' : Grammar UInt8 Unit} (count : CountRange)
      (sameElement : Grammar.Counterpart R element element')
      (sameSeparator : Grammar.Counterpart Eq separator separator')
      (sameTerminator : Grammar.Counterpart Eq terminator terminator') :
      Grammar.Counterpart (List.Forall₂ R) (.repetition element separator terminator count)
        (.repetition element' separator' terminator' count)
  /-- A format that stands for its input alone has the counterpart of that format. -/
  | skip {inner : Grammar Char Unit} {inner' : Grammar UInt8 Unit}
      (same : Grammar.Counterpart Eq inner inner') :
      Grammar.Counterpart Eq (.skip inner) (.skip inner')
  /-- A conversion does the same in either mode. -/
  | convert {α β γ δ : Type} {R : α → β → Prop} {S : γ → δ → Prop} {inner : Grammar Char α}
      {inner' : Grammar UInt8 β} {conversion : Conversion α γ} {conversion' : Conversion β δ}
      (same : Grammar.Counterpart R inner inner') (respects : conversion.Respects R S conversion') :
      Grammar.Counterpart S (.convert inner conversion) (.convert inner' conversion')
  /-- An optional part has the counterpart of that part. -/
  | optional {α β : Type} {R : α → β → Prop} {inner : Grammar Char α} {inner' : Grammar UInt8 β}
      (same : Grammar.Counterpart R inner inner') :
      Grammar.Counterpart (Option.Rel R) (.optional inner) (.optional inner')
  /-- The end of the input stays what it is. -/
  | endOfInput : Grammar.Counterpart Eq .endOfInput .endOfInput
  /-- Nothing stays nothing. -/
  | empty : Grammar.Counterpart Eq .empty .empty
  /-- Numerals are the same in either mode. -/
  | integer (t : IntType) : Grammar.Counterpart Eq (.integer t) (.integer t)
  /-- Truth values are the same in either mode. -/
  | boolean : Grammar.Counterpart Eq .boolean .boolean

/-- The second slots are the first ones over bytes, one by one. -/
inductive Slots.Counterpart : {types types' : List Type} →
    (Tuple types → Tuple types' → Prop) → Slots Char types → Slots UInt8 types' → Prop where
  /-- No slot. -/
  | nil : Slots.Counterpart Eq .nil .nil
  /-- A slot whose value is kept. -/
  | keep {α β : Type} {types types' : List Type} {R : α → β → Prop}
      {Q : Tuple types → Tuple types' → Prop} {first : Grammar Char α}
      {first' : Grammar UInt8 β} {others : Slots Char types} {others' : Slots UInt8 types'}
      (sameFirst : Grammar.Counterpart R first first')
      (sameOthers : Slots.Counterpart Q others others') :
      Slots.Counterpart (Tuple.Both R Q) (.keep first others) (.keep first' others')
  /-- A slot that leaves no value. -/
  | skip {types types' : List Type} {Q : Tuple types → Tuple types' → Prop}
      {first : Grammar Char Unit} {first' : Grammar UInt8 Unit} {others : Slots Char types}
      {others' : Slots UInt8 types'} (sameFirst : Grammar.Counterpart Eq first first')
      (sameOthers : Slots.Counterpart Q others others') :
      Slots.Counterpart Q (.skip first others) (.skip first' others')

/-- The second alternatives are the first ones over bytes, one by one. -/
inductive Alternatives.Counterpart : {α β : Type} → (α → β → Prop) → Alternatives Char α →
    Alternatives UInt8 β → Prop where
  /-- No alternative. -/
  | nil {α β : Type} {R : α → β → Prop} : Alternatives.Counterpart R .nil .nil
  /-- An alternative before the others. -/
  | cons {α β : Type} {R : α → β → Prop} {first : Grammar Char α} {first' : Grammar UInt8 β}
      {others : Alternatives Char α} {others' : Alternatives UInt8 β}
      (sameFirst : Grammar.Counterpart R first first')
      (sameOthers : Alternatives.Counterpart R others others') :
      Alternatives.Counterpart R (.cons first others) (.cons first' others')

end

end InvertibleGrammar
