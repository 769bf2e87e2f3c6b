import InvertibleGrammar.Proofs.Everywhere
import InvertibleGrammar.Proofs.Gathering
import InvertibleGrammar.Proofs.Numerals
import InvertibleGrammar.Proofs.SuccessfulWriting

/-!
# Writing what was read

A reader and a writer reproduce inputs if every value that was read is written as
just the symbols that it was read from. Leaves do so, and the combinations pass it
on under two conditions: a conversion has to restore the value that it was applied
to, and an alternative that is tried too early in writing has to refuse the value.
-/

namespace InvertibleGrammar

section Combinators

variable {σ α β : Type}

/-- What was read is printed as the part of the input that it was read from. -/
def Reproduces (reader : Reader σ α) (writer : Writer σ α) : Prop :=
  ∀ input value rest, (reader input).Yields value rest →
    ∃ taken, input = taken ++ rest ∧ writer.Prints value taken

/-! ## Leaves -/

theorem reproduces_empty : Reproduces (Reader.empty : Reader σ Unit) Writer.empty := by
  intro input _ rest h
  exact ⟨[], Reader.empty_yields_iff.mp h, Writer.empty_prints⟩

theorem reproduces_endOfInput [Symbol σ] :
    Reproduces (Reader.endOfInput : Reader σ Unit) Writer.empty := by
  intro input _ rest h
  obtain ⟨rfl, rfl⟩ := Reader.endOfInput_yields_iff.mp h
  exact ⟨[], rfl, Writer.empty_prints⟩

theorem reproduces_literal [Symbol σ] [DecidableEq σ] (text : Run σ) :
    Reproduces (Reader.literal text) (Writer.literal text) := by
  intro input _ rest h
  obtain ⟨word, hword, rfl⟩ := Reader.exists_of_words_yields h
  obtain ⟨rfl, _⟩ := Prod.mk.inj (List.mem_singleton.mp hword)
  exact ⟨word, rfl, Writer.literal_prints word⟩

theorem reproduces_boolean [Symbol σ] [DecidableEq σ] :
    Reproduces (Reader.boolean : Reader σ Bool) Writer.boolean := by
  intro input value rest h
  obtain ⟨word, hword, rfl⟩ := Reader.exists_of_words_yields h
  refine ⟨word, rfl, ?_⟩
  have hspelling : word = Run.spelling (if value then "true" else "false") := by
    rcases List.mem_cons.mp hword with htrue | hfalse
    · obtain ⟨rfl, rfl⟩ := Prod.mk.inj htrue
      rfl
    · obtain ⟨rfl, rfl⟩ := Prod.mk.inj (List.mem_singleton.mp hfalse)
      rfl
  rw [hspelling]
  exact Writer.boolean_prints value

theorem reproduces_integer [Symbol σ] (t : IntType) :
    Reproduces (Reader.integer t : Reader σ t.Value) (Writer.integer t) := by
  intro input value rest h
  simp only [Reader.integer] at h
  split at h
  · rename_i n left hread
    obtain ⟨rfl, rfl⟩ := Reading.succeed_yields_iff.mp h
    exact ⟨Numeral.spelling n.val, Numeral.eq_spelling_of_read hread, Writer.integer_prints n⟩
  · exact absurd h Reading.not_fail_yields

theorem reproduces_run [Symbol σ] (accepts : σ → Bool) (length : CountRange) :
    Reproduces (Reader.run accepts length) (Writer.run accepts length) := by
  intro input value rest h
  obtain ⟨hsplit, haccepts, hlength⟩ := Reader.run_yields h
  exact ⟨value, hsplit, Writer.run_prints haccepts hlength⟩

/-! ## Sequences -/

theorem reproduces_keep {types : List Type} {readFirst : Reader σ α} {writeFirst : Writer σ α}
    {readOthers : Reader σ (Tuple types)} {writeOthers : Writer σ (Tuple types)}
    (hfirst : Reproduces readFirst writeFirst) (hothers : Reproduces readOthers writeOthers) :
    Reproduces (Reader.keep readFirst readOthers) (Writer.keep writeFirst writeOthers) := by
  intro input tuple rest h
  obtain ⟨middle, hhead, htail⟩ := Reader.keep_yields_iff.mp h
  obtain ⟨a, rfl, ha⟩ := hfirst input tuple.head middle hhead
  obtain ⟨b, rfl, hb⟩ := hothers middle tuple.tail rest htail
  exact ⟨a ++ b, by rw [List.append_assoc], Writer.keep_prints ha hb⟩

theorem reproduces_skip {readFirst : Reader σ Unit} {writeFirst : Writer σ Unit}
    {readOthers : Reader σ α} {writeOthers : Writer σ α}
    (hfirst : Reproduces readFirst writeFirst) (hothers : Reproduces readOthers writeOthers) :
    Reproduces (Reader.skip readFirst readOthers) (Writer.skip writeFirst writeOthers) := by
  intro input value rest h
  obtain ⟨middle, hskip, hvalue⟩ := Reader.skip_yields_iff.mp h
  obtain ⟨a, rfl, ha⟩ := hfirst input () middle hskip
  obtain ⟨b, rfl, hb⟩ := hothers middle value rest hvalue
  exact ⟨a ++ b, by rw [List.append_assoc], Writer.skip_prints ha hb⟩

/-- A conversion gives back the value that it was applied to. -/
def Conversion.Restores (conversion : Conversion α β) : Prop :=
  ∀ a b, conversion.apply a = .ok b → conversion.unapply b = .ok a

theorem Conversion.string_restores : Conversion.string.Restores := by
  intro run text h
  obtain rfl := Except.ok.inj h
  exact congrArg Except.ok String.toList_ofList

theorem reproduces_convert {reader : Reader σ α} {writer : Writer σ α}
    (hinner : Reproduces reader writer) {conversion : Conversion α β}
    (hrestores : conversion.Restores) :
    Reproduces (Reader.convert reader conversion) (Writer.convert writer conversion) := by
  intro input value rest h
  obtain ⟨before, hbefore, happly⟩ := Reader.convert_yields_iff.mp h
  obtain ⟨taken, hsplit, hprints⟩ := hinner input before rest hbefore
  exact ⟨taken, hsplit, Writer.convert_prints (hrestores before value happly) hprints⟩

variable [Symbol σ]

theorem reproduces_optional {reader : Reader σ α} {writer : Writer σ α}
    (hinner : Reproduces reader writer) :
    Reproduces (Reader.optional reader) (Writer.optional writer) := by
  intro input value rest h
  cases value with
  | none =>
      obtain ⟨_, hrest⟩ := Reader.optional_yields_none_iff.mp h
      exact ⟨[], hrest, Writer.optional_prints_none⟩
  | some value =>
      obtain ⟨taken, hsplit, hprints⟩ :=
        hinner input value rest (Reader.optional_yields_some_iff.mp h)
      exact ⟨taken, hsplit, Writer.optional_prints_some_iff.mpr hprints⟩

/-- A choice reproduces inputs if each alternative does and those that are tried in
writing before the one that read a value refuse it. -/
theorem reproduces_choice {γ : Type 1} {items : List γ} {reader : γ → Reader σ α}
    {writer : γ → Writer σ α} {order : PrintOrder}
    (hitems : ∀ item ∈ items, Reproduces (reader item) (writer item))
    (happend : ∀ item ∈ items, (writer item).AppendOnly)
    (hrefused : (order.arrange items).Pairwise fun tried item =>
      ∀ input value rest, (reader item input).Yields value rest → (writer tried value []).Refused) :
    Reproduces (Reader.choice (items.map reader)) (Writer.choice (items.map writer) order) := by
  intro input value rest h
  obtain ⟨earlier, found, later, hsplit, _, hread⟩ := Reader.choice_yields_iff.mp h
  have hfound : found ∈ items.map reader := by
    rw [hsplit]
    exact List.mem_append_cons_self
  obtain ⟨chosen, hchosen, rfl⟩ := List.mem_map.mp hfound
  obtain ⟨taken, htaken, hprints⟩ := hitems chosen hchosen input value rest hread
  obtain ⟨before, after, harranged⟩ := List.append_of_mem (order.mem_arrange.mpr hchosen)
  have hwriters : order.arrange (items.map writer) =
      before.map writer ++ writer chosen :: after.map writer := by
    rw [order.arrange_map, harranged, List.map_append, List.map_cons]
  refine ⟨taken, htaken,
    Writer.choice_prints (List.forall_mem_map.mpr happend) hwriters hprints ?_⟩
  intro other hother
  obtain ⟨tried, htried, rfl⟩ := List.mem_map.mp hother
  rw [harranged] at hrefused
  have hbefore := (List.pairwise_append.mp hrefused).2.2 tried htried chosen List.mem_cons_self
  exact hbefore input value rest hread

/-! ## Repetition -/

section Repetition

variable {element : Reader σ α} {separator terminator : Reader σ Unit}
  {writeElement : Writer σ α} {writeSeparator writeTerminator : Writer σ Unit}

/-- The values of a chain of iterations are joined to what the chain was read from. The
iteration without a separator in front is the first in both directions. -/
theorem join_of_iterates (helement : Reproduces element writeElement)
    (hseparator : Reproduces separator writeSeparator) {count : Nat} {input rest closing : Run σ}
    {values : List α} (hchain : Reader.Iterates element separator count input values rest)
    (hclosing : writeTerminator.Prints () closing) :
    ∃ taken, input = taken ++ rest ∧ ∀ buffer,
      (Writer.join writeElement writeSeparator writeTerminator (decide (count = 0)) values
        buffer).Leaves (buffer ++ (taken ++ closing)) := by
  induction hchain with
  | done => exact ⟨[], rfl, hclosing⟩
  | @more count input middle rest value values step progress later ih =>
      obtain ⟨start, hstart, hvalue⟩ := Reader.iteration_yields_iff.mp step
      obtain ⟨lead, rfl, hlead⟩ : ∃ lead, input = lead ++ start ∧
          (if decide (count = 0) then Writer.empty else writeSeparator :
            Writer σ Unit).Prints () lead := by
        by_cases hcount : count = 0
        · simp only [hcount, if_true, decide_true] at hstart ⊢
          exact reproduces_empty input () start hstart
        · simp only [hcount, if_false, decide_false, Bool.false_eq_true] at hstart ⊢
          exact hseparator input () start hstart
      obtain ⟨piece, rfl, hpiece⟩ := helement start value middle hvalue
      obtain ⟨taken, rfl, htaken⟩ := ih
      have hprogress : lead ++ piece ≠ [] := by
        intro hempty
        obtain ⟨rfl, rfl⟩ := List.append_eq_nil_iff.mp hempty
        exact Nat.lt_irrefl _ progress
      refine ⟨lead ++ piece ++ taken, by simp only [List.append_assoc], fun buffer => ?_⟩
      rw [List.append_assoc (lead ++ piece) taken closing]
      exact Writer.join_leaves_cons (Writer.iteration_leaves hlead hpiece hprogress) htaken buffer

theorem reproduces_repetition (helement : Reproduces element writeElement)
    (hseparator : Reproduces separator writeSeparator)
    (hterminator : Reproduces terminator writeTerminator) (count : CountRange) :
    Reproduces (Reader.repetition element separator terminator count)
      (Writer.repetition writeElement writeSeparator writeTerminator count) := by
  intro input values rest h
  obtain ⟨middle, hvalues, hmiddle, hmin, hclose⟩ := Reader.repetition_yields_iff.mp h
  obtain ⟨closing, rfl, hclosing⟩ := hterminator middle () rest hclose
  have hchain := Reader.gather_iterates element separator count.max.toNat 0 input
  have hmax := Reader.length_gather_le element separator (Nat.zero_le count.max.toNat) input
  rw [hvalues] at hchain hmax
  rw [hmiddle] at hchain
  obtain ⟨taken, rfl, hjoin⟩ := join_of_iterates helement hseparator hchain hclosing
  refine ⟨taken ++ closing, by rw [List.append_assoc], Writer.repetition_prints ?_ hjoin⟩
  exact CountRange.contains_iff.mpr ⟨hmin, by omega⟩

end Repetition

end Combinators

namespace Grammar

variable {σ : Type}

/-- If the grammar is a conversion, what it converts can be restored. -/
def Restores : (γ : Type) → Grammar σ γ → Prop
  | _, .convert _ conversion => conversion.Restores
  | _, _ => True

/-- If the grammar is a choice, a value that one alternative reads is refused by every
alternative that is tried before it in writing. -/
def Separated [Symbol σ] [DecidableEq σ] : (γ : Type) → Grammar σ γ → Prop
  | _, .choice alternatives order =>
      (order.arrange alternatives.toList).Pairwise fun tried grammar =>
        ∀ input value rest, (grammar.read input).Yields value rest →
          (tried.write value []).Refused
  | _, _ => True

/-- The grammar is not a choice. -/
def NoChoice : (γ : Type) → Grammar σ γ → Prop
  | _, .choice _ _ => False
  | _, _ => True

end Grammar

variable {σ : Type} [Symbol σ] [DecidableEq σ]

mutual

/-- A grammar with separated choices and conversions that can be undone reproduces inputs. -/
theorem Grammar.reproduces {α : Type} : (grammar : Grammar σ α) →
    grammar.Everywhere Grammar.Restores → grammar.Everywhere Grammar.Separated →
    Reproduces grammar.read grammar.write
  | .literal text, _, _ => reproduces_literal text
  | .run accepts length, _, _ => reproduces_run accepts length
  | .sequence slots, hrestores, hseparated => slots.reproduces hrestores.2 hseparated.2
  | .choice alternatives order, hrestores, hseparated => by
      have hall := alternatives.reproduces hrestores.2 hseparated.2
      simp only [Grammar.read, Grammar.write]
      rw [alternatives.readers_eq_map, alternatives.writers_eq_map]
      exact reproduces_choice hall (fun grammar _ => grammar.write_appendOnly) hseparated.1
  | .repetition element separator terminator count, hrestores, hseparated =>
      reproduces_repetition (element.reproduces hrestores.2.1 hseparated.2.1)
        (separator.reproduces hrestores.2.2.1 hseparated.2.2.1)
        (terminator.reproduces hrestores.2.2.2 hseparated.2.2.2) count
  | .skip inner, hrestores, hseparated => inner.reproduces hrestores.2 hseparated.2
  | .convert inner conversion, hrestores, hseparated =>
      reproduces_convert (inner.reproduces hrestores.2 hseparated.2) hrestores.1
  | .optional inner, hrestores, hseparated =>
      reproduces_optional (inner.reproduces hrestores.2 hseparated.2)
  | .endOfInput, _, _ => reproduces_endOfInput
  | .empty, _, _ => reproduces_empty
  | .integer t, _, _ => reproduces_integer t
  | .boolean, _, _ => reproduces_boolean

theorem Slots.reproduces {types : List Type} : (slots : Slots σ types) →
    slots.Everywhere Grammar.Restores → slots.Everywhere Grammar.Separated →
    Reproduces slots.read slots.write
  | .nil, _, _ => reproduces_empty
  | .keep first others, hrestores, hseparated =>
      reproduces_keep (first.reproduces hrestores.1 hseparated.1)
        (others.reproduces hrestores.2 hseparated.2)
  | .skip first others, hrestores, hseparated =>
      reproduces_skip (first.reproduces hrestores.1 hseparated.1)
        (others.reproduces hrestores.2 hseparated.2)

theorem Alternatives.reproduces {α : Type} : (alternatives : Alternatives σ α) →
    alternatives.Everywhere Grammar.Restores → alternatives.Everywhere Grammar.Separated →
    ∀ grammar ∈ alternatives.toList, Reproduces grammar.read grammar.write
  | .nil, _, _, _, h => absurd h List.not_mem_nil
  | .cons first others, hrestores, hseparated, grammar, h => by
      rcases List.mem_cons.mp h with heq | h
      · rw [heq]
        exact first.reproduces hrestores.1 hseparated.1
      · exact others.reproduces hrestores.2 hseparated.2 grammar h

end

namespace Grammar

theorem separated_of_noChoice (γ : Type) (grammar : Grammar σ γ) (h : NoChoice γ grammar) :
    Separated γ grammar := by
  cases grammar with
  | choice => exact h.elim
  | _ => trivial

/-- What a grammar read from the front of an input is written again, after any buffer, as
just the part of the input that was used: absent parts and empty repetitions as nothing,
runs that the length bound cut short as they were cut. Conversions have to restore what
they were applied to. Where there are choices, an alternative that is tried first in
writing has to refuse what a later one reads. -/
theorem reproduces_inputs {α : Type} (grammar : Grammar σ α)
    (hrestores : grammar.Everywhere Restores)
    (hchoices : grammar.Everywhere Separated ∨ grammar.Everywhere NoChoice) (input : Run σ)
    (value : α) (rest : Run σ) (h : (grammar.read input).Yields value rest) :
    ∃ consumed, input = consumed ++ rest ∧
      ∀ buffer, (grammar.write value buffer).Leaves (buffer ++ consumed) := by
  have hseparated : grammar.Everywhere Separated := by
    rcases hchoices with hseparated | hnone
    · exact hseparated
    · exact grammar.everywhere_mono separated_of_noChoice hnone
  exact grammar.reproduces hrestores hseparated input value rest h

/-- A number sign and digits. -/
def code : Grammar Char (Run Char) := .sequence
  (.skip (.text "#") (.keep (.run Char.isDigit ⟨1, 3⟩) .nil))

/-- Symbols other than digits and commas. -/
def word : Grammar Char (Run Char) := .run (fun c => !c.isDigit && c != ',') ⟨1, 100⟩

/-- Codes and words between commas. -/
def tags : Grammar Char (List String) :=
  separated (.convert (.orElse code word) .string) (.text ",")

theorem tags_restores : tags.Everywhere Restores := by
  have hcode : code.Everywhere Restores := ⟨trivial, trivial, trivial, trivial⟩
  exact ⟨trivial, ⟨Conversion.string_restores, trivial, hcode, trivial, trivial⟩, trivial, trivial⟩

/-- A word is tried before a code and refuses the digits of one. -/
theorem word_refuses_code {input value rest : Run Char}
    (h : (code.read input).Yields value rest) : (word.write value []).Refused := by
  obtain ⟨_, _, hdigits⟩ := Reader.skip_yields_iff.mp h
  obtain ⟨_, hrun, _⟩ := Reader.keep_yields_iff.mp hdigits
  obtain ⟨_, haccepts, hlength⟩ := Reader.run_yields hrun
  change value.all Char.isDigit = true at haccepts
  change (⟨1, 3⟩ : CountRange).contains value.length = true at hlength
  cases value with
  | nil => cases hlength
  | cons c others =>
      have hc : c.isDigit = true := List.all_eq_true.mp haccepts c List.mem_cons_self
      refine ⟨.unrepresentable "prefix predicate", ?_⟩
      simp [word, write, Writer.run, hc, Writing.fail]

theorem tags_separated : tags.Everywhere Separated := by
  have hcode : code.Everywhere Separated := ⟨trivial, trivial, trivial, trivial⟩
  refine ⟨trivial, ⟨trivial, ?_, hcode, trivial, trivial⟩, trivial, trivial⟩
  exact List.pairwise_pair.mpr fun input value rest h => word_refuses_code h

/-- The comma after the last tag is not read, and it is not written either. -/
theorem reproduces_inputs_tags : tags.Everywhere Restores ∧ tags.Everywhere Separated ∧
    (tags.read "#12,ab,#x,".toList).Yields ["12", "ab", "#x"] [','] ∧
    ∃ consumed, "#12,ab,#x,".toList = consumed ++ [','] ∧
      ∀ buffer, (tags.write ["12", "ab", "#x"] buffer).Leaves (buffer ++ consumed) := by
  have hread : (tags.read "#12,ab,#x,".toList).Yields ["12", "ab", "#x"] [','] :=
    ⟨by with_unfolding_all rfl, by with_unfolding_all rfl⟩
  refine ⟨tags_restores, tags_separated, hread, ?_⟩
  exact tags.reproduces_inputs tags_restores (Or.inl tags_separated) _ _ _ hread

end Grammar

end InvertibleGrammar
