import InvertibleGrammar.Proofs.SeparatedLists
import InvertibleGrammar.Proofs.WritableRuns

/-!
# Lists of fields

Fields are runs of accepted symbols, with a separator that ends them. A field may be empty
where the separator in front of it is printed, so everywhere but at the start of the list.
An empty first field would leave the first iteration without a trace, which reading never
collects and writing refuses.
-/

namespace InvertibleGrammar.Grammar

variable {σ : Type} [Symbol σ] {accepts : σ → Bool} {separator : Run σ} {fields : List (Run σ)}

/-- Fields of accepted symbols, as many as there are, with the separator between them. -/
def fieldList (accepts : σ → Bool) (separator : Run σ) : Grammar σ (List (Run σ)) :=
  separated (run accepts .any) (literal separator)

/-- A field of any length that a machine can hold is accepted if its symbols are. -/
theorem field_accepted_iff {field : Run σ} (hlength : field.length < UInt64.size) :
    Part.Accepted ⟨run accepts .any, field⟩ ↔ ∀ s ∈ field, accepts s = true := by
  constructor
  · intro h
    exact (Writer.allowed_of_run_ok h).1
  · intro h
    exact congrArg Writing.result (Writer.run_of_allowed ⟨h, CountRange.any_contains hlength⟩ [])

/-- An accepted field is printed as it is. -/
theorem field_output {field : Run σ} (h : Part.Accepted ⟨run accepts .any, field⟩) :
    (run accepts .any).output field = field :=
  congrArg Writing.buffer (Writer.run_of_allowed (Writer.allowed_of_run_ok h) [])

/-- Fields can be written if their symbols are accepted and the first is not empty. -/
theorem fieldList_accepted_iff (hseparator : separator ≠ []) (hcount : fields.length < UInt64.size)
    (hlength : ∀ field ∈ fields, field.length < UInt64.size) :
    ((fieldList accepts separator).write fields []).result = .ok () ↔
      (∀ field ∈ fields, ∀ s ∈ field, accepts s = true) ∧
        ∀ first ∈ fields.head?, first ≠ [] := by
  have hterminator : Part.Accepted (⟨empty, ()⟩ : Part σ) := rfl
  have hlater : ∀ field ∈ fields.tail, separator ++ (run accepts .any).output field ≠ [] :=
    fun _ _ => List.append_ne_nil_of_left_ne_nil hseparator _
  have hfields : (∀ field ∈ fields, Part.Accepted ⟨run accepts .any, field⟩) ↔
      ∀ field ∈ fields, ∀ s ∈ field, accepts s = true :=
    forall₂_congr fun field hfield => field_accepted_iff (hlength field hfield)
  rw [fieldList, separated, repetition_accepted_iff hcount hterminator, ← hfields,
    and_iff_left hlater]
  refine and_congr_right fun haccepted => forall₂_congr fun first hfirst => ?_
  rw [field_output (haccepted first (List.mem_of_mem_head? hfirst))]

variable [DecidableEq σ]

/-- A field is read up to the separator or the end of the input. -/
theorem fields_readForms (hseparator : separator.Ends accepts)
    (haccepted : ∀ field ∈ fields, Part.Accepted ⟨run accepts .any, field⟩) :
    Reader.ReadsForms (run accepts .any).read separator (run accepts .any).output id fields := by
  intro field hfield rest hrest
  obtain ⟨haccepts, hlength⟩ := Writer.allowed_of_run_ok (haccepted field hfield)
  exact (run_roundTrips (List.all_eq_true.mpr haccepts) hlength
    (Or.inr (hseparator.head?_not_accepted hrest))).2

/-- If the separator ends fields, a list of them can be encoded just if all their symbols are
accepted and the first field, if there is one, is not empty. What it is encoded as is the
fields with the separator between them, and it is decoded to the same fields, empty ones at
later places included. Every list that is decoded, from whichever input, can be encoded. -/
theorem encode_fieldList_iff_and_decodeExact_intercalate (hseparator : separator.Ends accepts) :
    (∀ fields : List (Run σ), fields.length < UInt64.size →
      (∀ field ∈ fields, field.length < UInt64.size) →
      ((∃ text, ((fieldList accepts separator).encode fields).result = .ok text) ↔
        (∀ field ∈ fields, ∀ s ∈ field, accepts s = true) ∧
          ∀ first ∈ fields.head?, first ≠ []) ∧
      ∀ text, ((fieldList accepts separator).encode fields).result = .ok text →
        text = List.intercalate separator fields ∧
          ((fieldList accepts separator).decodeExact text).result = .ok fields) ∧
    ∀ input fields rest,
      ((fieldList accepts separator).decode input).result = .ok (fields, rest) →
        ∃ text, ((fieldList accepts separator).encode fields).result = .ok text := by
  refine ⟨fun fields hcount hlength => ⟨?_, ?_⟩, ?_⟩
  · exact exists_encode_ok_iff.trans (fieldList_accepted_iff hseparator.1 hcount hlength)
  · intro text htext
    obtain ⟨haccepted, rfl⟩ := encode_ok_iff.mp htext
    have hterminator : Part.Accepted (⟨empty, ()⟩ : Part σ) := rfl
    have hfields := ((repetition_accepted_iff hcount hterminator).mp haccepted).1
    have houtput : fields.map (run accepts .any).output = fields.map id :=
      List.map_congr_left fun field hfield => field_output (hfields field hfield)
    constructor
    · rw [fieldList, separated, repetition_output haccepted, houtput, List.map_id]
      exact List.append_nil _
    · have hdecoded := decodeExact_repetition hcount haccepted
        (fields_readForms hseparator hfields) (empty_roundTrips []) rfl
      rwa [List.map_id] at hdecoded
  · intro input fields rest h
    obtain ⟨text, _, hprints⟩ := reproduces_repetition (reproduces_run accepts .any)
      (reproduces_literal separator) reproduces_empty .any input fields rest (decode_ok_iff.mp h)
    exact ⟨text, encode_ok_iff.mpr (hprints [])⟩

/-- Between commas, the second and the last of four fields are empty. -/
theorem encode_fieldList_iff_and_decodeExact_intercalate_commas :
    Run.Ends (· != ',') [','] ∧
    let fields : List (Run Char) := [['a'], [], ['b'], []]
    fields.length < UInt64.size ∧ (∀ field ∈ fields, field.length < UInt64.size) ∧
    ((fieldList (· != ',') [',']).encode fields).result = .ok "a,,b,".toList ∧
    ((fieldList (· != ',') [',']).decodeExact "a,,b,".toList).result = .ok fields ∧
    ¬ ∃ text, ((fieldList (· != ',') [',']).encode [[], ['a']]).result = .ok text := by
  have hseparator : Run.Ends (· != ',') [','] := ⟨List.cons_ne_nil _ _, by rintro _ ⟨⟩; rfl⟩
  refine ⟨hseparator, ?_⟩
  intro fields
  have hcount : fields.length < UInt64.size := by decide
  have hlength : ∀ field ∈ fields, field.length < UInt64.size := by decide
  have hlists := (encode_fieldList_iff_and_decodeExact_intercalate hseparator).1
  obtain ⟨hencodes, hdecodes⟩ := hlists fields hcount hlength
  obtain ⟨text, htext⟩ := hencodes.mpr
    ⟨by simp [fields], by rintro _ ⟨⟩; exact List.cons_ne_nil _ _⟩
  obtain ⟨hjoined, hdecoded⟩ := hdecodes text htext
  have hprinted : text = "a,,b,".toList := by
    rw [hjoined]
    decide
  rw [← hprinted]
  refine ⟨hcount, hlength, htext, hdecoded, ?_⟩
  intro hencoded
  have hstarts := ((hlists [[], ['a']] (by decide) (by decide)).1.mp hencoded).2
  exact hstarts [] rfl rfl

end InvertibleGrammar.Grammar
