import InvertibleGrammar.Proofs.AppendOnly

/-!
# Parts

A sequence is written part by part. Each slot together with its value is a part,
the parts are written in order, and the first refusal ends the writing. What the
earlier parts wrote then stays, before whatever the refused part leaves.
-/

namespace InvertibleGrammar

/-- A grammar together with a value to be written. -/
structure Part (σ : Type) where
  {α : Type}
  grammar : Grammar σ α
  value : α

namespace Writing

variable {σ ε : Type}

@[simp] theorem succeed_andThen (buffer : Run σ) (next : Run σ → Writing σ ε) :
    (succeed buffer).andThen next = next buffer := by
  simp [andThen, succeed]

theorem andThen_assoc (writing : Writing σ ε) (f g : Run σ → Writing σ ε) :
    (writing.andThen f).andThen g = writing.andThen fun buffer => (f buffer).andThen g := by
  cases hr : writing.result with
  | error cause => simp [andThen, hr]
  | ok _ =>
      cases hf : (f writing.buffer).result with
      | error cause => simp [andThen, hr, hf]
      | ok _ => simp [andThen, hr, hf]

theorem andThen_of_error {writing : Writing σ ε} {cause : ε} (h : writing.result = .error cause)
    (next : Run σ → Writing σ ε) : writing.andThen next = writing := by
  cases writing with
  | mk result buffer log =>
      subst h
      rfl

theorem andThen_succeed (writing : Writing σ ε) : writing.andThen succeed = writing := by
  cases writing with
  | mk result buffer log =>
      cases result with
      | error cause => rfl
      | ok _ => simp [andThen, succeed]

end Writing

namespace Part

variable {σ : Type} [Symbol σ]

/-- Writes the part after a buffer. -/
def write (part : Part σ) (buffer : Run σ) : Writing σ Failure :=
  part.grammar.write part.value buffer

/-- What the part appends, also if it is refused in the end. -/
def output (part : Part σ) : Run σ := (part.write []).buffer

/-- Whether writing the part succeeds. -/
def Accepted (part : Part σ) : Prop := (part.write []).result = .ok ()

/-- Writes parts in order up to the first refusal. -/
def writeAll : List (Part σ) → Run σ → Writing σ Failure
  | [], buffer => .succeed buffer
  | part :: others, buffer => (part.write buffer).andThen (writeAll others)

theorem write_buffer (part : Part σ) (buffer : Run σ) :
    (part.write buffer).buffer = buffer ++ part.output := by
  rw [write, part.grammar.write_appendOnly part.value buffer]
  rfl

theorem write_result (part : Part σ) (buffer : Run σ) :
    (part.write buffer).result = (part.write []).result := by
  rw [write, part.grammar.write_appendOnly part.value buffer]
  rfl

theorem writeAll_append (front back : List (Part σ)) (buffer : Run σ) :
    writeAll (front ++ back) buffer = (writeAll front buffer).andThen (writeAll back) := by
  induction front generalizing buffer with
  | nil => simp [writeAll]
  | cons part others ih =>
      simp only [List.cons_append, writeAll, Writing.andThen_assoc, ← ih]

/-- Accepted parts leave their outputs, one after the other. -/
theorem writeAll_of_accepted {parts : List (Part σ)} (h : ∀ part ∈ parts, part.Accepted)
    (buffer : Run σ) :
    (writeAll parts buffer).result = .ok () ∧
      (writeAll parts buffer).buffer = buffer ++ parts.flatMap output := by
  induction parts generalizing buffer with
  | nil => simp [writeAll, Writing.succeed]
  | cons part others ih =>
      have hpart : (part.write buffer).result = .ok () := by
        rw [part.write_result]
        exact h part (by simp)
      obtain ⟨hresult, hbuffer⟩ :=
        ih (fun other hother => h other (by simp [hother])) (buffer ++ part.output)
      simp [writeAll, Writing.andThen, hpart, part.write_buffer, hresult, hbuffer]

/-- Parts that were all written are accepted. -/
theorem accepted_of_writeAll {parts : List (Part σ)} {buffer : Run σ}
    (h : (writeAll parts buffer).result = .ok ()) : ∀ part ∈ parts, part.Accepted := by
  induction parts generalizing buffer with
  | nil => simp
  | cons part others ih =>
      cases hpart : (part.write buffer).result with
      | error cause =>
          rw [writeAll, Writing.andThen_of_error hpart, hpart] at h
          cases h
      | ok _ =>
          have hothers : (writeAll others (part.write buffer).buffer).result = .ok () := by
            simpa [writeAll, Writing.andThen, hpart] using h
          intro other hother
          rcases List.mem_cons.mp hother with rfl | hother
          · rw [Accepted, ← other.write_result buffer, hpart]
          · exact ih hothers other hother

/-- A refusal is that of the first part refused. Nothing after that part is written. -/
theorem exists_of_writeAll_error {parts : List (Part σ)} {buffer : Run σ} {cause : Failure}
    (h : (writeAll parts buffer).result = .error cause) :
    ∃ earlier part later, parts = earlier ++ part :: later ∧
      (∀ other ∈ earlier, other.Accepted) ∧ (part.write []).result = .error cause ∧
      writeAll parts buffer = writeAll (earlier ++ [part]) buffer := by
  induction parts generalizing buffer with
  | nil => cases h
  | cons part others ih =>
      cases hpart : (part.write buffer).result with
      | error refusal =>
          have hstop := Writing.andThen_of_error hpart (writeAll others)
          have hcause : refusal = cause := by
            rw [writeAll, hstop, hpart] at h
            exact Except.error.inj h
          refine ⟨[], part, others, rfl, ?_, ?_, ?_⟩
          · intro other hother
            exact absurd hother List.not_mem_nil
          · rw [← part.write_result buffer, hpart, hcause]
          · simp only [List.nil_append, writeAll]
            rw [hstop, Writing.andThen_of_error hpart]
      | ok _ =>
          have haccepted : part.Accepted := by
            rw [Accepted, ← part.write_result buffer, hpart]
          have hothers : (writeAll others (part.write buffer).buffer).result = .error cause := by
            simpa [writeAll, Writing.andThen, hpart] using h
          obtain ⟨earlier, refused, later, hsplit, hearlier, hrefused, hwrite⟩ := ih hothers
          refine ⟨part :: earlier, refused, later, by rw [hsplit]; rfl, ?_, hrefused, ?_⟩
          · intro other hother
            rcases List.mem_cons.mp hother with rfl | hother
            · exact haccepted
            · exact hearlier other hother
          · simp only [List.cons_append, writeAll, Writing.andThen, hpart, hwrite]

/-- What a refusal leaves: the outputs of the parts before it and its own. -/
theorem writeAll_buffer_of_refused {earlier : List (Part σ)} (part : Part σ)
    (h : ∀ other ∈ earlier, other.Accepted) (buffer : Run σ) :
    (writeAll (earlier ++ [part]) buffer).buffer =
      buffer ++ earlier.flatMap output ++ part.output := by
  obtain ⟨hresult, hbuffer⟩ := writeAll_of_accepted h buffer
  have hsingle (now : Run σ) : writeAll [part] now = part.write now := by
    simp only [writeAll]
    exact Writing.andThen_succeed _
  rw [writeAll_append]
  simp only [Writing.andThen, hresult, hbuffer, hsingle, part.write_buffer]

end Part

variable {σ : Type}

/-- The slots of a sequence with the values they are written with, in order. -/
def Slots.parts {types : List Type} : Slots σ types → Tuple types → List (Part σ)
  | .nil, _ => []
  | .keep first others, tuple => ⟨first, tuple.head⟩ :: others.parts tuple.tail
  | .skip first others, tuple => ⟨first, ()⟩ :: others.parts tuple

/-- A sequence is written part by part. -/
theorem Slots.write_eq_writeAll [Symbol σ] {types : List Type} : (slots : Slots σ types) →
    (tuple : Tuple types) → (buffer : Run σ) →
    slots.write tuple buffer = Part.writeAll (slots.parts tuple) buffer
  | .nil, _, _ => rfl
  | .keep first others, tuple, buffer => by
      have hothers : others.write tuple.tail = Part.writeAll (others.parts tuple.tail) :=
        funext (others.write_eq_writeAll tuple.tail)
      simp only [Slots.write, Writer.keep, Slots.parts, Part.writeAll, Part.write, hothers]
  | .skip first others, tuple, buffer => by
      have hothers : others.write tuple = Part.writeAll (others.parts tuple) :=
        funext (others.write_eq_writeAll tuple)
      simp only [Slots.write, Writer.skip, Slots.parts, Part.writeAll, Part.write, hothers]

end InvertibleGrammar
