import InvertibleGrammar.Proofs.FailedReading
import InvertibleGrammar.Proofs.FailedWriting
import InvertibleGrammar.Proofs.Refusals
import InvertibleGrammar.Proofs.SuccessfulWriting

/-!
# The first success of a choice

A choice does what the first of its alternatives does that succeeds, each of them started
on the same input or the same buffer. Alternatives that failed before it leave no trace in
either. If all of them fail, the choice lists their failures in declared order, and the
input or the buffer is what it was.
-/

namespace InvertibleGrammar

/-- The value was refused for a cause, and `buffer` was left. -/
def Writing.RefusedFor {σ ε : Type} (writing : Writing σ ε) (cause : ε) (buffer : Run σ) : Prop :=
  writing.result = .error cause ∧ writing.buffer = buffer

namespace Grammar

variable {σ α : Type} [Symbol σ]

theorem write_choice_left? (alternatives : Alternatives σ α) (order : PrintOrder) (value : α)
    (buffer : Run σ) :
    ((choice alternatives order).write value buffer).left? =
      (order.arrange alternatives.toList).findSome?
        fun grammar => (grammar.write value buffer).left? := by
  rw [write, Writer.choice_left? order value buffer alternatives.writers_appendOnly,
    alternatives.writers_eq_map, order.arrange_map, List.findSome?_map]
  rfl

theorem write_choice_error_iff {alternatives : Alternatives σ α} {order : PrintOrder} {value : α}
    {buffer : Run σ} {cause : Failure} :
    ((choice alternatives order).write value buffer).result = .error cause ↔
      ∃ causes, alternatives.toList.map (fun grammar => (grammar.write value buffer).result) =
        causes.map .error ∧ .exhausted causes = cause := by
  rw [write, Writer.choice_error_iff alternatives.writers_appendOnly,
    alternatives.writers_eq_map, List.map_map]
  rfl

/-- A choice that is refused leaves the buffer as it was. -/
theorem write_choice_refusedFor_iff {alternatives : Alternatives σ α} {order : PrintOrder}
    {value : α} {buffer left : Run σ} {cause : Failure} :
    ((choice alternatives order).write value buffer).RefusedFor cause left ↔
      ((choice alternatives order).write value buffer).result = .error cause ∧ buffer = left := by
  apply and_congr_right
  intro hrefused
  rw [buffer_of_write_error (choice alternatives order) rfl hrefused]

/-- The order of trying decides which alternative writes, but not for which cause a value
is refused. -/
theorem write_choice_result (alternatives : Alternatives σ α) (order order' : PrintOrder)
    (value : α) (buffer : Run σ) :
    ((choice alternatives order).write value buffer).result =
      ((choice alternatives order').write value buffer).result := by
  have hcause (cause : Failure) :
      ((choice alternatives order).write value buffer).result = .error cause ↔
        ((choice alternatives order').write value buffer).result = .error cause :=
    write_choice_error_iff.trans write_choice_error_iff.symm
  cases hr : ((choice alternatives order).write value buffer).result with
  | error cause => exact ((hcause cause).mp hr).symm
  | ok _ =>
      cases hr' : ((choice alternatives order').write value buffer).result with
      | ok _ => rfl
      | error cause => cases hr.symm.trans ((hcause cause).mpr hr')

/-- Each of three alternatives writes its tag before it refuses the value. In both orders of
trying the tags are cut off again, and the causes are listed as declared. -/
example (order : PrintOrder) :
    let tagged (tag symbol : Char) (length : CountRange) : Grammar Char (Run Char) :=
      .sequence (.skip (.literal [tag]) (.keep (.run (· == symbol) length) .nil))
    let alternatives : Alternatives Char (Run Char) :=
      .ofList [tagged '1' 'x' ⟨3, 4⟩, tagged '2' 'y' .any, tagged '3' 'z' .any]
    ((choice alternatives order).write ['x', 'x'] ['>']).RefusedFor
      (.exhausted [.unrepresentable "prefix length", .unrepresentable "prefix predicate",
        .unrepresentable "prefix predicate"]) ['>'] := by
  cases order with
  | reverse => exact ⟨rfl, rfl⟩
  | declared => exact ⟨rfl, rfl⟩

variable [DecidableEq σ]

theorem read_choice_found? (alternatives : Alternatives σ α) (order : PrintOrder)
    (input : Run σ) :
    ((choice alternatives order).read input).found? =
      alternatives.toList.findSome? fun grammar => (grammar.read input).found? := by
  rw [read, Reader.choice_found?, alternatives.readers_eq_map, List.findSome?_map]
  rfl

theorem read_choice_breaks_iff {alternatives : Alternatives σ α} {order : PrintOrder}
    {input rest : Run σ} {cause : Failure} :
    ((choice alternatives order).read input).Breaks cause rest ↔
      ∃ causes, alternatives.toList.map (fun grammar => (grammar.read input).result) =
        causes.map .error ∧ .exhausted causes = cause ∧ input = rest := by
  rw [read, Reader.choice_breaks_iff, alternatives.readers_eq_map, List.map_map]
  rfl

/-- A choice reads as the first alternative that succeeds on the input itself, in declared
order. It writes as the first that succeeds on the buffer itself, in the order of trying.
If there is none, it lists the failures of the alternatives in declared order, and gives
back the input or leaves the buffer as it was. So the order of trying makes no difference
to whether a value is written, nor to the cause of a refusal. -/
theorem choice_takes_first_success (alternatives : Alternatives σ α) (order : PrintOrder) :
    (∀ input,
      ((choice alternatives order).read input).found? =
        alternatives.toList.findSome? fun grammar => (grammar.read input).found?) ∧
    (∀ input cause rest,
      ((choice alternatives order).read input).Breaks cause rest ↔
        ∃ causes, alternatives.toList.map (fun grammar => (grammar.read input).result) =
          causes.map .error ∧ .exhausted causes = cause ∧ input = rest) ∧
    (∀ value buffer,
      ((choice alternatives order).write value buffer).left? =
        (order.arrange alternatives.toList).findSome?
          fun grammar => (grammar.write value buffer).left?) ∧
    (∀ value buffer cause left,
      ((choice alternatives order).write value buffer).RefusedFor cause left ↔
        ∃ causes,
          alternatives.toList.map (fun grammar => (grammar.write value buffer).result) =
            causes.map .error ∧ .exhausted causes = cause ∧ buffer = left) ∧
    ∀ value buffer,
      ((choice alternatives .reverse).write value buffer).result =
        ((choice alternatives .declared).write value buffer).result := by
  refine ⟨read_choice_found? alternatives order, fun _ _ _ => read_choice_breaks_iff,
    write_choice_left? alternatives order, ?_, write_choice_result alternatives _ _⟩
  intro value buffer cause left
  rw [write_choice_refusedFor_iff, write_choice_error_iff, ← exists_and_right]
  simp only [and_assoc]

end Grammar

end InvertibleGrammar
