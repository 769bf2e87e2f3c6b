import Mathlib.Tactic.TFAE
import InvertibleGrammar.Proofs.LeafRoundTrips

/-!
# Runs that can be written

A run is written just if it could have been read. Reading stops at the greatest length and
then looks whether it reached the least one, writing looks at every symbol and counts
afterwards, but both come to the same runs: those of accepted symbols whose number is
allowed. An empty range allows none.
-/

namespace InvertibleGrammar

variable {σ : Type} {accepts : σ → Bool} {length : CountRange} {value : Run σ}

/-- All symbols of the run are accepted, and their number is allowed. -/
def Run.Allowed (accepts : σ → Bool) (length : CountRange) (value : Run σ) : Prop :=
  (∀ symbol ∈ value, accepts symbol = true) ∧ length.contains value.length = true

/-! ## Writing -/

namespace Writer

/-- A symbol that is not accepted counts before the length of the run. -/
theorem run_of_not_accepted (h : ∃ symbol ∈ value, accepts symbol = false) (buffer : Run σ) :
    run accepts length value buffer = .fail (.unrepresentable "prefix predicate") buffer := by
  have hall : (!value.all accepts) = true := by simpa using h
  rw [run, if_pos hall]

theorem run_of_not_contains (haccepts : ∀ symbol ∈ value, accepts symbol = true)
    (hlength : length.contains value.length = false) (buffer : Run σ) :
    run accepts length value buffer = .fail (.unrepresentable "prefix length") buffer := by
  have hall : ¬ (!value.all accepts) = true := by simpa using haccepts
  rw [run, if_neg hall, hlength]
  rfl

theorem run_of_allowed (h : value.Allowed accepts length) (buffer : Run σ) :
    run accepts length value buffer = .succeed (buffer ++ value) := by
  have hall : ¬ (!value.all accepts) = true := by simpa using h.1
  rw [run, if_neg hall, h.2]
  rfl

/-- A run that is written is allowed, since either fault would have it refused. -/
theorem allowed_of_run_ok {buffer : Run σ}
    (h : (run accepts length value buffer).result = .ok ()) : value.Allowed accepts length := by
  by_cases haccepts : ∀ symbol ∈ value, accepts symbol = true
  · cases hlength : length.contains value.length with
    | true => exact ⟨haccepts, hlength⟩
    | false =>
        rw [run_of_not_contains haccepts hlength] at h
        cases h
  · have hsymbol : ∃ symbol ∈ value, accepts symbol = false := by simpa using haccepts
    rw [run_of_not_accepted hsymbol] at h
    cases h

end Writer

/-! ## Both directions -/

namespace Grammar

variable [Symbol σ] [DecidableEq σ]

/-- A run that is allowed makes up a whole input. -/
theorem decodeExact_run_of_allowed (h : value.Allowed accepts length) :
    ((run accepts length).decodeExact value).result = .ok value := by
  have hroundTrips : (run accepts length).RoundTrips value [] :=
    run_roundTrips (List.all_eq_true.mpr h.1) h.2 (Or.inr (by simp))
  have houtput : (run accepts length).output value = value :=
    congrArg Writing.buffer (Writer.run_of_allowed h [])
  simpa only [houtput] using decodeExact_output hroundTrips

/-- A run can be written just if it can be read: from itself as the whole input, or from
any input at all. These are the runs of accepted symbols whose number is allowed. What is
written is the run itself. A run that is refused leaves the buffer as it was, and a symbol
that is not accepted is given as the cause before the length is. -/
theorem run_written_iff_readable (accepts : σ → Bool) (length : CountRange)
    (value buffer : Run σ) :
    List.TFAE [
      ((run accepts length).write value buffer).result = .ok (),
      ((run accepts length).decodeExact value).result = .ok value,
      ∃ input rest, ((run accepts length).read input).Yields value rest,
      (∀ symbol ∈ value, accepts symbol = true) ∧ length.contains value.length = true] ∧
    (((run accepts length).write value buffer).result = .ok () →
      ((run accepts length).write value buffer).buffer = buffer ++ value) ∧
    ((∃ symbol ∈ value, accepts symbol = false) →
      (run accepts length).write value buffer =
        .fail (.unrepresentable "prefix predicate") buffer) ∧
    ((∀ symbol ∈ value, accepts symbol = true) → length.contains value.length = false →
      (run accepts length).write value buffer =
        .fail (.unrepresentable "prefix length") buffer) := by
  refine ⟨?_, ?_, ?_, ?_⟩
  · tfae_have 1 → 4 := Writer.allowed_of_run_ok
    tfae_have 4 → 2 := decodeExact_run_of_allowed
    tfae_have 2 → 3 := fun h => ⟨value, [], decodeExact_ok_iff.mp h⟩
    tfae_have 3 → 4 := by
      rintro ⟨input, rest, h⟩
      obtain ⟨_, haccepts, hlength⟩ := Reader.run_yields h
      exact ⟨List.all_eq_true.mp haccepts, hlength⟩
    tfae_have 4 → 1 := fun h => congrArg Writing.result (Writer.run_of_allowed h buffer)
    tfae_finish
  · intro h
    exact congrArg Writing.buffer (Writer.run_of_allowed (Writer.allowed_of_run_ok h) buffer)
  · intro h
    exact Writer.run_of_not_accepted h buffer
  · intro haccepts hlength
    exact Writer.run_of_not_contains haccepts hlength buffer

/-- Of two or three symbols other than blanks, two umlauts can be written. A blank is the
cause of a refusal also where there are too many symbols. -/
theorem run_written_iff_readable_umlauts :
    ((run (· != ' ') ⟨2, 3⟩).write ['ä', 'ö'] ['=']).buffer = ['=', 'ä', 'ö'] ∧
      ((run (· != ' ') ⟨2, 3⟩).decodeExact ['ä', 'ö']).result = .ok ['ä', 'ö'] ∧
      (run (· != ' ') ⟨2, 3⟩).write ['ä', ' ', 'ö', 'ü'] ['='] =
        .fail (.unrepresentable "prefix predicate") ['='] ∧
      (run (· != ' ') ⟨2, 3⟩).write ['ä', 'ö', 'ü', 'ß'] ['='] =
        .fail (.unrepresentable "prefix length") ['='] := by
  have hwritten : ((run (· != ' ') ⟨2, 3⟩).write ['ä', 'ö'] ['=']).result = .ok () := rfl
  obtain ⟨hreadable, hbuffer, _⟩ :=
    run_written_iff_readable (· != ' ') ⟨2, 3⟩ ['ä', 'ö'] ['=']
  refine ⟨hbuffer hwritten, (hreadable.out 0 1).mp hwritten, ?_, ?_⟩
  · exact (run_written_iff_readable _ _ _ _).2.2.1 ⟨' ', by simp, rfl⟩
  · exact (run_written_iff_readable _ _ _ _).2.2.2 (by simp) rfl

end Grammar

end InvertibleGrammar
