import InvertibleGrammar.Proofs.Causes
import Mathlib.Order.Bounds.Image

/-!
# The furthest position

A cause that says how many bytes were left stands where those bytes begin, in any input
that has so many. A failure stands at the furthest of the places of its leaves, and
nowhere if none of them has one. What is left behind a place does not change when the
input is seen as the end of a longer one: every place moves on by what comes before.
-/

namespace InvertibleGrammar.Failure

/-! ## Places of leaves -/

/-- How many bytes were left where a cause was met, for the causes that say so. Nothing is
left at the end of the input. -/
def remaining? : Failure → Option Nat
  | endOfInput _ => some 0
  | unexpected _ remaining => some remaining
  | predicate _ remaining => some remaining
  | extraData remaining => some remaining
  | unrepresentable _ | conversion _ | exhausted _ => none

/-- A cause stands at `offset` in an input of `length` bytes if what was left is the rest
of the input from there. -/
def StandsAt (length : Nat) (leaf : Failure) (offset : Nat) : Prop :=
  ∃ remaining ∈ leaf.remaining?, offset + remaining = length

/-- The places of the leaves of a failure in an input of `length` bytes. -/
def positions (length : Nat) (failure : Failure) : Set Nat :=
  {offset | ∃ leaf ∈ failure.leaves, leaf.StandsAt length offset}

/-- The causes that a failure records were met where at most `limit` bytes were left. -/
def RecordsWithin (limit : Nat) (failure : Failure) : Prop :=
  ∀ leaf ∈ failure.leaves, ∀ remaining ∈ leaf.remaining?, remaining ≤ limit

mutual

/-- No leaf lists other failures. -/
theorem ne_exhausted_of_mem_leaves {leaf : Failure} : (failure : Failure) →
    leaf ∈ failure.leaves → ∀ failures, leaf ≠ exhausted failures
  | exhausted failures, h => ne_exhausted_of_mem_leavesOf failures (by rwa [leaves] at h)
  | endOfInput _, h | unexpected _ _, h | predicate _ _, h | unrepresentable _, h
  | conversion _, h | extraData _, h => by
      rintro failures rfl
      simp [leaves] at h

theorem ne_exhausted_of_mem_leavesOf {leaf : Failure} : (failures : List Failure) →
    leaf ∈ leavesOf failures → ∀ others, leaf ≠ exhausted others
  | [], h => by
      rw [leavesOf] at h
      exact absurd h List.not_mem_nil
  | failure :: others, h => by
      rw [leavesOf] at h
      rcases List.mem_append.mp h with h | h
      · exact ne_exhausted_of_mem_leaves failure h
      · exact ne_exhausted_of_mem_leavesOf others h

end

theorem position?_eq_some_iff {length remaining offset : Nat} :
    position? length remaining = some offset ↔ offset + remaining = length := by
  rw [position?]
  split
  · rw [Option.some.injEq]
    omega
  · simp only [reduceCtorEq, false_iff]
    omega

variable {failure leaf : Failure} {length limit offset : Nat}

/-- The position of a leaf is the place where it stands. -/
theorem offset?_eq_some_iff_standsAt (h : leaf ∈ failure.leaves) :
    leaf.offset? length = some offset ↔ leaf.StandsAt length offset := by
  have hlists := ne_exhausted_of_mem_leaves failure h
  cases leaf with
  | exhausted failures => exact absurd rfl (hlists failures)
  | endOfInput expected => simp [offset?, StandsAt, remaining?, eq_comm]
  | unrepresentable reason => simp [offset?, StandsAt, remaining?]
  | conversion reason => simp [offset?, StandsAt, remaining?]
  | _ => simp [offset?, StandsAt, remaining?, position?_eq_some_iff]

/-! ## The position of a failure -/

/-- A failure stands at the furthest of the places of its leaves. -/
theorem offset?_eq_some_iff_isGreatest :
    failure.offset? length = some offset ↔ IsGreatest (failure.positions length) offset := by
  have hmem : ∀ place, place ∈ failure.leaves.filterMap (offset? length) ↔
      place ∈ failure.positions length := by
    intro place
    rw [List.mem_filterMap]
    exact exists_congr fun leaf => and_congr_right fun hleaf => offset?_eq_some_iff_standsAt hleaf
  rw [offset?_eq_max?, List.max?_eq_some_iff, hmem]
  exact and_congr_right' (forall_congr' fun place => imp_congr_left (hmem place))

/-- A failure stands nowhere if none of its leaves has a place. -/
theorem offset?_eq_none_iff_positions :
    failure.offset? length = none ↔ failure.positions length = ∅ := by
  rw [offset?_eq_none_iff, Set.eq_empty_iff_forall_notMem]
  constructor
  · rintro hnone offset ⟨leaf, hleaf, hstands⟩
    cases (hnone leaf hleaf).symm.trans ((offset?_eq_some_iff_standsAt hleaf).mpr hstands)
  · intro hempty leaf hleaf
    cases ho : leaf.offset? length with
    | none => rfl
    | some offset =>
        exact absurd ⟨leaf, hleaf, (offset?_eq_some_iff_standsAt hleaf).mp ho⟩ (hempty offset)

theorem le_of_mem_positions (h : offset ∈ failure.positions length) : offset ≤ length := by
  obtain ⟨leaf, _, remaining, _, hlength⟩ := h
  omega

/-! ## Longer inputs -/

/-- What comes before an input moves all places on. -/
theorem positions_add (h : failure.RecordsWithin limit) (before : Nat) :
    failure.positions (limit + before) = (· + before) '' failure.positions limit := by
  ext offset
  constructor
  · rintro ⟨leaf, hleaf, remaining, hremaining, hlength⟩
    have hle := h leaf hleaf remaining hremaining
    refine ⟨limit - remaining, ⟨leaf, hleaf, remaining, hremaining, by omega⟩, ?_⟩
    change limit - remaining + before = offset
    omega
  · rintro ⟨place, ⟨leaf, hleaf, remaining, hremaining, hlength⟩, rfl⟩
    refine ⟨leaf, hleaf, remaining, hremaining, ?_⟩
    change place + before + remaining = limit + before
    omega

theorem offset?_add (h : failure.RecordsWithin limit) (before : Nat) :
    failure.offset? (limit + before) = (failure.offset? limit).map (· + before) := by
  cases ho : failure.offset? limit with
  | none =>
      rw [Option.map_none, offset?_eq_none_iff_positions, positions_add h,
        offset?_eq_none_iff_positions.mp ho, Set.image_empty]
  | some offset =>
      rw [Option.map_some, offset?_eq_some_iff_isGreatest, positions_add h]
      have hmono : Monotone fun place : Nat => place + before :=
        fun _ _ hle => Nat.add_le_add_right hle before
      exact hmono.map_isGreatest (offset?_eq_some_iff_isGreatest.mp ho)

/-- What reading records lies within what there was to read. -/
theorem recordsWithin_of_located (h : ∀ leaf ∈ failure.leaves, leaf.Located limit) :
    failure.RecordsWithin limit := by
  intro leaf hleaf remaining hremaining
  have hlocated := h leaf hleaf
  cases leaf with
  | endOfInput expected =>
      cases hremaining
      exact Nat.zero_le limit
  | unexpected expected left =>
      cases hremaining
      exact hlocated
  | predicate expected left =>
      cases hremaining
      exact hlocated
  | extraData left => exact hlocated.elim
  | _ => cases hremaining

/-- In every input, a failure stands at the furthest of the places of its leaves, however the
choices that failed are nested, and nowhere if there is no such place. If no leaf records
more than was there, a longer input moves the failure on by what was put before. The failure
of a reading stands in a whole input where it stands in the part that was read, moved on by
what came before that part. -/
theorem offset_is_furthest_position :
    (∀ (failure : Failure) (length : Nat),
      (∀ offset, failure.offset? length = some offset ↔
        IsGreatest (failure.positions length) offset) ∧
      (failure.offset? length = none ↔ failure.positions length = ∅) ∧
      ∀ offset, failure.offset? length = some offset → offset ≤ length) ∧
    (∀ (failure : Failure) (limit : Nat), failure.RecordsWithin limit → ∀ before,
      failure.offset? (limit + before) = (failure.offset? limit).map (· + before)) ∧
    ∀ (σ α : Type) [Symbol σ] [DecidableEq σ] (grammar : Grammar σ α),
      grammar.Everywhere Grammar.GivesReasons → ∀ (rest : Run σ) (failure : Failure),
      (grammar.read rest).result = .error failure → ∀ lead : Run σ,
      failure.offset? (lead ++ rest).units =
        (failure.offset? rest.units).map (· + lead.units) := by
  refine ⟨?_, ?_, ?_⟩
  · intro failure length
    refine ⟨fun offset => offset?_eq_some_iff_isGreatest, offset?_eq_none_iff_positions, ?_⟩
    intro offset hoffset
    exact le_of_mem_positions (offset?_eq_some_iff_isGreatest.mp hoffset).1
  · intro failure limit hrecords before
    exact offset?_add hrecords before
  · intro σ α _ _ grammar hreasons rest failure hread lead
    have hlocated := Grammar.located_of_breaks hreasons ⟨hread, rfl⟩
    rw [Run.units_append, Nat.add_comm]
    exact offset?_add (recordsWithin_of_located hlocated) lead.units

/-- Choices within a choice: one without alternatives, and one that got further than the
others. -/
def nested : Failure :=
  .exhausted [.exhausted [], .unexpected "literal" 8,
    .exhausted [.predicate "prefix length" 3, .conversion "invalid utf-8"], .unexpected "boolean" 4]

/-- Either of two words. -/
def answer : Grammar Char Unit := .orElse (.text "yes") (.text "no")

/-- The furthest leaf lies in an inner choice. Of the words, the first got to the end of what
was read, which stays the end behind something else. -/
theorem offset_is_furthest_position_nested :
    nested.RecordsWithin 8 ∧ nested.offset? 8 = some 5 ∧ 5 ≤ 8 ∧
      nested.offset? (8 + 4) = some 9 ∧ answer.Everywhere Grammar.GivesReasons ∧
      (answer.read "ye".toList).result =
        .error (.exhausted [.endOfInput "literal", .unexpected "literal" 2]) ∧
      (Failure.exhausted [.endOfInput "literal", .unexpected "literal" 2]).offset?
        (Run.units ("say ".toList ++ "ye".toList)) = some 6 := by
  have hrecords : nested.RecordsWithin 8 := by
    simp [RecordsWithin, nested, leaves, leavesOf, remaining?]
  have hoffset : nested.offset? 8 = some 5 := rfl
  have hreasons : answer.Everywhere Grammar.GivesReasons := ⟨trivial, trivial, trivial, trivial⟩
  have hread : (answer.read "ye".toList).result =
      .error (.exhausted [.endOfInput "literal", .unexpected "literal" 2]) := by
    with_unfolding_all rfl
  obtain ⟨hposition, hbefore, hpart⟩ := offset_is_furthest_position
  refine ⟨hrecords, hoffset, (hposition nested 8).2.2 5 hoffset, ?_, hreasons, hread, ?_⟩
  · rw [hbefore nested 8 hrecords 4, hoffset]
    rfl
  · exact hpart Char Unit answer hreasons "ye".toList _ hread "say ".toList

end InvertibleGrammar.Failure
