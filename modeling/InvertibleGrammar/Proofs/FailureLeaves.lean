import InvertibleGrammar.Failure

/-!
# Failures within failures

The failure of a choice lists the failures of its alternatives, which may list others
in turn. The causes at the ends are its leaves. The position of a failure is the
greatest of those that its leaves have, so what bounds the leaves bounds the failure.
-/

namespace InvertibleGrammar.Failure

mutual

/-- The causes at the ends of a failure, in declared order. -/
def leaves : Failure → List Failure
  | exhausted failures => leavesOf failures
  | failure => [failure]

/-- The leaves of some failures, one failure after the other. -/
def leavesOf : List Failure → List Failure
  | [] => []
  | failure :: others => failure.leaves ++ leavesOf others

end

/-! ## Positions -/

/-- The greatest of two stretches of numbers is the greater one of theirs. -/
theorem max?_append (a b : List Nat) : (a ++ b).max? = a.max?.merge max b.max? := by
  induction a with
  | nil => simp
  | cons n others ih =>
      rw [List.cons_append, List.max?_cons, List.max?_cons, ih]
      cases others.max? with
      | none => cases b.max? <;> simp
      | some first => cases b.max? <;> simp [Nat.max_assoc]

/-- A cause that lists no others is its own leaf. -/
theorem offset?_eq_max?_of_leaf {length : Nat} {failure : Failure}
    (h : failure.leaves = [failure]) :
    failure.offset? length = (failure.leaves.filterMap (offset? length)).max? := by
  rw [h]
  cases ho : failure.offset? length with
  | none => simp [ho]
  | some offset => simp [ho]

mutual

/-- A failure stands at the greatest of the positions that its leaves have. -/
theorem offset?_eq_max? (length : Nat) : (failure : Failure) →
    failure.offset? length = (failure.leaves.filterMap (offset? length)).max?
  | exhausted failures => by
      rw [offset?, leaves, furthest?_eq_max? length failures]
  | endOfInput _ => offset?_eq_max?_of_leaf (by rw [leaves]; nofun)
  | unexpected _ _ => offset?_eq_max?_of_leaf (by rw [leaves]; nofun)
  | predicate _ _ => offset?_eq_max?_of_leaf (by rw [leaves]; nofun)
  | unrepresentable _ => offset?_eq_max?_of_leaf (by rw [leaves]; nofun)
  | conversion _ => offset?_eq_max?_of_leaf (by rw [leaves]; nofun)
  | extraData _ => offset?_eq_max?_of_leaf (by rw [leaves]; nofun)

theorem furthest?_eq_max? (length : Nat) : (failures : List Failure) →
    furthest? length failures = ((leavesOf failures).filterMap (offset? length)).max?
  | [] => by simp [furthest?, leavesOf]
  | failure :: others => by
      rw [furthest?, leavesOf, List.filterMap_append, max?_append,
        offset?_eq_max? length failure, furthest?_eq_max? length others]

end

/-- A failure has no position if none of its leaves has one. -/
theorem offset?_eq_none_iff {length : Nat} {failure : Failure} :
    failure.offset? length = none ↔ ∀ leaf ∈ failure.leaves, leaf.offset? length = none := by
  rw [offset?_eq_max?, List.max?_eq_none_iff, List.filterMap_eq_nil_iff]

/-- The position of a failure is that of one of its leaves. -/
theorem exists_leaf_of_offset? {length offset : Nat} {failure : Failure}
    (h : failure.offset? length = some offset) :
    ∃ leaf ∈ failure.leaves, leaf.offset? length = some offset := by
  rw [offset?_eq_max?, List.max?_eq_some_iff] at h
  exact List.mem_filterMap.mp h.1

/-! ## Kinds of causes -/

/-- A cause met in reading where at most `limit` bytes were left. -/
def Located (limit : Nat) : Failure → Prop
  | endOfInput _ => True
  | unexpected _ remaining => remaining ≤ limit
  | predicate _ remaining => remaining ≤ limit
  | conversion _ => True
  | unrepresentable _ | exhausted _ | extraData _ => False

/-- A cause for which a value is not written. -/
def Refusal : Failure → Prop
  | unrepresentable _ => True
  | conversion _ => True
  | endOfInput _ | unexpected _ _ | predicate _ _ | exhausted _ | extraData _ => False

theorem Located.leaves_eq {limit : Nat} {failure : Failure} (h : failure.Located limit) :
    failure.leaves = [failure] := by
  cases failure with
  | exhausted failures => exact h.elim
  | _ => rw [leaves]; nofun

theorem Refusal.leaves_eq {failure : Failure} (h : failure.Refusal) :
    failure.leaves = [failure] := by
  cases failure with
  | exhausted failures => exact h.elim
  | _ => rw [leaves]; nofun

theorem Refusal.offset?_eq_none {failure : Failure} (h : failure.Refusal) (length : Nat) :
    failure.offset? length = none := by
  cases failure with
  | unrepresentable reason => rfl
  | conversion reason => rfl
  | _ => exact h.elim

/-- A cause met where at most `limit` bytes were left stands within the last `limit` bytes,
unless it is that of a conversion. -/
theorem Located.offset? {limit length : Nat} {failure : Failure} (h : failure.Located limit)
    (hlimit : limit ≤ length) :
    (∃ reason, failure = .conversion reason) ∧ failure.offset? length = none ∨
      (∀ reason, failure ≠ .conversion reason) ∧ ∃ offset,
        failure.offset? length = some offset ∧ length - limit ≤ offset ∧ offset ≤ length := by
  have hposition {remaining : Nat} (hremaining : remaining ≤ limit) :
      ∃ offset, position? length remaining = some offset ∧
        length - limit ≤ offset ∧ offset ≤ length := by
    refine ⟨length - remaining, ?_, by omega, by omega⟩
    rw [position?, if_pos (by omega)]
  cases failure with
  | conversion reason => exact Or.inl ⟨⟨reason, rfl⟩, rfl⟩
  | endOfInput expected => exact Or.inr ⟨nofun, length, rfl, by omega, Nat.le_refl length⟩
  | unexpected expected remaining => exact Or.inr ⟨nofun, hposition h⟩
  | predicate expected remaining => exact Or.inr ⟨nofun, hposition h⟩
  | _ => exact h.elim

section Leaves

variable {limit length : Nat} {failure : Failure}

/-- A failure met in reading has no position just if conversions alone refused. -/
theorem offset?_eq_none_iff_of_located (h : ∀ leaf ∈ failure.leaves, leaf.Located limit)
    (hlimit : limit ≤ length) :
    failure.offset? length = none ↔
      ∀ leaf ∈ failure.leaves, ∃ reason, leaf = .conversion reason := by
  rw [offset?_eq_none_iff]
  apply forall₂_congr
  intro leaf hleaf
  rcases (h leaf hleaf).offset? hlimit with ⟨hconversion, hnone⟩ | ⟨hother, offset, hsome, _⟩
  · exact ⟨fun _ => hconversion, fun _ => hnone⟩
  · constructor
    · intro hnone
      exact absurd (hsome.symm.trans hnone) nofun
    · rintro ⟨reason, rfl⟩
      exact absurd rfl (hother reason)

/-- A failure met where at most `limit` bytes were left stands within the last `limit` bytes. -/
theorem offset?_bounds_of_located (h : ∀ leaf ∈ failure.leaves, leaf.Located limit)
    (hlimit : limit ≤ length) {offset : Nat} (hoffset : failure.offset? length = some offset) :
    length - limit ≤ offset ∧ offset ≤ length := by
  obtain ⟨leaf, hleaf, hsome⟩ := exists_leaf_of_offset? hoffset
  rcases (h leaf hleaf).offset? hlimit with ⟨_, hnone⟩ | ⟨_, found, hfound, hlow, hhigh⟩
  · exact absurd (hsome.symm.trans hnone) nofun
  · obtain rfl := Option.some.inj (hsome.symm.trans hfound)
    exact ⟨hlow, hhigh⟩

end Leaves

end InvertibleGrammar.Failure
