/-!
# Ranges of counts

A range of 64-bit counts is kept by its least and its greatest member. Where no
count meets both bounds of a range, the least member exceeds the greatest.
-/

namespace InvertibleGrammar

/-- One end of a range, as it is asked for. -/
inductive Bound where
  /-- The count itself is allowed. -/
  | included (count : UInt64)
  /-- The count itself is the first that is not allowed. -/
  | excluded (count : UInt64)
  /-- Every count is allowed. -/
  | unbounded

namespace Bound

/-- The least count that a lower bound allows, if there is one. -/
def least? : Bound → Option UInt64
  | included count => some count
  | excluded count => if count.toNat + 1 < UInt64.size then some (count + 1) else none
  | unbounded => some 0

/-- The greatest count that an upper bound allows, if there is one. -/
def greatest? : Bound → Option UInt64
  | included count => some count
  | excluded count => if 0 < count.toNat then some (count - 1) else none
  | unbounded => some (.ofNat (UInt64.size - 1))

end Bound

/-- The counts from `min` to `max`, both included. -/
structure CountRange where
  /-- The least count of the range. -/
  min : UInt64
  /-- The greatest count of the range. -/
  max : UInt64
  deriving DecidableEq, Repr

namespace CountRange

/-- A range of no counts. -/
def none : CountRange := ⟨1, 0⟩

/-- The range of all counts. -/
def any : CountRange := ⟨0, .ofNat (UInt64.size - 1)⟩

/-- The range of one count. -/
def exactly (count : UInt64) : CountRange := ⟨count, count⟩

/-- The counts that meet a lower and an upper bound. -/
def ofBounds (lower upper : Bound) : CountRange :=
  match lower.least?, upper.greatest? with
  | some min, some max => ⟨min, max⟩
  | _, _ => none

/-- The counts up to `max`. -/
def atMost (max : UInt64) : CountRange := ofBounds .unbounded (.included max)

/-- Unless it is said otherwise, every count is allowed. -/
instance : Inhabited CountRange := ⟨any⟩

/-- Whether a count lies in the range. -/
def contains (range : CountRange) (count : Nat) : Bool :=
  range.min.toNat ≤ count && count ≤ range.max.toNat

variable {range : CountRange} {count : Nat}

theorem contains_iff :
    range.contains count = true ↔ range.min.toNat ≤ count ∧ count ≤ range.max.toNat := by
  rw [contains, Bool.and_eq_true, decide_eq_true_iff, decide_eq_true_iff]

/-- A range whose ends are not in order holds nothing. -/
theorem contains_eq_false (h : range.max < range.min) : range.contains count = false := by
  have hlt : range.max.toNat < range.min.toNat := h
  rw [Bool.eq_false_iff, Ne, contains_iff]
  omega

/-- Every 64-bit count lies in the range of all counts. -/
theorem any_contains (h : count < UInt64.size) : any.contains count = true :=
  contains_iff.mpr ⟨Nat.zero_le count, Nat.le_pred_of_lt h⟩

end CountRange

end InvertibleGrammar
