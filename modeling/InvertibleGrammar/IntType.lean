/-!
# Fixed-width integers

An integer type is named by its width and by whether it has negative values. Its
values are the integers between two bounds that always surround zero.
-/

namespace InvertibleGrammar

/-- The widths that an integer type may have. -/
inductive Width where
  | bits8
  | bits16
  | bits32
  | bits64
  | bits128
  deriving DecidableEq, Repr

/-- The number of bits of a width. -/
def Width.bits : Width → Nat
  | bits8 => 8
  | bits16 => 16
  | bits32 => 32
  | bits64 => 64
  | bits128 => 128

/-- A type of fixed-width integers. -/
structure IntType where
  /-- Whether the type has negative values. -/
  signed : Bool
  /-- The width in bits. -/
  width : Width
  deriving DecidableEq, Repr

namespace IntType

/-- The least value of a type. -/
def lo (t : IntType) : Int :=
  if t.signed then -Int.pow 2 (t.width.bits - 1) else 0

/-- The greatest value of a type. -/
def hi (t : IntType) : Int :=
  if t.signed then Int.pow 2 (t.width.bits - 1) - 1 else Int.pow 2 t.width.bits - 1

/-- The integers of a type. -/
def Value (t : IntType) : Type := { n : Int // t.lo ≤ n ∧ n ≤ t.hi }

instance (t : IntType) : DecidableEq t.Value := inferInstanceAs (DecidableEq (Subtype _))

/-- Zero and one lie between the bounds of every type. -/
theorem lo_le_zero_and_one_le_hi (t : IntType) : t.lo ≤ 0 ∧ 1 ≤ t.hi := by
  obtain ⟨signed, width⟩ := t
  cases signed <;> cases width <;> decide

/-- Zero, which every type has. -/
def zero (t : IntType) : t.Value :=
  ⟨0, t.lo_le_zero_and_one_le_hi.1, Int.le_trans (by decide) t.lo_le_zero_and_one_le_hi.2⟩

/-- An integer as a value of the type, if the type has it. -/
def ofInt? (t : IntType) (n : Int) : Option t.Value :=
  if h : t.lo ≤ n ∧ n ≤ t.hi then some ⟨n, h⟩ else none

/-- A value stands for an integer just if it is that integer. -/
theorem ofInt?_eq_some_iff {t : IntType} {n : Int} {m : t.Value} :
    t.ofInt? n = some m ↔ m.val = n := by
  constructor
  · intro h
    rw [ofInt?] at h
    split at h
    · rw [← Option.some.inj h]
    · cases h
  · rintro rfl
    exact dif_pos m.property

/-- An integer is left out just if it lies beyond a bound. -/
theorem ofInt?_eq_none_iff {t : IntType} {n : Int} :
    t.ofInt? n = none ↔ n < t.lo ∨ t.hi < n := by
  rw [ofInt?]
  split
  · simp only [reduceCtorEq, false_iff]
    omega
  · simp only [true_iff]
    omega

end IntType

end InvertibleGrammar
