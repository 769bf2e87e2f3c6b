import InvertibleGrammar.Proofs.Parts

/-!
# Sequences one after the other

The slots of two sequences make one sequence. It is read as the first and, if that one
succeeds, the second behind it, and its values are those of the first and then those of
the second. It is written in the same order, each part from its share of the values. So
slots that leave no value may be put into a sequence of their own, and a sequence may be
built from either end: with each slot in front of those to come, or behind those before it.
-/

namespace InvertibleGrammar

namespace Reading

variable {σ ε α β γ : Type}

theorem andThen_assoc (reading : Reading σ ε α) (f : α → Run σ → Reading σ ε β)
    (g : β → Run σ → Reading σ ε γ) :
    (reading.andThen f).andThen g =
      reading.andThen fun value rest => (f value rest).andThen g := by
  cases hr : reading.result with
  | error cause => simp [andThen, hr]
  | ok value =>
      cases hf : (f value reading.rest).result with
      | error cause => simp [andThen, hr, hf]
      | ok _ => simp [andThen, hr, hf]

theorem map_id (reading : Reading σ ε α) : (reading.map fun value => value) = reading := by
  cases reading with
  | mk result rest log =>
      cases result with
      | ok value => rfl
      | error cause => rfl

theorem map_map (reading : Reading σ ε α) (f : α → β) (g : β → γ) :
    (reading.map f).map g = reading.map fun value => g (f value) := by
  cases hr : reading.result with
  | error cause => simp [map, hr, Except.map]
  | ok value => simp [map, hr, Except.map]

/-- A value that is changed before reading goes on is changed for what comes next. -/
theorem map_andThen (reading : Reading σ ε α) (f : α → β) (next : β → Run σ → Reading σ ε γ) :
    (reading.map f).andThen next = reading.andThen fun value => next (f value) := by
  cases hr : reading.result with
  | error cause => simp [map, andThen, hr, Except.map]
  | ok value => simp [map, andThen, hr, Except.map]

theorem andThen_map (reading : Reading σ ε α) (next : α → Run σ → Reading σ ε β) (f : β → γ) :
    (reading.andThen next).map f = reading.andThen fun value rest => (next value rest).map f := by
  cases hr : reading.result with
  | error cause => simp [map, andThen, hr, Except.map]
  | ok value => simp [map, andThen, hr]

/-- A value that is found and handed on is found. -/
theorem andThen_succeed (reading : Reading σ ε α) : reading.andThen succeed = reading := by
  cases reading with
  | mk result rest log =>
      cases result with
      | error cause => rfl
      | ok value => simp [andThen, succeed]

end Reading

/-! ## Tuples -/

namespace Tuple

/-- The values of a tuple, then those of another. -/
def append : {types types' : List Type} → Tuple types → Tuple types' → Tuple (types ++ types')
  | [], _, _, others => others
  | _ :: _, _, tuple, others => cons tuple.head (tuple.tail.append others)

/-- The values of the first types, and those of the other types. -/
def split : {types types' : List Type} → Tuple (types ++ types') → Tuple types × Tuple types'
  | [], _, tuple => ((), tuple)
  | _ :: _, _, tuple => (cons tuple.head tuple.tail.split.1, tuple.tail.split.2)

/-- The values of a tuple one by one, each with its type. -/
def values : {types : List Type} → Tuple types → List (Σ α : Type, α)
  | [], _ => []
  | α :: _, tuple => ⟨α, tuple.head⟩ :: tuple.tail.values

/-- No value is shown by the empty tuple, one value by itself, and more by a proper tuple. -/
example (n : Nat) (c : Char) (b : Bool) :
    @values [] () = [] ∧ @values [Nat] n = [⟨Nat, n⟩] ∧
      @values [Nat, Char, Bool] (n, c, b) = [⟨Nat, n⟩, ⟨Char, c⟩, ⟨Bool, b⟩] :=
  ⟨rfl, rfl, rfl⟩

variable {types types' : List Type}

theorem cons_append {α : Type} (value : α) (tuple : Tuple types) (others : Tuple types') :
    append (cons value tuple) others = cons value (tuple.append others) := by
  rw [append, head_cons, tail_cons]

theorem split_append (tuple : Tuple types) (others : Tuple types') :
    (tuple.append others).split = (tuple, others) := by
  induction types with
  | nil => rfl
  | cons α types ih =>
      rw [append, split, tail_cons, head_cons, ih, cons_head_tail]

theorem append_split (tuple : Tuple (types ++ types')) :
    tuple.split.1.append tuple.split.2 = tuple := by
  induction types with
  | nil => rfl
  | cons α types ih =>
      rw [split, cons_append, ih, cons_head_tail]

theorem values_append (tuple : Tuple types) (others : Tuple types') :
    (tuple.append others).values = tuple.values ++ others.values := by
  induction types with
  | nil => rfl
  | cons α types ih =>
      rw [append, values, values, tail_cons, head_cons, ih, List.cons_append]

end Tuple

/-! ## Slots -/

namespace Slots

variable {σ : Type}

/-- The slots of a sequence, then those of another. -/
def append {types types' : List Type} : Slots σ types → Slots σ types' → Slots σ (types ++ types')
  | .nil, back => back
  | .keep first others, back => .keep first (others.append back)
  | .skip first others, back => .skip first (others.append back)

/-- Slots with one more behind them, whose value is kept. -/
def thenKeep {α : Type} {types : List Type} (front : Slots σ types) (last : Grammar σ α) :
    Slots σ (types ++ [α]) :=
  front.append (.keep last .nil)

/-- Slots with one more behind them, which leaves no value. -/
def thenSkip {types : List Type} : Slots σ types → Grammar σ Unit → Slots σ types
  | .nil, last => .skip last .nil
  | .keep first others, last => .keep first (others.thenSkip last)
  | .skip first others, last => .skip first (others.thenSkip last)

variable [Symbol σ]

/-- Slots that are appended are written behind the others, from the values behind theirs. -/
theorem write_append {types types' : List Type} : (front : Slots σ types) →
    (back : Slots σ types') → (tuple : Tuple (types ++ types')) → (buffer : Run σ) →
    (front.append back).write tuple buffer =
      (front.write tuple.split.1 buffer).andThen (back.write tuple.split.2)
  | .nil, _, _, _ => (Writing.succeed_andThen _ _).symm
  | .keep first others, back, tuple, buffer => by
      have hothers : (others.append back).write tuple.tail = fun now =>
          (others.write tuple.tail.split.1 now).andThen (back.write tuple.tail.split.2) :=
        funext (others.write_append back tuple.tail)
      simp only [append, write, Writer.keep, hothers, Tuple.split, Tuple.head_cons,
        Tuple.tail_cons, Writing.andThen_assoc]
  | .skip first others, back, tuple, buffer => by
      have hothers : (others.append back).write tuple = fun now =>
          (others.write tuple.split.1 now).andThen (back.write tuple.split.2) :=
        funext (others.write_append back tuple)
      simp only [append, write, Writer.skip, hothers, Writing.andThen_assoc]

/-- A slot that is added at the end is written last: its value is split off the others, and
written once the slots in front have written theirs. -/
theorem write_thenKeep {α : Type} {types : List Type} (front : Slots σ types)
    (last : Grammar σ α) (tuple : Tuple (types ++ [α])) (buffer : Run σ) :
    (front.thenKeep last).write tuple buffer =
      (front.write tuple.split.1 buffer).andThen (last.write tuple.split.2) := by
  have hlast (value : Tuple [α]) : (keep last .nil).write value = last.write value :=
    funext fun now => Writing.andThen_succeed (last.write value now)
  rw [thenKeep, write_append, hlast]

/-- A slot that is added at the end and needs no value is written last. -/
theorem write_thenSkip {types : List Type} : (front : Slots σ types) →
    (last : Grammar σ Unit) → (tuple : Tuple types) → (buffer : Run σ) →
    (front.thenSkip last).write tuple buffer =
      (front.write tuple buffer).andThen (last.write ())
  | .nil, last, _, buffer => by
      calc
        (skip last .nil).write () buffer = last.write () buffer :=
          Writing.andThen_succeed (last.write () buffer)
        _ = (Writer.empty () buffer).andThen (last.write ()) :=
          (Writing.succeed_andThen buffer (last.write ())).symm
  | .keep first others, last, tuple, buffer => by
      have hothers := funext (others.write_thenSkip last tuple.tail)
      simp only [thenSkip, write, Writer.keep, hothers, Writing.andThen_assoc]
  | .skip first others, last, tuple, buffer => by
      have hothers := funext (others.write_thenSkip last tuple)
      simp only [thenSkip, write, Writer.skip, hothers, Writing.andThen_assoc]

variable [DecidableEq σ]

/-- Slots that are appended are read behind the others, and their values stand behind. -/
theorem read_append {types types' : List Type} : (front : Slots σ types) →
    (back : Slots σ types') → (input : Run σ) →
    (front.append back).read input =
      (front.read input).andThen fun tuple rest => (back.read rest).map tuple.append
  | .nil, back, input => (Reading.map_id (back.read input)).symm
  | .keep first others, back, input => by
      simp only [append, read, Reader.keep, others.read_append back, Reading.andThen_assoc,
        Reading.map_andThen, Reading.andThen_map, Reading.map_map, ← Tuple.cons_append]
  | .skip first others, back, input => by
      simp only [append, read, Reader.skip, others.read_append back, Reading.andThen_assoc]

/-- A slot that is added at the end is read last, and its value is put behind the others. -/
theorem read_thenKeep {α : Type} {types : List Type} (front : Slots σ types)
    (last : Grammar σ α) (input : Run σ) :
    (front.thenKeep last).read input =
      (front.read input).andThen fun tuple rest =>
        (last.read rest).map fun value : Tuple [α] => tuple.append value := by
  have hlast (rest : Run σ) : (keep last .nil).read rest = last.read rest :=
    Reading.andThen_succeed (last.read rest)
  simp only [thenKeep, read_append, hlast]

/-- A slot that is added at the end and leaves no value is read last, and the values stay. -/
theorem read_thenSkip {types : List Type} : (front : Slots σ types) →
    (last : Grammar σ Unit) → (input : Run σ) →
    (front.thenSkip last).read input =
      (front.read input).andThen fun tuple rest => (last.read rest).map fun _ => tuple
  | .nil, last, input => by
      have hlast : (skip last .nil).read input = last.read input :=
        Reading.andThen_succeed (last.read input)
      rw [thenSkip, hlast]
      exact (Reading.map_id (last.read input)).symm
  | .keep first others, last, input => by
      simp only [thenSkip, read, Reader.keep, others.read_thenSkip last, Reading.andThen_assoc,
        Reading.map_andThen, Reading.andThen_map, Reading.map_map]
  | .skip first others, last, input => by
      simp only [thenSkip, read, Reader.skip, others.read_thenSkip last, Reading.andThen_assoc]

/-- Slots that leave no value are read as one slot with a sequence of them. -/
theorem read_append_skips {types : List Type} (skips : Slots σ []) (back : Slots σ types)
    (input : Run σ) :
    (skips.append back).read input = (skip (.sequence skips) back).read input := by
  have hback (tuple : Tuple []) (rest : Run σ) :
      (back.read rest).map tuple.append = back.read rest :=
    Reading.map_id (back.read rest)
  simp only [read_append, hback]
  rfl

omit [DecidableEq σ] in
/-- Slots that need no value are written as one slot with a sequence of them. -/
theorem write_append_skips {types : List Type} (skips : Slots σ []) (back : Slots σ types)
    (tuple : Tuple types) (buffer : Run σ) :
    (skips.append back).write tuple buffer = (skip (.sequence skips) back).write tuple buffer :=
  skips.write_append back tuple buffer

end Slots

namespace Grammar

variable {σ : Type} [Symbol σ] [DecidableEq σ] {types types' : List Type}

/-- A sequence of slots is read as the sequence of the front ones and then, if that one
succeeds, as the sequence of the others behind it. It is written in the same way, the
front ones from the front values. The values are those of the front slots and then those
of the others. Slots that leave no value can be put into one slot that leaves none. -/
theorem sequence_append (front : Slots σ types) (back : Slots σ types') :
    (∀ input, (sequence (front.append back)).read input =
      ((sequence front).read input).andThen fun tuple rest =>
        ((sequence back).read rest).map tuple.append) ∧
    (∀ tuple buffer, (sequence (front.append back)).write tuple buffer =
      ((sequence front).write tuple.split.1 buffer).andThen
        ((sequence back).write tuple.split.2)) ∧
    (∀ (tuple : Tuple types) (others : Tuple types'),
      (tuple.append others).values = tuple.values ++ others.values ∧
        (tuple.append others).split = (tuple, others)) ∧
    (∀ tuple : Tuple (types ++ types'), tuple.split.1.append tuple.split.2 = tuple) ∧
    ∀ skips : Slots σ [],
      (∀ input, (sequence (front.append (skips.append back))).read input =
        (sequence (front.append (.skip (.sequence skips) back))).read input) ∧
      ∀ tuple buffer, (sequence (front.append (skips.append back))).write tuple buffer =
        (sequence (front.append (.skip (.sequence skips) back))).write tuple buffer := by
  refine ⟨front.read_append back, front.write_append back, ?_, Tuple.append_split, ?_⟩
  · intro tuple others
    exact ⟨tuple.values_append others, tuple.split_append others⟩
  · intro skips
    constructor
    · intro input
      have hskips (rest : Run σ) := skips.read_append_skips back rest
      calc
        (front.append (skips.append back)).read input
            = (front.read input).andThen fun tuple rest =>
                ((skips.append back).read rest).map tuple.append :=
          front.read_append (skips.append back) input
        _ = (front.append (.skip (.sequence skips) back)).read input := by
          simp only [hskips]
          exact (front.read_append _ input).symm
    · intro tuple buffer
      have hskips := funext (skips.write_append_skips back tuple.split.2)
      calc
        (front.append (skips.append back)).write tuple buffer
            = (front.write tuple.split.1 buffer).andThen
                ((skips.append back).write tuple.split.2) :=
          front.write_append (skips.append back) tuple buffer
        _ = (front.append (.skip (.sequence skips) back)).write tuple buffer := by
          rw [hskips]
          exact (front.write_append _ tuple buffer).symm

end Grammar

end InvertibleGrammar
