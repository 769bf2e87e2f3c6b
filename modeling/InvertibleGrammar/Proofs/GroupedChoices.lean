import InvertibleGrammar.Proofs.FailureLeaves
import InvertibleGrammar.Proofs.FirstSuccess

/-!
# Choices between choices

Alternatives may be put into groups, and groups into groups, where each group is a choice
of its own. As long as all groups are tried in the same order, this makes no difference
to what is read or written: it is the same as one choice between all the alternatives. A
failure differs only in that each group lists the failures of its members for itself.
-/

namespace InvertibleGrammar

mutual

/-- An alternative of a choice, or several that are put into a group. -/
inductive Grouping (σ α : Type) : Type 1 where
  /-- An alternative on its own. -/
  | single (grammar : Grammar σ α)
  /-- A group of alternatives and of smaller groups. -/
  | group (members : Groupings σ α)

/-- The members of a group, in declared order. -/
inductive Groupings (σ α : Type) : Type 1 where
  /-- No member. -/
  | nil
  /-- A member before the others. -/
  | cons (first : Grouping σ α) (others : Groupings σ α)

end

variable {σ α : Type}

mutual

/-- The grammar in which each group is a choice of its own. -/
def Grouping.grammar (order : PrintOrder) : Grouping σ α → Grammar σ α
  | .single grammar => grammar
  | .group members => .choice (members.alternatives order) order

/-- The members of a group as the alternatives of a choice. -/
def Groupings.alternatives (order : PrintOrder) : Groupings σ α → Alternatives σ α
  | .nil => .nil
  | .cons first others => .cons (first.grammar order) (others.alternatives order)

end

mutual

/-- The alternatives of a grouping, from left to right. -/
def Grouping.leaves : Grouping σ α → List (Grammar σ α)
  | .single grammar => [grammar]
  | .group members => members.leaves

/-- The alternatives of all members of a group, from left to right. -/
def Groupings.leaves : Groupings σ α → List (Grammar σ α)
  | .nil => []
  | .cons first others => first.leaves ++ others.leaves

end

mutual

/-- The failure lists the causes once the levels are taken away that the groups add. -/
def Grouping.Lists : Grouping σ α → Failure → List Failure → Prop
  | .single _, failure, causes => causes = [failure]
  | .group members, failure, causes =>
      ∃ failures, .exhausted failures = failure ∧ members.Lists failures causes

/-- There is one failure for each member, and together they list the causes. -/
def Groupings.Lists : Groupings σ α → List Failure → List Failure → Prop
  | .nil, failures, causes => failures = [] ∧ causes = []
  | .cons first others, failures, causes =>
      ∃ failure later front back, failures = failure :: later ∧ causes = front ++ back ∧
        first.Lists failure front ∧ others.Lists later back

end

/-- The choice between the members of a group, with each smaller group as a choice in it. -/
def Groupings.nested (members : Groupings σ α) (order : PrintOrder) : Grammar σ α :=
  .choice (members.alternatives order) order

/-- One choice between all the alternatives of a group. -/
def Groupings.flat (members : Groupings σ α) (order : PrintOrder) : Grammar σ α :=
  .choice (.ofList members.leaves) order

/-- Alternatives that are joined one by one are grouped from the left. -/
example (a b c : Grammar σ α) :
    (Groupings.cons (.group (.cons (.single a) (.cons (.single b) .nil)))
        (.cons (.single c) .nil)).nested .reverse = .orElse (.orElse a b) c ∧
      (Groupings.cons (.group (.cons (.single a) (.cons (.single b) .nil)))
        (.cons (.single c) .nil)).flat .reverse = .oneOf [a, b, c] :=
  ⟨rfl, rfl⟩

theorem Alternatives.toList_ofList (grammars : List (Grammar σ α)) :
    (ofList grammars).toList = grammars := by
  induction grammars with
  | nil => rfl
  | cons grammar others ih => rw [ofList, toList, ih]

/-! ## Positions -/

theorem Failure.leavesOf_append (a b : List Failure) :
    leavesOf (a ++ b) = leavesOf a ++ leavesOf b := by
  induction a with
  | nil => rfl
  | cons failure others ih => rw [List.cons_append, leavesOf, leavesOf, ih, List.append_assoc]

mutual

/-- Taking the levels away leaves the causes at the ends as they are. -/
theorem Grouping.leaves_of_lists : (grouping : Grouping σ α) → {failure : Failure} →
    {causes : List Failure} → grouping.Lists failure causes →
    failure.leaves = Failure.leavesOf causes
  | .single _, failure, _, h => by
      rw [h, Failure.leavesOf, Failure.leavesOf, List.append_nil]
  | .group members, _, _, ⟨failures, hfailure, hlists⟩ => by
      rw [← hfailure, Failure.leaves, members.leavesOf_of_lists hlists]

theorem Groupings.leavesOf_of_lists : (members : Groupings σ α) → {failures : List Failure} →
    {causes : List Failure} → members.Lists failures causes →
    Failure.leavesOf failures = Failure.leavesOf causes
  | .nil, _, _, ⟨hfailures, hcauses⟩ => by rw [hfailures, hcauses]
  | .cons first others, _, _, ⟨_, _, _, _, hfailures, hcauses, hfirst, hothers⟩ => by
      rw [hfailures, hcauses, Failure.leavesOf, Failure.leavesOf_append,
        first.leaves_of_lists hfirst, others.leavesOf_of_lists hothers]

end

/-- The levels that groups add make no difference to where a failure stands. -/
theorem Groupings.offset?_of_lists {members : Groupings σ α} {failures causes : List Failure}
    (h : members.Lists failures causes) (length : Nat) :
    (Failure.exhausted failures).offset? length = (Failure.exhausted causes).offset? length := by
  rw [Failure.offset?_eq_max?, Failure.offset?_eq_max?, Failure.leaves, Failure.leaves,
    members.leavesOf_of_lists h]

/-! ## One direction at a time

What grammars come to in one direction is given by a function of them, and `tried` is the
order in which alternatives are tried in that direction. -/

section Direction

variable {β : Type} {order tried : PrintOrder}

/-- A choice takes the first success of its alternatives in the order of trying. -/
def TakesFirst (order tried : PrintOrder) (success? : Grammar σ α → Option β) : Prop :=
  ∀ alternatives, success? (.choice alternatives order) =
    (tried.arrange alternatives.toList).findSome? success?

/-- A choice that fails lists the failures of its alternatives in declared order. -/
def ListsFailures (order : PrintOrder) (result : Grammar σ α → Except Failure β) : Prop :=
  ∀ alternatives cause, result (.choice alternatives order) = .error cause →
    ∃ causes, alternatives.toList.map result = causes.map .error ∧ .exhausted causes = cause

section Success

variable {success? : Grammar σ α → Option β}

mutual

/-- A grouping takes the first success of all its alternatives. -/
theorem Grouping.success?_eq (h : TakesFirst order tried success?) :
    (grouping : Grouping σ α) → success? (grouping.grammar order) =
      (tried.arrange grouping.leaves).findSome? success?
  | .single grammar => by
      cases tried with
      | reverse => exact List.findSome?_singleton.symm
      | declared => exact List.findSome?_singleton.symm
  | .group members => (h _).trans (members.findSome?_alternatives h)

theorem Groupings.findSome?_alternatives (h : TakesFirst order tried success?) :
    (members : Groupings σ α) →
      (tried.arrange (members.alternatives order).toList).findSome? success? =
        (tried.arrange members.leaves).findSome? success?
  | .nil => rfl
  | .cons first others => by
      have hfirst := first.success?_eq h
      have hothers := others.findSome?_alternatives h
      have hsplit : (Groupings.alternatives order (.cons first others)).toList =
        [first.grammar order] ++ (others.alternatives order).toList := rfl
      rw [hsplit, Groupings.leaves]
      -- In reverse order both lists are reversed as wholes, so the first member comes last.
      cases tried with
      | reverse =>
          simp only [PrintOrder.arrange, List.reverse_append, List.findSome?_append,
            List.reverse_singleton, List.findSome?_singleton] at hfirst hothers ⊢
          rw [hfirst, hothers]
      | declared =>
          simp only [PrintOrder.arrange, List.findSome?_append,
            List.findSome?_singleton] at hfirst hothers ⊢
          rw [hfirst, hothers]

end

end Success

section Failure

variable {result : Grammar σ α → Except Failure β}

mutual

/-- A grouping that fails lists the failures of all its alternatives, level by level. -/
theorem Grouping.exists_lists (h : ListsFailures order result) : (grouping : Grouping σ α) →
    {failure : Failure} → result (grouping.grammar order) = .error failure →
    ∃ causes, grouping.Lists failure causes ∧ grouping.leaves.map result = causes.map .error
  | .single grammar, failure, hfailure => ⟨[failure], rfl, congrArg (List.cons · []) hfailure⟩
  | .group members, _, hfailure => by
      obtain ⟨failures, hfailures, hexhausted⟩ := h _ _ hfailure
      obtain ⟨causes, hlists, hcauses⟩ := members.exists_lists h hfailures
      exact ⟨causes, ⟨failures, hexhausted, hlists⟩, hcauses⟩

theorem Groupings.exists_lists (h : ListsFailures order result) : (members : Groupings σ α) →
    {failures : List Failure} →
    (members.alternatives order).toList.map result = failures.map .error →
    ∃ causes, members.Lists failures causes ∧ members.leaves.map result = causes.map .error
  | .nil, failures, hfailures => ⟨[], ⟨List.map_eq_nil_iff.mp hfailures.symm, rfl⟩, rfl⟩
  | .cons first others, _, hfailures => by
      obtain ⟨failure, later, rfl, hfailure, hlater⟩ := List.map_eq_cons_iff.mp hfailures.symm
      obtain ⟨front, hfront, hfirst⟩ := first.exists_lists h hfailure.symm
      obtain ⟨back, hback, hothers⟩ := others.exists_lists h hlater.symm
      refine ⟨front ++ back, ⟨failure, later, front, back, rfl, rfl, hfront, hback⟩, ?_⟩
      rw [Groupings.leaves, List.map_append, hfirst, hothers, List.map_append]

end

end Failure

end Direction

/-! ## Both directions -/

namespace Groupings

variable [Symbol σ] (members : Groupings σ α) (order : PrintOrder)

theorem write_nested_left? (value : α) (buffer : Run σ) :
    ((members.nested order).write value buffer).left? =
      ((members.flat order).write value buffer).left? := by
  have hfirst : TakesFirst order order fun grammar : Grammar σ α =>
      (grammar.write value buffer).left? :=
    fun alternatives => Grammar.write_choice_left? alternatives order value buffer
  calc
    ((members.nested order).write value buffer).left?
        = (order.arrange members.leaves).findSome?
            fun grammar => (grammar.write value buffer).left? :=
      (Grouping.group members).success?_eq hfirst
    _ = ((members.flat order).write value buffer).left? := by
      rw [flat, Grammar.write_choice_left?, Alternatives.toList_ofList]

theorem write_nested_error {value : α} {buffer : Run σ} {cause : Failure}
    (h : ((members.nested order).write value buffer).result = .error cause) :
    ∃ failures causes, .exhausted failures = cause ∧ members.Lists failures causes ∧
      ((members.flat order).write value buffer).result = .error (.exhausted causes) := by
  have hall : ListsFailures order fun grammar : Grammar σ α =>
      (grammar.write value buffer).result :=
    fun _ _ => Grammar.write_choice_error_iff.mp
  obtain ⟨causes, ⟨failures, hcause, hlists⟩, hcauses⟩ :=
    (Grouping.group members).exists_lists hall h
  refine ⟨failures, causes, hcause, hlists, Grammar.write_choice_error_iff.mpr ⟨causes, ?_, rfl⟩⟩
  rwa [Alternatives.toList_ofList]

variable [DecidableEq σ]

theorem read_nested_found? (input : Run σ) :
    ((members.nested order).read input).found? = ((members.flat order).read input).found? := by
  have hfirst : TakesFirst order .declared fun grammar : Grammar σ α =>
      (grammar.read input).found? :=
    fun alternatives => Grammar.read_choice_found? alternatives order input
  calc
    ((members.nested order).read input).found?
        = members.leaves.findSome? fun grammar => (grammar.read input).found? :=
      (Grouping.group members).success?_eq hfirst
    _ = ((members.flat order).read input).found? := by
      rw [flat, Grammar.read_choice_found?, Alternatives.toList_ofList]

theorem read_nested_breaks {input rest : Run σ} {cause : Failure}
    (h : ((members.nested order).read input).Breaks cause rest) :
    ∃ failures causes, .exhausted failures = cause ∧ input = rest ∧
      members.Lists failures causes ∧
      ((members.flat order).read input).Breaks (.exhausted causes) input := by
  have hall : ListsFailures order fun grammar : Grammar σ α => (grammar.read input).result := by
    intro alternatives cause hcause
    obtain ⟨causes, hcauses, hexhausted, _⟩ := Grammar.read_choice_breaks_iff.mp ⟨hcause, rfl⟩
    exact ⟨causes, hcauses, hexhausted⟩
  obtain ⟨_, _, _, hrest⟩ := Grammar.read_choice_breaks_iff.mp h
  obtain ⟨causes, ⟨failures, hcause, hlists⟩, hcauses⟩ :=
    (Grouping.group members).exists_lists hall h.1
  refine ⟨failures, causes, hcause, hrest, hlists,
    Grammar.read_choice_breaks_iff.mpr ⟨causes, ?_, rfl, rfl⟩⟩
  rwa [Alternatives.toList_ofList]

/-- Groups within a choice that are tried in the order of the choice make no difference.
On every input the choice between groups finds the value that the choice between all the
alternatives finds and leaves the same rest, or both give the input back, with the same
causes from left to right and at the same position. For every value and buffer the two
leave the same buffer, or both leave the buffer as it was, with the same causes. -/
theorem nested_choice_agrees :
    (∀ input,
      (∃ value rest, ((members.nested order).read input).Yields value rest ∧
          ((members.flat order).read input).Yields value rest) ∨
        ∃ failures causes, members.Lists failures causes ∧
          ((members.nested order).read input).Breaks (.exhausted failures) input ∧
          ((members.flat order).read input).Breaks (.exhausted causes) input ∧
          ∀ length, (Failure.exhausted failures).offset? length =
            (Failure.exhausted causes).offset? length) ∧
    ∀ value buffer,
      (∃ left, ((members.nested order).write value buffer).Leaves left ∧
          ((members.flat order).write value buffer).Leaves left) ∨
        ∃ failures causes, members.Lists failures causes ∧
          ((members.nested order).write value buffer).RefusedFor (.exhausted failures) buffer ∧
          ((members.flat order).write value buffer).RefusedFor (.exhausted causes) buffer := by
  constructor
  · intro input
    have hfound := members.read_nested_found? order input
    cases hnested : ((members.nested order).read input).found? with
    | some found =>
        rw [hnested] at hfound
        exact Or.inl ⟨found.1, found.2, Reading.found?_eq_some_iff.mp hnested,
          Reading.found?_eq_some_iff.mp hfound.symm⟩
    | none =>
        obtain ⟨cause, rest, hbreaks⟩ :=
          Reading.fails_iff.mp (Reading.found?_eq_none_iff.mp hnested)
        obtain ⟨failures, causes, rfl, rfl, hlists, hflat⟩ :=
          members.read_nested_breaks order hbreaks
        exact Or.inr ⟨failures, causes, hlists, hbreaks, hflat, offset?_of_lists hlists⟩
  · intro value buffer
    have hleft := members.write_nested_left? order value buffer
    cases hnested : ((members.nested order).write value buffer).left? with
    | some left =>
        rw [hnested] at hleft
        exact Or.inl ⟨left, Writing.left?_eq_some_iff.mp hnested,
          Writing.left?_eq_some_iff.mp hleft.symm⟩
    | none =>
        obtain ⟨cause, hrefused⟩ := Writing.left?_eq_none_iff.mp hnested
        obtain ⟨failures, causes, rfl, hlists, hflat⟩ := members.write_nested_error order hrefused
        exact Or.inr ⟨failures, causes, hlists,
          Grammar.write_choice_refusedFor_iff.mpr ⟨hrefused, rfl⟩,
          Grammar.write_choice_refusedFor_iff.mpr ⟨hflat, rfl⟩⟩

end Groupings

end InvertibleGrammar
