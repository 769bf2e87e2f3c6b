import InvertibleGrammar.Grammar.Directions
import InvertibleGrammar.Proofs.FailedReading

/-!
# Bounds cut a run into chunks

A repetition without separator and terminator reads the same in each of its iterations, so
a reading that stops at a bound can be taken up again where it stopped. Two bounded
readings in turn find what one reading finds whose bound is the sum of theirs, whether the
first of them stopped at its bound or for want of more to read. The same is true of runs
of accepted symbols.
-/

namespace InvertibleGrammar

theorem CountRange.atMost_eq (max : UInt64) : atMost max = ⟨0, max⟩ := rfl

/-! ## Runs of symbols -/

namespace Run

variable {σ : Type}

/-- The longest runs of two chunks make the longest run up to the sum of their bounds. -/
theorem Matched.append {accepts : σ → Bool} {j k : Nat} {a b rest : Run σ}
    (hfirst : Matched accepts j a (b ++ rest)) (hsecond : Matched accepts k b rest) :
    Matched accepts (j + k) (a ++ b) rest := by
  refine ⟨?_, ?_, ?_⟩
  · intro symbol hsymbol
    rcases List.mem_append.mp hsymbol with ha | hb
    · exact hfirst.accepted symbol ha
    · exact hsecond.accepted symbol hb
  · rw [List.length_append]
    exact Nat.add_le_add hfirst.length_le hsecond.length_le
  · rcases hfirst.longest with hfull | hrefused
    · rw [List.length_append, hfull]
      exact hsecond.longest.imp (congrArg (j + ·)) id
    · cases b with
      -- A first run that stopped at a symbol leaves nothing for the second.
      | nil => exact Or.inr hrefused
      | cons symbol b =>
          have haccepted := hsecond.accepted symbol List.mem_cons_self
          cases (hrefused symbol rfl).symm.trans haccepted

/-- Taking off the longest run of at most `j` symbols and then that of at most `k` takes
off the longest run of at most `j + k`. -/
theorem splitWhile_add (accepts : σ → Bool) (j k : Nat) (input : Run σ) :
    splitWhile (j + k) accepts input =
      ((splitWhile j accepts input).1 ++
          (splitWhile k accepts (splitWhile j accepts input).2).1,
        (splitWhile k accepts (splitWhile j accepts input).2).2) := by
  have hfirst := splitWhile_matched j accepts input
  have hsecond := splitWhile_matched k accepts (splitWhile j accepts input).2
  have hmiddle := splitWhile_append k accepts (splitWhile j accepts input).2
  rw [← hmiddle] at hfirst
  have hsplit := (hfirst.append hsecond).splitWhile_eq
  rwa [List.append_assoc, hmiddle, splitWhile_append] at hsplit

end Run

namespace Reader

variable {σ α : Type}

/-- A run without a least length is always read. -/
theorem run_atMost_yields [Symbol σ] (accepts : σ → Bool) (max : UInt64) (input : Run σ) :
    (run accepts (.atMost max) input).Yields (Run.splitWhile max.toNat accepts input).1
      (Run.splitWhile max.toNat accepts input).2 :=
  ⟨rfl, rfl⟩

/-! ## Iterations without separator -/

section Iterations

variable {element : Reader σ α} {limit limit' count count' : Nat} {input middle rest : Run σ}
  {value : α} {values others : List α}

/-- Without a separator every iteration reads the element and nothing else. -/
theorem iteration_empty_yields_iff :
    (iteration element empty count input).Yields value rest ↔ (element input).Yields value rest := by
  simp only [iteration_yields_iff, ite_self, empty_yields_iff, exists_eq_left']

theorem iteration_empty_fails_iff :
    (iteration element empty count input).Fails ↔ (element input).Fails := by
  have hempty : ¬ ((empty : Reader σ Unit) input).Fails := by
    rintro ⟨cause, h⟩
    cases h
  simp only [iteration_fails_iff, ite_self, empty_yields_iff, exists_eq_left', hempty, and_false,
    false_or]

variable [Symbol σ]

/-- Below its bound, gathering stops at a place for what the element does there. -/
theorem stops_empty_iff :
    Stops element empty limit count input ↔
      limit ≤ count ∨ (element input).Fails ∨
        ∃ value rest, (element input).Yields value rest ∧ ¬ rest.units < input.units := by
  simp only [Stops, iteration_empty_yields_iff, iteration_empty_fails_iff]

/-- The number of the iteration a chain begins with makes no difference. -/
theorem Iterates.renumber (h : Iterates element empty count input values rest) (count' : Nat) :
    Iterates element empty count' input values rest := by
  induction h generalizing count' with
  | done => exact .done
  | more step progress later ih =>
      rw [iteration_empty_yields_iff] at step
      exact .more (iteration_empty_yields_iff.mpr step) progress (ih (count' + 1))

/-- A chain can be followed by one that starts where it ends. -/
theorem Iterates.append (hfirst : Iterates element empty count input values middle)
    (hsecond : Iterates element empty count' middle others rest) :
    Iterates element empty count input (values ++ others) rest := by
  induction hfirst with
  | done => exact hsecond.renumber _
  | more step progress later ih => exact .more step progress (ih hsecond)

/-- What is gathered up to one bound and, from there, up to another is gathered up to the
sum of the bounds. -/
theorem Gathers.append {j k : Nat} (hfirst : Gathers element empty j input values middle)
    (hsecond : Gathers element empty k middle others rest) :
    Gathers element empty (j + k) input (values ++ others) rest := by
  refine ⟨hfirst.chain.append hsecond.chain, ?_, ?_⟩
  · rw [List.length_append]
    exact Nat.add_le_add hfirst.length_le hsecond.length_le
  · rw [List.length_append]
    rcases stops_empty_iff.mp hfirst.stops with hfull | hstuck
    · rw [stops_empty_iff]
      refine (stops_empty_iff.mp hsecond.stops).imp ?_ id
      intro hmore
      exact Nat.add_le_add hfull hmore
    -- Where the first reading got stuck, the second one gets stuck at once.
    · have hstops : Stops element empty k 0 middle := stops_empty_iff.mpr (Or.inr hstuck)
      obtain ⟨hvalues, hrest⟩ := gather_of_stops hstops
      obtain ⟨rfl, rfl⟩ := gathers_iff.mp hsecond
      rw [hvalues, hrest]
      exact stops_empty_iff.mpr (Or.inr hstuck)

end Iterations

end Reader

namespace Grammar

variable {σ : Type} [Symbol σ] [DecidableEq σ]

/-- A repetition that has nothing but a greatest count finds what gathering finds. -/
theorem counted_atMost_yields_iff {α : Type} {element : Grammar σ α} {max : UInt64}
    {input rest : Run σ} {values : List α} :
    ((counted element (.atMost max)).read input).Yields values rest ↔
      Reader.Gathers element.read Reader.empty max.toNat input values rest := by
  have hmin : (0 : UInt64).toNat = 0 := rfl
  rw [counted, read, read, Reader.repetition_yields_iff, Reader.gathers_iff, CountRange.atMost_eq]
  simp only [hmin, Nat.zero_le, true_and, Reader.empty_yields_iff]
  constructor
  · rintro ⟨_, hvalues, hmiddle, rfl⟩
    exact ⟨hvalues, hmiddle⟩
  · rintro ⟨hvalues, hrest⟩
    exact ⟨rest, hvalues, hrest, rfl⟩

/-- Two bounded readings in turn, the second from where the first stopped, find together
what one reading finds whose bound is the sum of theirs, and stop where it stops. That is
so for repetitions of any grammar and for runs of symbols. -/
theorem bounds_chunk_runs (j k : UInt64) (hsum : j.toNat + k.toNat < UInt64.size) :
    (∀ (α : Type) (element : Grammar σ α) (input : Run σ), ∃ first middle second rest,
      ((counted element (.atMost j)).read input).Yields first middle ∧
        ((counted element (.atMost k)).read middle).Yields second rest ∧
        ((counted element (.atMost (j + k))).read input).Yields (first ++ second) rest) ∧
    ∀ (accepts : σ → Bool) (input : Run σ), ∃ first middle second rest,
      ((run accepts (.atMost j)).read input).Yields first middle ∧
        ((run accepts (.atMost k)).read middle).Yields second rest ∧
        ((run accepts (.atMost (j + k))).read input).Yields (first ++ second) rest := by
  have htotal : (j + k).toNat = j.toNat + k.toNat := by
    rw [UInt64.toNat_add, Nat.mod_eq_of_lt hsum]
  constructor
  · intro α element input
    obtain ⟨first, middle, hfirst⟩ :=
      Reader.exists_gathers element.read Reader.empty j.toNat input
    obtain ⟨second, rest, hsecond⟩ :=
      Reader.exists_gathers element.read Reader.empty k.toNat middle
    have hboth := hfirst.append hsecond
    rw [← htotal] at hboth
    exact ⟨first, middle, second, rest, counted_atMost_yields_iff.mpr hfirst,
      counted_atMost_yields_iff.mpr hsecond, counted_atMost_yields_iff.mpr hboth⟩
  · intro accepts input
    refine ⟨_, _, _, _, Reader.run_atMost_yields accepts j input,
      Reader.run_atMost_yields accepts k _, ?_⟩
    have hboth := Reader.run_atMost_yields accepts (j + k) input
    rwa [htotal, Run.splitWhile_add] at hboth

/-- Digits, two at a time where there are two. -/
def digitPairs (max : UInt64) : Grammar Char (List (Run Char)) :=
  counted (.run Char.isDigit ⟨1, 2⟩) (.atMost max)

/-- The first reading stops at its bound and the second one at the letter. -/
theorem bounds_chunk_runs_digitPairs :
    (1 : UInt64).toNat + (5 : UInt64).toNat < UInt64.size ∧
      ((digitPairs 1).read "12345a".toList).Yields [['1', '2']] ['3', '4', '5', 'a'] ∧
      ((digitPairs 5).read ['3', '4', '5', 'a']).Yields [['3', '4'], ['5']] ['a'] ∧
      ((digitPairs (1 + 5)).read "12345a".toList).Yields [['1', '2'], ['3', '4'], ['5']] ['a'] := by
  have hsum : (1 : UInt64).toNat + (5 : UInt64).toNat < UInt64.size := by decide
  have hone : ((digitPairs 1).read "12345a".toList).Yields [['1', '2']] ['3', '4', '5', 'a'] :=
    ⟨by with_unfolding_all rfl, by with_unfolding_all rfl⟩
  have hmore : ((digitPairs 5).read ['3', '4', '5', 'a']).Yields [['3', '4'], ['5']] ['a'] :=
    ⟨by with_unfolding_all rfl, by with_unfolding_all rfl⟩
  obtain ⟨_, _, _, _, hfirst, hsecond, hboth⟩ :=
    (bounds_chunk_runs 1 5 hsum).1 _ (.run Char.isDigit ⟨1, 2⟩) "12345a".toList
  obtain ⟨rfl, rfl⟩ := hfirst.unique hone
  obtain ⟨rfl, rfl⟩ := hsecond.unique hmore
  exact ⟨hsum, hone, hmore, hboth⟩

end Grammar

end InvertibleGrammar
