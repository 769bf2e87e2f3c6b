import InvertibleGrammar.CountRange
import Mathlib.Order.Bounds.Basic

/-!
# Ranges as intervals of counts

The counts that meet a lower and an upper bound form an interval of the numbers below
2⁶⁴. The end of a range is the bound itself or the count next to it; where there is no
such count, nothing meets the bound. So a range holds exactly the counts that meet its
bounds, with the least and the greatest of them for its ends if there are any.
-/

namespace InvertibleGrammar

/-! ## Bounds -/

namespace Bound

/-- Whether a count meets the bound as a lower one. -/
def IsBelow (count : Nat) : Bound → Prop
  | included least => least.toNat ≤ count
  | excluded before => before.toNat < count
  | unbounded => True

/-- Whether a count meets the bound as an upper one. -/
def IsAbove (count : Nat) : Bound → Prop
  | included greatest => count ≤ greatest.toNat
  | excluded after => count < after.toNat
  | unbounded => True

/-- Behind an excluded count stands the next number, if it is a count. -/
theorem least?_excluded_eq_some_iff {before least : UInt64} :
    (excluded before).least? = some least ↔ least.toNat = before.toNat + 1 := by
  have hlt := least.toNat_lt_size
  rw [least?]
  split
  · rename_i hnext
    have hsum : (before + 1).toNat = before.toNat + 1 := by
      rw [UInt64.toNat_add]
      exact Nat.mod_eq_of_lt hnext
    rw [Option.some.injEq, ← UInt64.toNat_inj, hsum]
    exact eq_comm
  · simp only [reduceCtorEq, false_iff]
    omega

/-- In front of an excluded count stands the number before it, if there is one. -/
theorem greatest?_excluded_eq_some_iff {after greatest : UInt64} :
    (excluded after).greatest? = some greatest ↔ greatest.toNat + 1 = after.toNat := by
  rw [greatest?]
  split
  · rename_i hpositive
    have hone : (1 : UInt64).toNat = 1 := rfl
    have hdifference : (after - 1).toNat = after.toNat - 1 :=
      UInt64.toNat_sub_of_le after 1 hpositive
    rw [Option.some.injEq, ← UInt64.toNat_inj, hdifference]
    omega
  · simp only [reduceCtorEq, false_iff]
    omega

variable {count : Nat}

theorem exists_toNat_eq (h : count < UInt64.size) : ∃ word : UInt64, word.toNat = count :=
  ⟨.ofNat count, UInt64.toNat_ofNat_of_lt h⟩

/-- A count meets a lower bound if the least count that the bound allows is no greater. -/
theorem isBelow_iff (h : count < UInt64.size) (bound : Bound) :
    bound.IsBelow count ↔ ∃ least, bound.least? = some least ∧ least.toNat ≤ count := by
  cases bound with
  | included least => simp [IsBelow, least?]
  | unbounded => simp [IsBelow, least?]
  | excluded before =>
      simp only [IsBelow, least?_excluded_eq_some_iff]
      constructor
      · intro hbefore
        obtain ⟨least, hleast⟩ := exists_toNat_eq (Nat.lt_of_le_of_lt hbefore h)
        exact ⟨least, hleast, hleast ▸ hbefore⟩
      · rintro ⟨least, hleast, hle⟩
        omega

/-- A count meets an upper bound if the greatest count that the bound allows is no less. -/
theorem isAbove_iff (h : count < UInt64.size) (bound : Bound) :
    bound.IsAbove count ↔
      ∃ greatest, bound.greatest? = some greatest ∧ count ≤ greatest.toNat := by
  cases bound with
  | included greatest => simp [IsAbove, greatest?]
  | unbounded =>
      have hmax : (UInt64.ofNat (UInt64.size - 1)).toNat = UInt64.size - 1 := rfl
      simp only [IsAbove, greatest?, Option.some.injEq, exists_eq_left', hmax, true_iff]
      exact Nat.le_pred_of_lt h
  | excluded after =>
      simp only [IsAbove, greatest?_excluded_eq_some_iff]
      constructor
      · intro hafter
        have hlt : after.toNat - 1 < UInt64.size := by
          have hafter := after.toNat_lt_size
          omega
        obtain ⟨greatest, hgreatest⟩ := exists_toNat_eq hlt
        exact ⟨greatest, by omega, by omega⟩
      · rintro ⟨greatest, hgreatest, hle⟩
        omega

end Bound

/-! ## Ranges -/

namespace CountRange

/-- The counts that meet a lower and an upper bound. -/
def counts (lower upper : Bound) : Set Nat :=
  {count | count < UInt64.size ∧ lower.IsBelow count ∧ upper.IsAbove count}

variable {range : CountRange} {lower upper : Bound} {count : Nat}

theorem lt_size_of_contains (h : range.contains count = true) : count < UInt64.size :=
  Nat.lt_of_le_of_lt (contains_iff.mp h).2 range.max.toNat_lt_size

/-- Without a least or without a greatest count, the range is that of no counts. -/
theorem contains_ofBounds_iff_exists :
    (ofBounds lower upper).contains count = true ↔
      (∃ least, lower.least? = some least ∧ least.toNat ≤ count) ∧
        ∃ greatest, upper.greatest? = some greatest ∧ count ≤ greatest.toNat := by
  have hnone : ¬none.contains count = true := by
    rw [contains_iff]
    rintro ⟨hmin, hmax⟩
    exact absurd (Nat.le_trans hmin hmax) (by decide)
  rw [ofBounds]
  cases lower.least? with
  | none => simp [hnone]
  | some least =>
      cases upper.greatest? with
      | none => simp [hnone]
      | some greatest => simp [contains_iff]

/-- A range holds the counts that meet its bounds. -/
theorem contains_ofBounds_iff :
    (ofBounds lower upper).contains count = true ↔ count ∈ counts lower upper := by
  constructor
  · intro h
    have hlt := lt_size_of_contains h
    obtain ⟨hlower, hupper⟩ := contains_ofBounds_iff_exists.mp h
    exact ⟨hlt, (lower.isBelow_iff hlt).mpr hlower, (upper.isAbove_iff hlt).mpr hupper⟩
  · rintro ⟨hlt, hlower, hupper⟩
    exact contains_ofBounds_iff_exists.mpr
      ⟨(lower.isBelow_iff hlt).mp hlower, (upper.isAbove_iff hlt).mp hupper⟩

/-- A range whose ends are in order holds both of them and nothing beyond. -/
theorem isLeast_and_isGreatest (h : range.min ≤ range.max) :
    IsLeast {count | range.contains count = true} range.min.toNat ∧
      IsGreatest {count | range.contains count = true} range.max.toNat := by
  have hle : range.min.toNat ≤ range.max.toNat := h
  refine ⟨⟨contains_iff.mpr ⟨Nat.le_refl _, hle⟩, ?_⟩,
    ⟨contains_iff.mpr ⟨hle, Nat.le_refl _⟩, ?_⟩⟩
  · intro count hcount
    exact (contains_iff.mp hcount).1
  · intro count hcount
    exact (contains_iff.mp hcount).2

/-- The step past an excluded count is taken in the numbers and never wraps around. A range
holds exactly the counts that meet its bounds. If there are none, its ends are not in
order; otherwise they are the least and the greatest of these counts. -/
theorem range_is_interval :
    (∀ before least, (Bound.excluded before).least? = some least ↔
      least.toNat = before.toNat + 1) ∧
    (∀ after greatest, (Bound.excluded after).greatest? = some greatest ↔
      greatest.toNat + 1 = after.toNat) ∧
    ∀ lower upper : Bound,
      (∀ count, (ofBounds lower upper).contains count = true ↔ count ∈ counts lower upper) ∧
      (counts lower upper = ∅ ∧ (ofBounds lower upper).max < (ofBounds lower upper).min ∨
        IsLeast (counts lower upper) (ofBounds lower upper).min.toNat ∧
          IsGreatest (counts lower upper) (ofBounds lower upper).max.toNat) := by
  refine ⟨fun _ _ => Bound.least?_excluded_eq_some_iff,
    fun _ _ => Bound.greatest?_excluded_eq_some_iff, ?_⟩
  intro lower upper
  have hcounts : {count | (ofBounds lower upper).contains count = true} = counts lower upper :=
    Set.ext fun count => contains_ofBounds_iff
  refine ⟨fun count => contains_ofBounds_iff, ?_⟩
  -- The ends are out of order both for the range of no counts and for bounds that are inverted.
  rcases Nat.lt_or_ge (ofBounds lower upper).max.toNat (ofBounds lower upper).min.toNat with
    hlt | hle
  · refine Or.inl ⟨?_, hlt⟩
    rw [← hcounts, Set.eq_empty_iff_forall_notMem]
    intro count hcount
    cases (contains_eq_false hlt).symm.trans hcount
  · rw [← hcounts]
    exact Or.inr (isLeast_and_isGreatest hle)

example : ofBounds (.excluded 5) (.included 10) = ⟨6, 10⟩ := rfl

end CountRange

end InvertibleGrammar
