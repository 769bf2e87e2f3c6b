import InvertibleGrammar.Proofs.AppendOnly

/-!
# Edits of a buffer

A buffer is changed in two ways only: a run is appended, and the buffer is cut back to
a length that was noted earlier. Edits lead from one content of the buffer to another if
each cut among them finds what was noted still in front. Then replaying them gives the
second content, and every cut gives back just what the buffer held when the length was
noted.
-/

namespace InvertibleGrammar

/-- Whether the first `length` bytes of a run end between two of its symbols. -/
def Run.IsBoundary {σ : Type} [Symbol σ] (length : Nat) (run : Run σ) : Prop :=
  ∃ lead : Run σ, lead <+: run ∧ lead.units = length

/-- One change to a buffer. -/
inductive Edit (σ : Type) where
  /-- A run is appended. -/
  | append (run : Run σ)
  /-- The buffer is cut back to the length that it had when it held `mark`. -/
  | cut (mark : Run σ)
  deriving DecidableEq

namespace Edit

variable {σ : Type}

/-- What the buffer holds after the change. -/
def apply [Symbol σ] : Edit σ → Run σ → Run σ
  | append run, buffer => buffer ++ run
  | cut mark, buffer => Run.truncate mark.units buffer

/-- What the buffer holds after all of the changes. -/
def replay [Symbol σ] : List (Edit σ) → Run σ → Run σ
  | [], buffer => buffer
  | edit :: others, buffer => replay others (edit.apply buffer)

/-- Edits lead from one content of the buffer to another if each cut is back to something
that the buffer held at an earlier moment and that still stands in front. -/
inductive Leads (buffer : Run σ) : List (Edit σ) → Run σ → Prop
  /-- No edit yet. -/
  | start : Leads buffer [] buffer
  /-- A run is appended at the end. -/
  | append {edits : List (Edit σ)} {now : Run σ} (run : Run σ) (before : Leads buffer edits now) :
      Leads buffer (edits ++ [.append run]) (now ++ run)
  /-- What was held after some of the edits is restored. -/
  | cut {edits earlier : List (Edit σ)} {now mark : Run σ} (before : Leads buffer edits now)
      (noted : Leads buffer earlier mark) (moment : earlier <+: edits) (stands : mark <+: now) :
      Leads buffer (edits ++ [.cut mark]) mark

section Leads

variable {edits front back : List (Edit σ)} {buffer middle now : Run σ}

/-- What the buffer held at first stays in front. -/
theorem Leads.keeps (h : Leads buffer edits now) : buffer <+: now := by
  induction h with
  | start => exact List.prefix_rfl
  | append run before ih => exact ih.trans (List.prefix_append _ run)
  | cut before noted moment stands ihBefore ihNoted => exact ihNoted

theorem Leads.trans (hfront : Leads buffer front middle) (hback : Leads middle back now) :
    Leads buffer (front ++ back) now := by
  induction hback with
  | start => rwa [List.append_nil]
  | append run before ih =>
      rw [← List.append_assoc]
      exact .append run ih
  | cut before noted moment stands ihBefore ihNoted =>
      rw [← List.append_assoc]
      exact .cut ihBefore ihNoted ((List.prefix_append_right_inj front).mpr moment) stands

/-- Whatever was done may be undone by a cut back to what the buffer held at first. -/
theorem Leads.undo (h : Leads buffer edits now) : Leads buffer (edits ++ [.cut buffer]) buffer :=
  .cut h .start List.nil_prefix h.keeps

theorem leads_append (run : Run σ) : Leads buffer [.append run] (buffer ++ run) :=
  .append run .start

variable [Symbol σ]

theorem replay_append (front back : List (Edit σ)) (buffer : Run σ) :
    replay (front ++ back) buffer = replay back (replay front buffer) := by
  induction front generalizing buffer with
  | nil => rfl
  | cons edit others ih => exact ih (edit.apply buffer)

/-- Replaying the edits gives the content that they lead to. -/
theorem Leads.replay_eq (h : Leads buffer edits now) : replay edits buffer = now := by
  induction h with
  | start => rfl
  | append run before ih =>
      rw [replay_append, ih]
      rfl
  | cut before noted moment stands ihBefore ihNoted =>
      rw [replay_append, ihBefore]
      exact Run.truncate_of_prefix stands

/-- A cut among the edits is back to what the buffer held after an earlier part of them. -/
theorem Leads.restores {mark : Run σ} {later : List (Edit σ)}
    (h : Leads buffer edits now) (hsplit : edits = front ++ .cut mark :: later) :
    (∃ earlier, earlier <+: front ∧ replay earlier buffer = mark) ∧
      buffer <+: mark ∧ mark <+: replay front buffer := by
  induction h generalizing later with
  | start => exact absurd hsplit (by simp)
  | append run before ih =>
      rcases List.eq_nil_or_concat later with rfl | ⟨others, last, hlast⟩
      · cases (List.append_inj' hsplit rfl).2
      · rw [hlast, List.concat_eq_append, ← List.cons_append, ← List.append_assoc] at hsplit
        exact ih (List.append_inj' hsplit rfl).1
  | cut before noted moment stands ihBefore ihNoted =>
      rcases List.eq_nil_or_concat later with rfl | ⟨others, last, hlast⟩
      · obtain ⟨rfl, hcut⟩ := List.append_inj' hsplit rfl
        obtain rfl := Edit.cut.inj (List.singleton_inj.mp hcut)
        rw [before.replay_eq]
        exact ⟨⟨_, moment, noted.replay_eq⟩, noted.keeps, stands⟩
      · rw [hlast, List.concat_eq_append, ← List.cons_append, ← List.append_assoc] at hsplit
        exact ihBefore (List.append_inj' hsplit rfl).1

end Leads

end Edit

end InvertibleGrammar
