/-
Webernetes.Base.History — what holds of every event of a log, given the events
before it.
-/
import Mathlib.Data.List.Induction

namespace Webernetes.Base

variable {α : Type*} {P Q : List α → α → Prop} {log : List α} {event : α}

/-- Every event of the log stands in the relation to the events before it. -/
def Throughout (P : List α → α → Prop) (log : List α) : Prop :=
  ∀ before event after, log = before ++ event :: after → P before event

namespace Throughout

theorem nil : Throughout P [] := by
  intro before event after h
  simp at h

/-- A log grows by an event that does. -/
theorem snoc (h : Throughout P log) (hevent : P log event) : Throughout P (log ++ [event]) := by
  intro before event' after hsplit
  induction after using List.reverseRecOn with
  | nil =>
    obtain ⟨rfl, hlast⟩ := List.append_inj' hsplit rfl
    cases hlast
    exact hevent
  | append_singleton after last _ =>
    have hassoc : before ++ event' :: (after ++ [last]) = (before ++ event' :: after) ++ [last] := by
      simp
    rw [hassoc] at hsplit
    exact h before event' after (List.append_inj' hsplit rfl).1

theorem of_append {later : List α} (h : Throughout P (log ++ later)) : Throughout P log := by
  intro before event after hsplit
  refine h before event (after ++ later) ?_
  rw [hsplit]
  simp

theorem last (h : Throughout P (log ++ [event])) : P log event := h log event [] rfl

end Throughout

end Webernetes.Base
