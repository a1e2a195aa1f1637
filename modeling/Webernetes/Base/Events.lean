/-
Webernetes.Base.Events — the log of a multi-version store as the events
of a watch.

A watch from revision `r` sends the later writes, in the order of the log.
`Logged` is what a log keeps as it grows.
-/
import Webernetes.Base.Mvcc

namespace Webernetes.Base.Mvcc

variable {κ ν : Type} [DecidableEq κ]

/-- The next event that a watch from revision `r` sends. -/
def nextEvent (log : List (Write κ ν)) (r : Nat) : Option (Write κ ν) :=
  log.find? fun w => r < w.revision

/-- What was under the key of a write before it. -/
def before (log : List (Write κ ν)) (w : Write κ ν) : Option (Entry ν) :=
  entry (upTo log (w.revision - 1)) w.key

/-- One write a revision, no revision from the future, and no deletion of
what is not there. -/
structure Logged (log : List (Write κ ν)) (revision : Nat) : Prop where
  positive : ∀ w ∈ log, 0 < w.revision
  bounded : ∀ w ∈ log, w.revision ≤ revision
  sorted : log.Pairwise fun a b => a.revision < b.revision
  present : ∀ w ∈ log, w.value = none → (before log w).isSome = true

theorem logged_nil (revision : Nat) : Logged ([] : List (Write κ ν)) revision where
  positive := by simp
  bounded := by simp
  sorted := List.Pairwise.nil
  present := by simp

theorem Logged.mono {log : List (Write κ ν)} {r r' : Nat} (h : Logged log r) (hle : r ≤ r') :
    Logged log r' :=
  ⟨h.positive, fun w hw => Nat.le_trans (h.bounded w hw) hle, h.sorted, h.present⟩

/-- A write at the next revision. -/
theorem Logged.write {log : List (Write κ ν)} {r : Nat} (h : Logged log r) (key : κ)
    (value : Option ν) (hpresent : value = none → (entry log key).isSome = true) :
    Logged (log ++ [{ revision := r + 1, key, value }]) (r + 1) := by
  have hbefore : ∀ r' ≤ r, upTo (log ++ [{ revision := r + 1, key, value }]) r' = upTo log r' :=
    fun r' hr' => upTo_append_of_lt fun w hw => by
      obtain rfl := List.mem_singleton.mp hw
      exact Nat.lt_succ_of_le hr'
  constructor
  · intro w hw
    obtain hw | hw := List.mem_append.mp hw
    · exact h.positive w hw
    · obtain rfl := List.mem_singleton.mp hw
      exact Nat.succ_pos r
  · intro w hw
    obtain hw | hw := List.mem_append.mp hw
    · exact Nat.le_succ_of_le (h.bounded w hw)
    · obtain rfl := List.mem_singleton.mp hw
      exact Nat.le_refl _
  · refine List.pairwise_append.mpr ⟨h.sorted, List.pairwise_singleton _ _, fun a ha b hb => ?_⟩
    obtain rfl := List.mem_singleton.mp hb
    exact Nat.lt_succ_of_le (h.bounded a ha)
  · intro w hw hnone
    obtain hw | hw := List.mem_append.mp hw
    · have hle := h.bounded w hw
      rw [before, hbefore _ (by omega)]
      exact h.present w hw hnone
    · obtain rfl := List.mem_singleton.mp hw
      rw [before, show r + 1 - 1 = r from rfl, hbefore r (Nat.le_refl r), upTo_eq_self h.bounded]
      exact hpresent hnone

omit [DecidableEq κ] in
theorem mem_of_next {log : List (Write κ ν)} {r : Nat} {w : Write κ ν}
    (hnext : nextEvent log r = some w) : w ∈ log :=
  List.mem_of_find?_eq_some hnext

end Webernetes.Base.Mvcc
