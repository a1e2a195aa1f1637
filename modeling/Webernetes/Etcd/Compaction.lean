/-
Webernetes.Etcd.Compaction — what `compact` leaves of the event history.

`compact` walks `history.entries()`, which is the live entry array by index,
and deletes the entry it stands on. What follows moves up by one place, so the
next step of the walk passes over an entry. The walk deletes the first, the
third, the fifth of the entries up to the revision and leaves the others
(`compact_history`), so it does away with all of them just when there is at
most one.
-/
import Webernetes.Etcd.Watcher

namespace Webernetes.Etcd

open Js

/-- The entries up to a revision. -/
def upTo {α : Type} (revision : Nat) (entries : List (Nat × α)) : List (Nat × α) :=
  entries.filter fun e => decide (e.1 ≤ revision)

/-- The second, the fourth and so on. -/
def everyOther {α : Type} : List α → List α
  | [] => []
  | [_] => []
  | _ :: b :: rest => b :: everyOther rest

theorem length_everyOther {α : Type} : ∀ l : List α, (everyOther l).length = l.length / 2
  | [] => by simp [everyOther]
  | [_] => by simp [everyOther]
  | _ :: _ :: rest => by
      rw [everyOther, List.length_cons, length_everyOther rest, List.length_cons, List.length_cons]
      omega

section Entries

variable {α : Type} {revision : Nat} {a : Nat × α} {rest : List (Nat × α)}

theorem upTo_cons_of_le (h : a.1 ≤ revision) :
    upTo revision (a :: rest) = a :: upTo revision rest := by
  simp [upTo, h]

theorem above_cons_of_le (h : a.1 ≤ revision) :
    above revision (a :: rest) = above revision rest := by
  simp [above, Nat.not_lt.mpr h]

/-- From an entry above the revision on, all are above it. -/
theorem above_of_lt (hrest : KeysAscend compare (a :: rest)) (h : revision < a.1) :
    upTo revision (a :: rest) = [] ∧ above revision (a :: rest) = a :: rest := by
  have hall : ∀ e ∈ a :: rest, revision < e.1 := by
    intro e he
    rcases List.mem_cons.mp he with rfl | he
    · exact h
    · exact Nat.lt_trans h (Nat.compare_eq_lt.mp ((List.pairwise_cons.mp hrest).1 e he))
  constructor
  · rw [upTo, List.filter_eq_nil_iff]
    intro e he
    simpa using hall e he
  · rw [above, List.filter_eq_self]
    intro e he
    simpa using hall e he

end Entries

/-- Deleting the revision of an entry deletes that entry. -/
theorem items_delete_at {V : Type} {m : SortedMap (compare : Nat → Nat → Ordering) V}
    {kept rest : List (Nat × V)} {a : Nat × V} (h : m.items = kept ++ a :: rest) :
    (m.delete a.1).items = kept ++ rest := by
  have hasc : KeysAscend compare (kept ++ a :: rest) := h ▸ m.ascending
  obtain ⟨-, hrest, hkept⟩ := List.pairwise_append.mp hasc
  have hbefore : kept.filter (fun e => !same compare a.1 e) = kept := by
    rw [List.filter_eq_self]
    intro e he
    simp [same, hkept e he a List.mem_cons_self]
  have hafter : rest.filter (fun e => !same compare a.1 e) = rest := by
    rw [List.filter_eq_self]
    intro e he
    have hlt := Nat.compare_eq_lt.mp ((List.pairwise_cons.mp hrest).1 e he)
    simp [same, Nat.compare_eq_gt.mpr hlt]
  have hself : same compare a.1 a = true := by simp [same]
  rw [SortedMap.items_delete, h, List.filter_append, List.filter_cons]
  simp [hbefore, hafter, hself]

namespace FakeState

variable {locale : Locale}

/-- The walk from an index on, with the entries before the index kept. An
entry it deletes brings the entry after the next one under the index. -/
theorem compactLoop_items (revision : Nat) : ∀ (fuel : Nat)
    (history : SortedMap (compare : Nat → Nat → Ordering) (List RevisionEvent))
    (kept rest : List (Nat × List RevisionEvent)),
    history.items = kept ++ rest → rest.length < fuel →
    (compactLoop revision fuel kept.length history).items
      = kept ++ (everyOther (upTo revision rest) ++ above revision rest)
  | 0, _, _, _, _, hfuel => absurd hfuel (Nat.not_lt_zero _)
  | fuel + 1, history, kept, [], hitems, _ => by
      rw [List.append_nil] at hitems
      rw [compactLoop, hitems, List.getElem?_eq_none (Nat.le_refl _)]
      simp [hitems, upTo, above, everyOther]
  | fuel + 1, history, kept, a :: rest, hitems, hfuel => by
      have hasc : KeysAscend compare (a :: rest) :=
        (List.pairwise_append.mp (hitems ▸ history.ascending)).2.1
      have hget : history.items[kept.length]? = some a := by simp [hitems]
      rw [compactLoop, hget]
      by_cases hlt : revision < a.1
      · obtain ⟨hupTo, habove⟩ := above_of_lt hasc hlt
        simp [hlt, hitems, hupTo, habove, everyOther]
      · have hle : a.1 ≤ revision := Nat.le_of_not_lt hlt
        have hdelete := items_delete_at hitems
        simp only [hlt, if_false]
        rw [upTo_cons_of_le hle, above_cons_of_le hle]
        cases rest with
        | nil =>
          -- the walk ends past the end of what is left
          cases fuel with
          | zero => simp [compactLoop, hdelete, upTo, above, everyOther]
          | succ fuel => simp [compactLoop, hdelete, upTo, above, everyOther]
        | cons b rest =>
          have hkept : (history.delete a.1).items = (kept ++ [b]) ++ rest := by simp [hdelete]
          have hrun := compactLoop_items revision fuel (history.delete a.1) (kept ++ [b]) rest hkept
            (by simp only [List.length_cons] at hfuel; omega)
          rw [List.length_append, List.length_singleton] at hrun
          rw [hrun]
          by_cases hb : revision < b.1
          · obtain ⟨hupTo, habove⟩ := above_of_lt (List.pairwise_cons.mp hasc).2 hb
            have hrest : upTo revision rest = [] ∧ above revision rest = rest := by
              have hbelow : upTo revision rest = [] := by
                simp only [upTo, List.filter_cons, Nat.not_le.mpr hb] at hupTo
                simpa [upTo] using hupTo
              simp only [above, List.filter_cons, hb] at habove
              exact ⟨hbelow, by simpa [above] using habove⟩
            simp [hupTo, habove, hrest.1, hrest.2, everyOther]
          · have hble : b.1 ≤ revision := Nat.le_of_not_lt hb
            rw [upTo_cons_of_le hble, above_cons_of_le hble]
            simp [everyOther]

/-- Of the entries up to the revision every other one stays. -/
theorem compact_history (s : FakeState locale) (revision : Nat) (hpos : 0 < revision)
    (hle : revision ≤ s.revision) :
    (s.compact revision).state.history.items
      = everyOther (upTo revision s.history.items) ++ above revision s.history.items := by
  have hresolve : s.resolveRevision (some (revision : Int)) = .ok revision := by
    have hpos' : ¬ (revision : Int) ≤ 0 := by omega
    have hle' : ¬ (s.revision : Int) < revision := by omega
    rw [resolveRevision, if_neg hpos', if_neg hle', Int.toNat_natCast]
  have hne : revision ≠ 0 := by omega
  simp only [compact, hresolve, hne, if_false]
  have hrun := compactLoop_items revision (s.history.items.length + 1) s.history [] s.history.items
    rfl (Nat.lt_succ_self _)
  simpa using hrun

/-- Compaction leaves just the entries above the revision when there is at
most one up to it, and only then. -/
theorem compact_history_iff (s : FakeState locale) (revision : Nat) (hpos : 0 < revision)
    (hle : revision ≤ s.revision) :
    (s.compact revision).state.history.items = above revision s.history.items
      ↔ (upTo revision s.history.items).length ≤ 1 := by
  rw [compact_history s revision hpos hle, List.append_left_eq_self, ← List.length_eq_zero_iff,
    length_everyOther]
  omega

/-- The store after two puts. -/
def twoPuts : FakeState rootLocale :=
  ((initial rootLocale 3).execWrite (.put [] { key := js "a" })).state.execWrite
    (.put [] { key := js "b" }) |>.state

theorem compact_history_iff_first :
    (twoPuts.compact (1 : Nat)).state.history.items = above 1 twoPuts.history.items :=
  (compact_history_iff twoPuts 1 (by decide) (by decide)).mpr (by decide)

/-- Revision 2 is up to the revision and stays. -/
theorem compact_keeps_second :
    ¬ ∀ (s : FakeState rootLocale) (revision : Nat), 0 < revision → revision ≤ s.revision →
      (s.compact revision).state.history.items = above revision s.history.items := by
  intro h
  have hkept : (twoPuts.compact (2 : Nat)).state.history.items.map Prod.fst = [2] := by decide
  rw [h twoPuts 2 (by decide) (by decide)] at hkept
  revert hkept
  decide

end FakeState

end Webernetes.Etcd
