/-
Webernetes.Base.BinarySearch — the half-open binary search over an index
range, and what it computes on a list.

`searchLoop below fuel low high` is the loop every lower-bound search
runs: it keeps `[low, high)`, probes the middle and moves one bound past
it. `searchLoop_eq` is its one theorem: when `below` holds exactly under
the partition point `p`, the loop returns `p`.

The list half states the partition point as the length of a `takeWhile`,
so a caller reads a search off as `takeWhile` / `dropWhile` and, on a
list sorted for the predicate (`Falling`), as two `filter`s.
-/
import Mathlib.Data.List.TakeWhile
import Mathlib.Data.List.Basic
import Mathlib.Tactic.Common

namespace Webernetes.Base

/-! ## The loop -/

/-- The half-open search on `[low, high)` for the first index where
`below` fails. -/
def searchLoop (below : Nat → Bool) : Nat → Nat → Nat → Nat
  | 0, low, _ => low
  | fuel + 1, low, high =>
    if low < high then
      if below ((low + high) / 2) then searchLoop below fuel ((low + high) / 2 + 1) high
      else searchLoop below fuel low ((low + high) / 2)
    else low

/-- The search returns the partition point it starts around. -/
theorem searchLoop_eq (below : Nat → Bool) (p : Nat)
    (hbelow : ∀ i < p, below i = true) :
    ∀ (fuel low high : Nat), (∀ i, p ≤ i → i < high → below i = false) →
      low ≤ p → p ≤ high → high - low ≤ fuel →
      searchLoop below fuel low high = p
  | 0, low, high, _, hlow, hhigh, hfuel => by
      simp only [searchLoop]
      omega
  | fuel + 1, low, high, habove, hlow, hhigh, hfuel => by
      rw [searchLoop]
      split
      · rename_i hlt
        have hmid : (low + high) / 2 < high := by omega
        have hmid' : low ≤ (low + high) / 2 := by omega
        by_cases hp : (low + high) / 2 < p
        · rw [if_pos (hbelow _ hp)]
          exact searchLoop_eq below p hbelow fuel _ high habove (by omega) hhigh (by omega)
        · have hf := habove _ (Nat.le_of_not_lt hp) hmid
          rw [if_neg (by simp [hf])]
          exact searchLoop_eq below p hbelow fuel low _
            (fun i hi hlt' => habove i hi (by omega)) hlow (by omega) (by omega)
      · omega

/-! ## Lists whose predicate falls once -/

section Falling

variable {α : Type*} {p : α → Bool} {l : List α}

/-- `p` holds on a prefix of the list and nowhere after it. -/
def Falling (p : α → Bool) (l : List α) : Prop :=
  l.Pairwise fun a b => p b = true → p a = true

theorem Falling.tail {a : α} (h : Falling p (a :: l)) : Falling p l :=
  (List.pairwise_cons.mp h).2

/-- Once the predicate has failed it stays false. -/
theorem Falling.eq_false_of_head {a : α} (h : Falling p (a :: l)) (ha : p a = false) :
    ∀ b ∈ l, p b = false := by
  intro b hb
  have := (List.pairwise_cons.mp h).1 b hb
  cases hpb : p b with
  | false => rfl
  | true => rw [this hpb] at ha; cases ha

/-- Below the end of the `takeWhile` the predicate holds. -/
theorem getElem?_takeWhile_true :
    ∀ (l : List α) (i : Nat), i < (l.takeWhile p).length → ∃ x, l[i]? = some x ∧ p x = true
  | [], i, hi => by simp at hi
  | a :: l, i, hi => by
      cases ha : p a with
      | false => simp [ha] at hi
      | true =>
        cases i with
        | zero => exact ⟨a, rfl, ha⟩
        | succ i =>
          have hi' : i < (l.takeWhile p).length := by
            simpa [List.takeWhile_cons, ha] using hi
          simpa using getElem?_takeWhile_true l i hi'

/-- From the end of the `takeWhile` on, the predicate fails. -/
theorem Falling.getElem?_false : ∀ {l : List α}, Falling p l → ∀ {i : Nat} {x : α},
    (l.takeWhile p).length ≤ i → l[i]? = some x → p x = false
  | [], _, _, _, _, hx => by simp at hx
  | a :: l, h, i, x, hi, hx => by
      cases ha : p a with
      | false =>
        cases i with
        | zero =>
          have hax : a = x := by simpa using hx
          rw [← hax]; exact ha
        | succ i => exact h.eq_false_of_head ha x (List.mem_of_getElem? (by simpa using hx))
      | true =>
        cases i with
        | zero => simp [ha] at hi
        | succ i =>
          exact Falling.getElem?_false h.tail (by simpa [List.takeWhile_cons, ha] using hi)
            (by simpa using hx)

/-- On a falling list the kept prefix is a filter. -/
theorem Falling.takeWhile_eq_filter : ∀ {l : List α}, Falling p l →
    l.takeWhile p = l.filter p
  | [], _ => rfl
  | a :: l, h => by
      cases ha : p a with
      | false =>
        have hnil : l.filter p = [] := by
          rw [List.filter_eq_nil_iff]
          intro b hb
          simp [h.eq_false_of_head ha b hb]
        simp [ha, hnil]
      | true => simp [ha, h.tail.takeWhile_eq_filter]

/-- On a falling list the dropped rest is the complementary filter. -/
theorem Falling.dropWhile_eq_filter : ∀ {l : List α}, Falling p l →
    l.dropWhile p = l.filter fun a => !p a
  | [], _ => rfl
  | a :: l, h => by
      cases ha : p a with
      | false =>
        have hall : l.filter (fun a => !p a) = l := by
          rw [List.filter_eq_self]
          intro b hb
          simp [h.eq_false_of_head ha b hb]
        simp [ha, hall]
      | true => simp [ha, h.tail.dropWhile_eq_filter]

/-- Dropping as many elements as the `takeWhile` kept is the `dropWhile`. -/
theorem drop_takeWhile_length (p : α → Bool) :
    ∀ l : List α, l.drop (l.takeWhile p).length = l.dropWhile p
  | [] => rfl
  | a :: l => by
      cases ha : p a with
      | false => simp [ha]
      | true => simp [ha, drop_takeWhile_length p l]

/-- A search that probes a falling list through `p` returns the length
of the prefix where `p` holds. -/
theorem searchLoop_falling (h : Falling p l) (below : Nat → Bool)
    (hbelow : ∀ i, below i = (l[i]?.map p).getD false) :
    searchLoop below l.length 0 l.length = (l.takeWhile p).length := by
  have hle : (l.takeWhile p).length ≤ l.length := (List.takeWhile_prefix p).length_le
  refine searchLoop_eq below _ (fun i hi => ?_) _ 0 _ (fun i hi hlt => ?_) (Nat.zero_le _) hle
    (by omega)
  · obtain ⟨x, hx, hpx⟩ := getElem?_takeWhile_true l i hi
    simp [hbelow, hx, hpx]
  · have hx : l[i]? = some l[i] := List.getElem?_eq_getElem hlt
    simp [hbelow, hx, h.getElem?_false hi hx]

end Falling

end Webernetes.Base
