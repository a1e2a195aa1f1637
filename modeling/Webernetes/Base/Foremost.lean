/-
Webernetes.Base.Foremost — keeping the first members of a list by some order.

`r a b` says that `a` goes before `b`, or with it. `Foremost r kept all` says
that of `all` the list `kept` has those that go first: none that is left out
goes strictly before one that is kept. Cutting a sorted list leaves the
foremost (`foremost_take`), cutting again leaves the foremost of all
(`Foremost.trans`), and so it is inside every part of the list
(`Foremost.restrict`).
-/
import Mathlib.Data.List.Sort

namespace Webernetes.Base

variable {α : Type} {r : α → α → Prop}

structure Foremost (r : α → α → Prop) (kept all : List α) : Prop where
  subset : ∀ x ∈ kept, x ∈ all
  first : ∀ x ∈ all, x ∉ kept → ∀ y ∈ kept, r y x

theorem Foremost.refl (all : List α) : Foremost r all all where
  subset := fun _ hx => hx
  first := fun _ hx hnot => absurd hx hnot

theorem Foremost.nil (all : List α) : Foremost r [] all where
  subset := fun _ hx => absurd hx List.not_mem_nil
  first := fun _ _ _ _ hy => absurd hy List.not_mem_nil

theorem Foremost.trans {kept mid all : List α} (h : Foremost r kept mid) (hmid : Foremost r mid all) :
    Foremost r kept all where
  subset := fun x hx => hmid.subset x (h.subset x hx)
  first := by
    intro x hx hnot y hy
    by_cases hxmid : x ∈ mid
    · exact h.first x hxmid hnot y hy
    · exact hmid.first x hx hxmid y (h.subset y hy)

/-- Only the members of the two lists matter. -/
theorem Foremost.congr {kept kept' all all' : List α} (h : Foremost r kept all)
    (hkept : ∀ x, x ∈ kept' ↔ x ∈ kept) (hall : ∀ x, x ∈ all' ↔ x ∈ all) : Foremost r kept' all' where
  subset := fun x hx => (hall x).mpr (h.subset x ((hkept x).mp hx))
  first := fun x hx hnot y hy =>
    h.first x ((hall x).mp hx) (fun hmem => hnot ((hkept x).mpr hmem)) y ((hkept y).mp hy)

variable [DecidableEq α]

theorem Foremost.restrict {kept all part : List α} (h : Foremost r kept all)
    (hpart : ∀ x ∈ part, x ∈ all) : Foremost r (part.filter (· ∈ kept)) part where
  subset := fun _ hx => (List.mem_filter.mp hx).1
  first := by
    intro x hx hnot y hy
    have hxkept : x ∉ kept := fun hmem => hnot (List.mem_filter.mpr ⟨hx, by simpa using hmem⟩)
    exact h.first x (hpart x hx) hxkept y (by simpa using (List.mem_filter.mp hy).2)

variable [DecidableRel r] [Std.Total r] [IsTrans α r]

omit [DecidableEq α] in
theorem foremost_take (n : Nat) (l : List α) : Foremost r ((l.insertionSort r).take n) l where
  subset := fun _ hx => (List.mem_insertionSort r).mp (List.mem_of_mem_take hx)
  first := by
    intro x hx hnot y hy
    have hsorted := List.pairwise_insertionSort r l
    rw [← List.take_append_drop n (l.insertionSort r), List.pairwise_append] at hsorted
    have hmem : x ∈ (l.insertionSort r).take n ++ (l.insertionSort r).drop n := by
      rw [List.take_append_drop]
      exact (List.mem_insertionSort r).mpr hx
    exact hsorted.2.2 y hy x ((List.mem_append.mp hmem).resolve_left hnot)

end Webernetes.Base
