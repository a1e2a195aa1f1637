/-
Webernetes.Base.Lexicographic — the lists with a given prefix as an
interval of the lexicographic order.

In a linear order with a greatest element the lists that start with
`stem ++ c :: ⊤ … ⊤` are the ones from that list on that lie below
`stem ++ [d]`, where `d` covers `c` (`prefix_iff_of_covBy`). The lists
that start with `⊤ … ⊤` have no upper bound of that form, they are all
the lists from it on (`replicate_top_le_iff`). Whatever lies between two
lists with one stem has that stem too (`prefix_of_between`).
-/
import Mathlib.Data.List.Lex
import Mathlib.Order.Cover
import Mathlib.Order.BoundedOrder.Basic

namespace Webernetes.Base.Lexicographic

section Linear

variable {α : Type} [LinearOrder α]

theorem cons_le_cons_iff {a : α} {x y : List α} : a :: x ≤ a :: y ↔ x ≤ y := by
  rw [le_iff_lt_or_eq, le_iff_lt_or_eq, List.cons_lt_cons_iff]
  simp

theorem cons_le_cons_iff_of_ne {a b : α} (h : a ≠ b) {x y : List α} :
    a :: x ≤ b :: y ↔ a < b := by
  rw [le_iff_lt_or_eq, List.cons_lt_cons_iff]
  simp [h]

theorem append_le_append_iff {stem x y : List α} : stem ++ x ≤ stem ++ y ↔ x ≤ y := by
  induction stem with
  | nil => rfl
  | cons a stem ih => rw [List.cons_append, List.cons_append, cons_le_cons_iff, ih]

theorem append_lt_append_iff {stem x y : List α} : stem ++ x < stem ++ y ↔ x < y := by
  rw [← not_le, ← not_le, append_le_append_iff]

theorem le_of_starts {x y : List α} (h : x <+: y) : x ≤ y := by
  obtain ⟨rest, rfl⟩ := h
  have hnil : [] ≤ rest := not_lt.mp (List.not_lt_nil rest)
  have : x ++ [] ≤ x ++ rest := append_le_append_iff.mpr hnil
  simpa using this

/-- Two bounds with one stem leave nothing between them without it. -/
theorem prefix_of_between {stem x y k : List α} (hlow : stem ++ x ≤ k) (hhigh : k < stem ++ y) :
    stem <+: k := by
  induction stem generalizing k with
  | nil => exact List.nil_prefix
  | cons a stem ih =>
    cases k with
    | nil => exact absurd hlow (by simp)
    | cons b k =>
      have hab : a = b := by
        by_contra hne
        have hlt : a < b := (cons_le_cons_iff_of_ne hne).mp hlow
        have hgt : b < a := by
          have := hhigh.le
          rwa [List.cons_append, cons_le_cons_iff_of_ne (Ne.symm hne)] at this
        exact lt_asymm hlt hgt
      subst hab
      rw [List.cons_append, cons_le_cons_iff] at hlow
      have hhigh : k < stem ++ y := by
        rw [List.cons_append, List.cons_lt_cons_iff] at hhigh
        simpa using hhigh
      exact List.cons_prefix_cons.mpr ⟨rfl, ih hlow hhigh⟩

end Linear

section Bounded

variable {α : Type} [LinearOrder α] [OrderTop α]

/-- From `⊤ … ⊤` on there are only the lists that start with it. -/
theorem replicate_top_le_iff {m : Nat} {k : List α} :
    List.replicate m ⊤ ≤ k ↔ List.replicate m ⊤ <+: k := by
  constructor
  · intro h
    induction m generalizing k with
    | zero => exact List.nil_prefix
    | succ m ih =>
      rw [List.replicate_succ] at h ⊢
      cases k with
      | nil => exact absurd h (by simp)
      | cons b k =>
        have hb : (⊤ : α) = b := by
          by_contra hne
          exact not_top_lt ((cons_le_cons_iff_of_ne hne).mp h)
        subst hb
        exact List.cons_prefix_cons.mpr ⟨rfl, ih (cons_le_cons_iff.mp h)⟩
  · exact le_of_starts

/-- The lists that start with `stem ++ c :: ⊤ … ⊤` are an interval. -/
theorem prefix_iff_of_covBy {stem k : List α} {c d : α} {m : Nat} (hcover : c ⋖ d) :
    (stem ++ c :: List.replicate m ⊤ ≤ k ∧ k < stem ++ [d])
      ↔ stem ++ c :: List.replicate m ⊤ <+: k := by
  constructor
  · intro ⟨hlow, hhigh⟩
    obtain ⟨rest, rfl⟩ := prefix_of_between hlow hhigh
    rw [append_le_append_iff] at hlow
    rw [append_lt_append_iff] at hhigh
    rw [List.prefix_append_right_inj]
    cases rest with
    | nil => exact absurd hlow (by simp)
    | cons b rest =>
      have hbd : b < d := by
        rcases List.cons_lt_cons_iff.mp hhigh with h | ⟨-, h⟩
        · exact h
        · exact absurd h (by simp)
      have hcb : c = b := by
        by_contra hne
        exact hcover.2 ((cons_le_cons_iff_of_ne hne).mp hlow) hbd
      subst hcb
      rw [cons_le_cons_iff, replicate_top_le_iff] at hlow
      exact List.cons_prefix_cons.mpr ⟨rfl, hlow⟩
  · intro h
    constructor
    · exact le_of_starts h
    · obtain ⟨rest, rfl⟩ := h
      rw [List.append_assoc, append_lt_append_iff, List.cons_append, List.cons_lt_cons_iff]
      exact Or.inl hcover.1

end Bounded

end Webernetes.Base.Lexicographic
