/-
Webernetes.Base.Swaps — lists up to swaps of neighbours.

`Swaps free` relates two lists when one becomes the other by swaps of
neighbours that are free to trade places. A stable sort is reached by swaps
of neighbours that stand the wrong way round (`swaps_insertionSort`), and
does not see a swap of neighbours it tells apart (`Swaps.insertionSort_eq`).
-/
import Mathlib.Data.List.Sort

namespace Webernetes.Base

universe u v

variable {α : Type u} {β : Type v} {free : α → α → Prop} {l l' : List α}

inductive Swaps (free : α → α → Prop) : List α → List α → Prop where
  | refl (l : List α) : Swaps free l l
  | cons {l l' : List α} (x : α) (h : Swaps free l l') : Swaps free (x :: l) (x :: l')
  | swap {x y : α} (l : List α) (h : free x y) : Swaps free (x :: y :: l) (y :: x :: l)
  | trans {l l' l'' : List α} (h : Swaps free l l') (h' : Swaps free l' l'') : Swaps free l l''

namespace Swaps

theorem symm (hfree : ∀ x y, free x y → free y x) (h : Swaps free l l') : Swaps free l' l := by
  induction h with
  | refl l => exact .refl l
  | cons x _ ih => exact .cons x ih
  | swap l hxy => exact .swap l (hfree _ _ hxy)
  | trans _ _ ih ih' => exact .trans ih' ih

theorem perm (h : Swaps free l l') : l.Perm l' := by
  induction h with
  | refl l => exact .refl l
  | cons x _ ih => exact ih.cons x
  | swap l _ => exact .swap _ _ l
  | trans _ _ ih ih' => exact ih.trans ih'

theorem map {free' : β → β → Prop} (f : α → β) (hf : ∀ x y, free x y → free' (f x) (f y))
    (h : Swaps free l l') : Swaps free' (l.map f) (l'.map f) := by
  induction h with
  | refl l => exact .refl _
  | cons x _ ih => exact .cons _ ih
  | swap l hxy => exact .swap _ (hf _ _ hxy)
  | trans _ _ ih ih' => exact .trans ih ih'

theorem mono {free' : α → α → Prop} (hf : ∀ x y, free x y → free' x y) (h : Swaps free l l') :
    Swaps free' l l' := by
  simpa using h.map id hf

theorem append_left (before : List α) (h : Swaps free l l') :
    Swaps free (before ++ l) (before ++ l') := by
  induction before with
  | nil => exact h
  | cons x before ih => exact .cons x ih

theorem append_right (after : List α) (h : Swaps free l l') :
    Swaps free (l ++ after) (l' ++ after) := by
  induction h with
  | refl l => exact .refl _
  | cons x _ ih => exact .cons x ih
  | swap l hxy => exact .swap _ hxy
  | trans _ _ ih ih' => exact .trans ih ih'

/-- Of the elements that are kept, only kept ones trade places. -/
theorem filter (p : α → Bool) (h : Swaps free l l') :
    Swaps (fun x y => free x y ∧ p x = true ∧ p y = true) (l.filter p) (l'.filter p) := by
  induction h with
  | refl l => exact .refl _
  | cons x _ ih =>
    by_cases hx : p x = true
    · rw [List.filter_cons_of_pos hx, List.filter_cons_of_pos hx]
      exact .cons x ih
    · rw [List.filter_cons_of_neg hx, List.filter_cons_of_neg hx]
      exact ih
  | swap l hxy =>
    rename_i x y
    by_cases hx : p x = true
    · by_cases hy : p y = true
      · simp only [List.filter_cons_of_pos hx, List.filter_cons_of_pos hy]
        exact .swap _ ⟨hxy, hx, hy⟩
      · simp only [List.filter_cons_of_pos hx, List.filter_cons_of_neg hy]
        exact .refl _
    · simp only [List.filter_cons_of_neg hx]
      by_cases hy : p y = true
      · simp only [List.filter_cons_of_pos hy, List.filter_cons_of_neg hx]
        exact .refl _
      · simp only [List.filter_cons_of_neg hx, List.filter_cons_of_neg hy]
        exact .refl _
  | trans _ _ ih ih' => exact .trans ih ih'

/-- Where any two are free to trade places, every order is reached. -/
theorem of_perm (hfree : ∀ x y, free x y → free y x) (h : l.Perm l') (hl : l.Pairwise free) :
    Swaps free l l' := by
  induction h with
  | nil => exact .refl _
  | cons x _ ih => exact .cons x (ih (List.pairwise_cons.mp hl).2)
  | swap x y l =>
    have hyx : free y x := (List.pairwise_cons.mp hl).1 x List.mem_cons_self
    exact .swap l hyx
  | trans h _ ih ih' => exact .trans (ih hl) (ih' (hl.perm h (hfree _ _)))

end Swaps

/-! ## Sorting by swaps -/

section Sorting

variable (r : α → α → Prop) [DecidableRel r]

theorem swaps_orderedInsert {x : α} (h : ∀ y ∈ l, ¬ r x y → free x y) :
    Swaps free (x :: l) (l.orderedInsert r x) := by
  induction l with
  | nil => exact .refl _
  | cons y l ih =>
    by_cases hxy : r x y
    · rw [List.orderedInsert_cons_of_le r l hxy]
      exact .refl _
    · rw [List.orderedInsert_of_not_le r l hxy]
      have hback : free x y := h y List.mem_cons_self hxy
      exact .trans (.swap l hback) (.cons y (ih fun z hz => h z (List.mem_cons_of_mem _ hz)))

theorem swaps_insertionSort (h : ∀ x ∈ l, ∀ y ∈ l, ¬ r x y → free x y) :
    Swaps free l (l.insertionSort r) := by
  induction l with
  | nil => exact .refl _
  | cons x l ih =>
    have hsorted := ih fun y hy z hz =>
      h y (List.mem_cons_of_mem _ hy) z (List.mem_cons_of_mem _ hz)
    refine .trans (.cons x hsorted) (swaps_orderedInsert r fun y hy => ?_)
    exact h x List.mem_cons_self y (List.mem_cons_of_mem _ ((List.mem_insertionSort r).mp hy))

/-- First the elements with a property, then the others. -/
theorem swaps_partition (p : α → Bool) (h : ∀ x y, p x = false → p y = true → free x y)
    (l : List α) : Swaps free l (l.filter p ++ l.filter (fun x => !p x)) := by
  have hback : ∀ (x : α) (front rest : List α), p x = false → (∀ y ∈ front, p y = true) →
      Swaps free (x :: (front ++ rest)) (front ++ x :: rest) := by
    intro x front rest hx hfront
    induction front with
    | nil => exact .refl _
    | cons y front ih =>
      have hxy : free x y := h x y hx (hfront y List.mem_cons_self)
      exact .trans (.swap _ hxy) (.cons y (ih fun z hz => hfront z (List.mem_cons_of_mem _ hz)))
  induction l with
  | nil => exact .refl _
  | cons x l ih =>
    by_cases hx : p x = true
    · rw [List.filter_cons_of_pos hx, List.filter_cons_of_neg (by simpa using hx)]
      exact .cons x ih
    · rw [List.filter_cons_of_neg hx, List.filter_cons_of_pos (by simpa using hx)]
      exact .trans (.cons x ih) (hback x _ _ (by simpa using hx) fun y hy => List.of_mem_filter hy)

/-! ## Swaps a sort does not see -/

/-- Of two that are told apart, the order in which they are put in does not
matter. -/
theorem orderedInsert_comm [IsTrans α r] {x y : α} (hxy : r x y) (hyx : ¬ r y x) (l : List α) :
    (l.orderedInsert r y).orderedInsert r x = (l.orderedInsert r x).orderedInsert r y := by
  induction l with
  | nil => simp [hxy, hyx]
  | cons z l ih =>
    by_cases hyz : r y z
    · have hxz : r x z := IsTrans.trans x y z hxy hyz
      simp [hyz, hxz, hxy, hyx]
    · by_cases hxz : r x z
      · simp [hyz, hxz, hyx]
      · simp [hyz, hxz, ih]

theorem Swaps.insertionSort_eq [Std.Total r] [IsTrans α r]
    (hfree : ∀ x y, free x y → ¬ (r x y ∧ r y x)) (h : Swaps free l l') :
    l.insertionSort r = l'.insertionSort r := by
  induction h with
  | refl l => rfl
  | cons x _ ih => rw [List.insertionSort_cons, ih, List.insertionSort_cons]
  | swap l hxy =>
    rename_i x y
    simp only [List.insertionSort_cons]
    rcases Std.Total.total (r := r) x y with hle | hle
    · exact orderedInsert_comm r hle (fun hge => hfree x y hxy ⟨hle, hge⟩) _
    · exact (orderedInsert_comm r hle (fun hge => hfree x y hxy ⟨hge, hle⟩) _).symm
  | trans _ _ ih ih' => exact ih.trans ih'

end Sorting

end Webernetes.Base
