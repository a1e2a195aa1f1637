/-
Webernetes.Base.Cyclic — going round a finite set in its order.

A partial function that leads from each element of a finite set to the next
greater one, and from the greatest to the least, visits the whole set from
wherever it starts (`Cycles.visits`): first what lies above the start
(`Cycles.climbs`), then, from the greatest element, the rest.
-/
import Mathlib.Data.Finset.Card
import Mathlib.Data.Finset.Max

namespace Webernetes.Base

variable {α : Type}

/-- `n` steps of `next`. -/
def walk (next : α → Option α) : Nat → α → Option α
  | 0, x => some x
  | n + 1, x => (next x).bind (walk next n)

theorem walk_add (next : α → Option α) (n m : Nat) (x : α) :
    walk next (n + m) x = (walk next n x).bind (walk next m) := by
  induction n generalizing x with
  | zero => rw [Nat.zero_add, walk, Option.bind_some]
  | succ n ih =>
    rw [Nat.succ_add, walk, walk]
    cases next x with
    | none => rfl
    | some y => exact ih y

theorem walk_trans {next : α → Option α} {x y z : α} (hxy : ∃ n, walk next n x = some y)
    (hyz : ∃ n, walk next n y = some z) : ∃ n, walk next n x = some z := by
  obtain ⟨n, hn⟩ := hxy
  obtain ⟨m, hm⟩ := hyz
  exact ⟨n + m, by rw [walk_add, hn, Option.bind_some, hm]⟩

theorem walk_one {next : α → Option α} {x y : α} (h : next x = some y) : walk next 1 x = some y := by
  rw [walk, h]
  rfl

section Linear

variable [LinearOrder α] {s : Finset α} {next : α → Option α}

/-- `y` comes after `x`: the least element above it, or the least of all
where there is none above. -/
def IsNext (s : Finset α) (x y : α) : Prop :=
  (x < y ∧ ∀ z ∈ s, x < z → y ≤ z) ∨ ((∀ z ∈ s, z ≤ x) ∧ ∀ z ∈ s, y ≤ z)

/-- `next` goes round `s`. -/
structure Cycles (next : α → Option α) (s : Finset α) : Prop where
  none : ∀ x ∈ s, next x = none → ∀ y ∈ s, y = x
  some : ∀ x ∈ s, ∀ y, next x = some y → y ∈ s ∧ y ≠ x ∧ IsNext s x y

namespace Cycles

theorem exists_next (h : Cycles next s) {x y : α} (hx : x ∈ s) (hy : y ∈ s) (hne : y ≠ x) :
    ∃ z, next x = Option.some z := by
  cases hnext : next x with
  | none => exact absurd (h.none x hx hnext y hy) hne
  | some z => exact ⟨z, rfl⟩

/-- By induction on the number of elements above `x`. -/
theorem climbs (h : Cycles next s) : ∀ (n : Nat) {x y : α}, (s.filter (x < ·)).card = n → x ∈ s →
    y ∈ s → x ≤ y → ∃ k, walk next k x = Option.some y := by
  intro n
  induction n using Nat.strongRecOn with
  | ind n ih =>
    intro x y hn hx hy hxy
    rcases hxy.eq_or_lt with rfl | hlt
    · exact ⟨0, rfl⟩
    · obtain ⟨z, hz⟩ := h.exists_next hx hy hlt.ne'
      obtain ⟨hzs, -, hnext⟩ := h.some x hx z hz
      obtain ⟨hxz, hleast⟩ | ⟨hgreatest, -⟩ := hnext
      · have hfewer : s.filter (z < ·) ⊂ s.filter (x < ·) := by
          refine Finset.ssubset_iff_subset_ne.mpr ⟨?_, ?_⟩
          · intro w hw
            simp only [Finset.mem_filter] at hw ⊢
            exact ⟨hw.1, hxz.trans hw.2⟩
          · intro heq
            have hz' : z ∈ s.filter (x < ·) := by simp [hzs, hxz]
            rw [← heq] at hz'
            simp at hz'
        have hrest := ih _ (hn ▸ Finset.card_lt_card hfewer) rfl hzs hy (hleast y hy hlt)
        exact walk_trans ⟨1, walk_one hz⟩ hrest
      · exact absurd (hgreatest y hy) (not_le.mpr hlt)

/-- **Every element is visited, from wherever the walk starts.** -/
theorem visits (h : Cycles next s) {x y : α} (hx : x ∈ s) (hy : y ∈ s) :
    ∃ k, walk next k x = Option.some y := by
  rcases le_or_gt x y with hxy | hlt
  · exact h.climbs _ rfl hx hy hxy
  · -- through the greatest element, which is not `y`
    let top := s.max' ⟨x, hx⟩
    have htop : top ∈ s := s.max'_mem _
    have hxtop : x ≤ top := s.le_max' x hx
    obtain ⟨z, hz⟩ := h.exists_next htop hy (hlt.trans_le hxtop).ne
    obtain ⟨hzs, -, hnext⟩ := h.some top htop z hz
    have hzy : z ≤ y := by
      obtain ⟨hup, -⟩ | ⟨-, hleast⟩ := hnext
      · exact absurd (s.le_max' z hzs) (not_le.mpr hup)
      · exact hleast y hy
    have hdown := h.climbs _ rfl hzs hy hzy
    exact walk_trans (h.climbs _ rfl hx htop hxtop) (walk_trans ⟨1, walk_one hz⟩ hdown)

end Cycles

end Linear

end Webernetes.Base
