/-
Webernetes.Base.StrictOrder — comparisons that are built from several
criteria, on the members of a set, and sorting by them.

A comparison that goes by a key first and by another comparison where the
keys agree is total when the other one is, on each class of the key
(`isTotal_lex_iff`). One that goes by the other comparison where `t` agrees,
and by a key `u` where it does not, mixes two orders: it is total exactly
when no member of one class of `t` comes between two others of a class
against the comparison inside that class (`isTotal_mixed_iff`).

`sort` is insertion by swaps. What it selects is the same for every listing
of the members when the comparison is total, and only for a comparison that
leaves no two members untold (`select_congr`, `compares_of_select`).
-/
import Mathlib.Data.List.Lex
import Mathlib.Data.List.Basic
import Mathlib.Order.Lattice
import Mathlib.Tactic.Common

namespace Webernetes.Base.StrictOrder

variable {α κ : Type}

/-! ## Orders on the members of a set -/

/-- A strict weak order on the members of `S`. -/
structure IsWeak (r : α → α → Prop) (S : α → Prop) : Prop where
  irrefl : ∀ a, S a → ¬ r a a
  trans : ∀ a b c, S a → S b → S c → r a b → r b c → r a c
  untold : ∀ a b c, S a → S b → S c →
    ¬ r a b ∧ ¬ r b a → ¬ r b c ∧ ¬ r c b → ¬ r a c ∧ ¬ r c a

/-- A strict total order on the members of `S`. -/
structure IsTotal (r : α → α → Prop) (S : α → Prop) : Prop where
  irrefl : ∀ a, S a → ¬ r a a
  trans : ∀ a b c, S a → S b → S c → r a b → r b c → r a c
  compares : ∀ a b, S a → S b → a ≠ b → r a b ∨ r b a

theorem IsTotal.asymm {r : α → α → Prop} {S : α → Prop} (h : IsTotal r S) {a b : α}
    (ha : S a) (hb : S b) (hab : r a b) : ¬ r b a := by
  intro hba
  exact h.irrefl a ha (h.trans a b a ha hb ha hab hba)

theorem isTotal_iff_isWeak {r : α → α → Prop} {S : α → Prop} :
    IsTotal r S ↔ IsWeak r S ∧ ∀ a b, S a → S b → a ≠ b → r a b ∨ r b a := by
  constructor
  · intro h
    have hsame : ∀ a b, S a → S b → ¬ r a b ∧ ¬ r b a → a = b := by
      intro a b ha hb hab
      by_contra hne
      exact (h.compares a b ha hb hne).elim hab.1 hab.2
    have hweak : IsWeak r S := by
      refine ⟨h.irrefl, h.trans, ?_⟩
      intro a b c ha hb hc hab hbc
      obtain rfl : a = b := hsame a b ha hb hab
      exact hbc
    exact ⟨hweak, h.compares⟩
  · intro h
    exact ⟨h.1.irrefl, h.1.trans, h.2⟩

theorem isTotal_congr {r r' : α → α → Prop} {S : α → Prop}
    (h : ∀ a b, S a → S b → (r a b ↔ r' a b)) : IsTotal r S ↔ IsTotal r' S := by
  have half : ∀ {r r' : α → α → Prop}, (∀ a b, S a → S b → (r a b ↔ r' a b)) →
      IsTotal r S → IsTotal r' S := by
    intro r r' h hr
    refine ⟨?_, ?_, ?_⟩
    · intro a ha haa
      exact hr.irrefl a ha ((h a a ha ha).mpr haa)
    · intro a b c ha hb hc hab hbc
      exact (h a c ha hc).mp
        (hr.trans a b c ha hb hc ((h a b ha hb).mpr hab) ((h b c hb hc).mpr hbc))
    · intro a b ha hb hne
      exact (hr.compares a b ha hb hne).imp (h a b ha hb).mp (h b a hb ha).mp
  exact ⟨half h, half fun a b ha hb => (h a b ha hb).symm⟩

/-! ## One criterion, then the rest -/

variable [LinearOrder κ]

theorem isTotal_of_key {k : α → κ} {S : α → Prop} (h : ∀ a b, S a → S b → a ≠ b → k a ≠ k b) :
    IsTotal (fun a b => k a < k b) S := by
  refine ⟨?_, ?_, ?_⟩
  · intro a _
    exact lt_irrefl (k a)
  · intro a b c _ _ _ hab hbc
    exact hab.trans hbc
  · intro a b ha hb hne
    exact lt_or_gt_of_ne (h a b ha hb hne)

theorem isTotal_lex_iff {k : α → κ} {q : α → α → Prop} {S : α → Prop} :
    IsTotal (fun a b => k a < k b ∨ k a = k b ∧ q a b) S ↔
      ∀ x, IsTotal q fun a => S a ∧ k a = x := by
  constructor
  · intro h x
    -- inside a class the key decides nothing
    have hinside : ∀ a b, k a = x → k b = x → (k a < k b ∨ k a = k b ∧ q a b) → q a b := by
      intro a b ha hb hab
      rcases hab with hlt | ⟨_, hq⟩
      · rw [ha, hb] at hlt
        exact absurd hlt (lt_irrefl x)
      · exact hq
    refine ⟨?_, ?_, ?_⟩
    · intro a ha haa
      exact h.irrefl a ha.1 (.inr ⟨rfl, haa⟩)
    · intro a b c ha hb hc hab hbc
      exact hinside a c ha.2 hc.2 (h.trans a b c ha.1 hb.1 hc.1
        (.inr ⟨ha.2.trans hb.2.symm, hab⟩) (.inr ⟨hb.2.trans hc.2.symm, hbc⟩))
    · intro a b ha hb hne
      exact (h.compares a b ha.1 hb.1 hne).imp (hinside a b ha.2 hb.2) (hinside b a hb.2 ha.2)
  · intro h
    refine ⟨?_, ?_, ?_⟩
    · intro a ha haa
      rcases haa with hlt | ⟨_, hq⟩
      · exact lt_irrefl _ hlt
      · exact (h (k a)).irrefl a ⟨ha, rfl⟩ hq
    · intro a b c ha hb hc hab hbc
      rcases hab with hab | ⟨hab, hqab⟩
      · rcases hbc with hbc | ⟨hbc, _⟩
        · exact .inl (hab.trans hbc)
        · exact .inl (hbc ▸ hab)
      · rcases hbc with hbc | ⟨hbc, hqbc⟩
        · exact .inl (hab.symm ▸ hbc)
        · have hq := (h (k a)).trans a b c ⟨ha, rfl⟩ ⟨hb, hab.symm⟩ ⟨hc, (hab.trans hbc).symm⟩
            hqab hqbc
          exact .inr ⟨hab.trans hbc, hq⟩
    · intro a b ha hb hne
      rcases lt_trichotomy (k a) (k b) with hlt | heq | hlt
      · exact .inl (.inl hlt)
      · exact ((h (k a)).compares a b ⟨ha, rfl⟩ ⟨hb, heq.symm⟩ hne).imp
          (fun hq => .inr ⟨heq, hq⟩) (fun hq => .inr ⟨heq.symm, hq⟩)
      · exact .inr (.inl hlt)

/-! ## Two orders mixed -/

section Mixed

variable {τ : Type} [DecidableEq τ] {t : α → τ} {u : α → κ} {q : α → α → Prop} {S : α → Prop}

/-- By `q` where `t` agrees, else by the key `u`. -/
def mixed (t : α → τ) (u : α → κ) (q : α → α → Prop) (a b : α) : Prop :=
  if t a = t b then q a b else u a < u b

theorem mixed_of_eq {a b : α} (h : t a = t b) : mixed t u q a b ↔ q a b := by
  rw [mixed, if_pos h]

theorem mixed_of_ne {a b : α} (h : t a ≠ t b) : mixed t u q a b ↔ u a < u b := by
  rw [mixed, if_neg h]

/-- The classes of `t` are ordered by `q`, and where `q` puts `a` before `b` in a
class, nothing of another class lies from `b` to `a` by the key. -/
structure Unmixed (t : α → τ) (u : α → κ) (q : α → α → Prop) (S : α → Prop) : Prop where
  inside : ∀ x, IsTotal q fun a => S a ∧ t a = x
  apart : ∀ a b c, S a → S b → S c → t a = t b → t c ≠ t a → q a b → u b < u c → ¬ u c < u a

theorem unmixed_of_isTotal (h : IsTotal (mixed t u q) S) : Unmixed t u q S := by
  refine ⟨?_, ?_⟩
  · intro x
    have hinside : ∀ a b, t a = x → t b = x → (mixed t u q a b ↔ q a b) := by
      intro a b ha hb
      exact mixed_of_eq (ha.trans hb.symm)
    refine ⟨?_, ?_, ?_⟩
    · intro a ha haa
      exact h.irrefl a ha.1 ((hinside a a ha.2 ha.2).mpr haa)
    · intro a b c ha hb hc hab hbc
      exact (hinside a c ha.2 hc.2).mp (h.trans a b c ha.1 hb.1 hc.1
        ((hinside a b ha.2 hb.2).mpr hab) ((hinside b c hb.2 hc.2).mpr hbc))
    · intro a b ha hb hne
      exact (h.compares a b ha.1 hb.1 hne).imp (hinside a b ha.2 hb.2).mp (hinside b a hb.2 ha.2).mp
  · intro a b c ha hb hc hab hne hq hbc hca
    -- the three go round: `a` before `b` before `c` before `a`
    have hab' : mixed t u q a b := (mixed_of_eq hab).mpr hq
    have hbc' : mixed t u q b c := (mixed_of_ne (hab ▸ hne.symm)).mpr hbc
    have hca' : mixed t u q c a := (mixed_of_ne hne).mpr hca
    exact h.asymm ha hc (h.trans a b c ha hb hc hab' hbc') hca'

theorem isTotal_of_unmixed (hu : ∀ a b, S a → S b → t a ≠ t b → u a ≠ u b)
    (h : Unmixed t u q S) : IsTotal (mixed t u q) S := by
  refine ⟨?_, ?_, ?_⟩
  · intro a ha haa
    exact (h.inside (t a)).irrefl a ⟨ha, rfl⟩ ((mixed_of_eq rfl).mp haa)
  · intro a b c ha hb hc hab hbc
    by_cases htab : t a = t b
    · have hqab : q a b := (mixed_of_eq htab).mp hab
      by_cases htbc : t b = t c
      · have hqbc : q b c := (mixed_of_eq htbc).mp hbc
        exact (mixed_of_eq (htab.trans htbc)).mpr ((h.inside (t a)).trans a b c ⟨ha, rfl⟩
          ⟨hb, htab.symm⟩ ⟨hc, (htab.trans htbc).symm⟩ hqab hqbc)
      · have htac : t a ≠ t c := by
          rw [htab]
          exact htbc
        have hubc : u b < u c := (mixed_of_ne htbc).mp hbc
        have hle : u a ≤ u c := not_lt.mp (h.apart a b c ha hb hc htab htac.symm hqab hubc)
        exact (mixed_of_ne htac).mpr (lt_of_le_of_ne hle (hu a c ha hc htac))
    · have huab : u a < u b := (mixed_of_ne htab).mp hab
      by_cases htbc : t b = t c
      · have hqbc : q b c := (mixed_of_eq htbc).mp hbc
        have htac : t a ≠ t c := by
          rw [← htbc]
          exact htab
        have hle : u a ≤ u c := by
          by_contra hlt
          exact h.apart b c a hb hc ha htbc htab hqbc (not_le.mp hlt) huab
        exact (mixed_of_ne htac).mpr (lt_of_le_of_ne hle (hu a c ha hc htac))
      · have hubc : u b < u c := (mixed_of_ne htbc).mp hbc
        by_cases htac : t a = t c
        · refine (mixed_of_eq htac).mpr ?_
          have hne : a ≠ c := by
            intro hac
            subst hac
            exact lt_asymm huab hubc
          rcases (h.inside (t a)).compares a c ⟨ha, rfl⟩ ⟨hc, htac.symm⟩ hne with hq | hq
          · exact hq
          · exact absurd hubc (h.apart c a b hc ha hb htac.symm htbc hq huab)
        · exact (mixed_of_ne htac).mpr (huab.trans hubc)
  · intro a b ha hb hne
    by_cases hab : t a = t b
    · exact ((h.inside (t a)).compares a b ⟨ha, rfl⟩ ⟨hb, hab.symm⟩ hne).imp
        (mixed_of_eq hab).mpr (mixed_of_eq hab.symm).mpr
    · exact (lt_or_gt_of_ne (hu a b ha hb hab)).imp
        (mixed_of_ne hab).mpr (mixed_of_ne (Ne.symm hab)).mpr

end Mixed

/-! ## Insertion by swaps -/

section Insertion

variable {less : α → α → Bool}

/-- `x` behind the elements of `done`, the last one first, moves forward by one
place for as long as it is less than the element in front of it. -/
def sift (less : α → α → Bool) (x : α) : List α → List α
  | [] => [x]
  | y :: done => if less x y then y :: sift less x done else x :: y :: done

/-- The elements in turn, each sifted into the ones before it. -/
def sort (less : α → α → Bool) (l : List α) : List α :=
  (l.foldl (fun done x => sift less x done) []).reverse

theorem sift_perm (x : α) (done : List α) : (sift less x done).Perm (x :: done) := by
  induction done with
  | nil => exact .refl _
  | cons y done ih =>
    rw [sift]
    split
    · exact (ih.cons y).trans (.swap x y done)
    · exact .refl _

theorem foldl_sift_perm (l done : List α) :
    (l.foldl (fun done x => sift less x done) done).Perm (l ++ done) := by
  induction l generalizing done with
  | nil => exact .refl _
  | cons x l ih =>
    have hsift : (l ++ sift less x done).Perm (l ++ x :: done) := (sift_perm x done).append_left l
    exact ((ih _).trans hsift).trans List.perm_middle

theorem sort_perm (l : List α) : (sort less l).Perm l := by
  have h : (l.foldl (fun done x => sift less x done) []).Perm (l ++ []) := foldl_sift_perm l []
  rw [List.append_nil] at h
  exact (List.reverse_perm _).trans h

/-! ### A total comparison -/

theorem sift_pairwise {S : α → Prop} (h : IsTotal (fun a b => less a b = true) S) {x : α}
    {done : List α} (hx : S x) (hdone : ∀ y ∈ done, S y) (hnew : x ∉ done)
    (hsorted : done.Pairwise fun y z => less z y = true) :
    (sift less x done).Pairwise fun y z => less z y = true := by
  induction done with
  | nil => exact List.pairwise_singleton _ _
  | cons y done ih =>
    obtain ⟨hy, hrest⟩ := List.pairwise_cons.mp hsorted
    have hSy : S y := hdone y List.mem_cons_self
    have hSrest : ∀ z ∈ done, S z := fun z hz => hdone z (List.mem_cons_of_mem _ hz)
    rw [sift]
    split
    · rename_i hless
      refine List.pairwise_cons.mpr ⟨?_, ?_⟩
      · intro z hz
        rcases List.mem_cons.mp ((sift_perm x done).mem_iff.mp hz) with rfl | hz
        · exact hless
        · exact hy z hz
      · exact ih hSrest (fun hmem => hnew (List.mem_cons_of_mem _ hmem)) hrest
    · rename_i hless
      have hne : y ≠ x := by
        rintro rfl
        exact hnew List.mem_cons_self
      have hyx : less y x = true := (h.compares y x hSy hx hne).resolve_right hless
      refine List.pairwise_cons.mpr ⟨?_, hsorted⟩
      intro z hz
      rcases List.mem_cons.mp hz with rfl | hz
      · exact hyx
      · exact h.trans z y x (hSrest z hz) hSy hx (hy z hz) hyx

theorem foldl_sift_pairwise {S : α → Prop} (h : IsTotal (fun a b => less a b = true) S)
    {l done : List α} (hl : ∀ y ∈ l, S y) (hdone : ∀ y ∈ done, S y) (hnew : (l ++ done).Nodup)
    (hsorted : done.Pairwise fun y z => less z y = true) :
    (l.foldl (fun done x => sift less x done) done).Pairwise fun y z => less z y = true := by
  induction l generalizing done with
  | nil => exact hsorted
  | cons x l ih =>
    have hx : S x := hl x List.mem_cons_self
    have hnew' : (l ++ x :: done).Nodup := List.perm_middle.nodup_iff.mpr hnew
    have hfresh : x ∉ done := by
      intro hmem
      exact (List.nodup_cons.mp hnew).1 (List.mem_append_right l hmem)
    refine ih (fun y hy => hl y (List.mem_cons_of_mem _ hy)) ?_ ?_
      (sift_pairwise h hx hdone hfresh hsorted)
    · intro y hy
      rcases List.mem_cons.mp ((sift_perm x done).mem_iff.mp hy) with rfl | hy
      · exact hx
      · exact hdone y hy
    · exact ((sift_perm x done).append_left l).nodup_iff.mpr hnew'

theorem sort_pairwise {l : List α} (h : IsTotal (fun a b => less a b = true) (· ∈ l))
    (hnew : l.Nodup) : (sort less l).Pairwise fun a b => less a b = true := by
  have hnil : (l ++ []).Nodup := by
    rw [List.append_nil]
    exact hnew
  exact List.pairwise_reverse.mpr
    (foldl_sift_pairwise h (fun _ hy => hy) (fun _ hy => absurd hy List.not_mem_nil) hnil .nil)

/-- A total comparison sorts every listing of its members into the same list. -/
theorem sort_congr {l l' : List α} (h : IsTotal (fun a b => less a b = true) (· ∈ l))
    (hnew : l.Nodup) (hperm : l'.Perm l) : sort less l' = sort less l := by
  have h' : IsTotal (fun a b => less a b = true) (· ∈ l') := by
    have hmem : (· ∈ l') = (· ∈ l) := funext fun a => propext hperm.mem_iff
    rw [hmem]
    exact h
  have hsame : (sort less l').Perm (sort less l) :=
    ((sort_perm l').trans hperm).trans (sort_perm l).symm
  refine hsame.eq_of_pairwise ?_ (sort_pairwise h' (hperm.nodup_iff.mpr hnew))
    (sort_pairwise h hnew)
  intro a b ha hb hab hba
  have ha' : a ∈ l := hperm.mem_iff.mp ((sort_perm l').mem_iff.mp ha)
  have hb' : b ∈ l := (sort_perm l).mem_iff.mp hb
  exact absurd hba (h.asymm ha' hb' hab)

/-! ### Members that are not told apart -/

/-- The first element of a listing stays behind only what is less than it. -/
theorem foldl_sift_front {a : α} (l front back : List α) (hback : ∀ x ∈ back, less x a = true) :
    ∃ front' back', l.foldl (fun done x => sift less x done) (front ++ a :: back) =
      front' ++ a :: back' ∧ ∀ x ∈ back', less x a = true := by
  induction l generalizing front back with
  | nil => exact ⟨front, back, rfl, hback⟩
  | cons x l ih =>
    have hstep : ∃ front' back', sift less x (front ++ a :: back) = front' ++ a :: back' ∧
        ∀ y ∈ back', less y a = true := by
      clear ih
      induction front with
      | nil =>
        rw [List.nil_append, sift]
        split
        · rename_i hless
          refine ⟨[], sift less x back, rfl, ?_⟩
          intro y hy
          rcases List.mem_cons.mp ((sift_perm x back).mem_iff.mp hy) with rfl | hy
          · exact hless
          · exact hback y hy
        · exact ⟨[x], back, rfl, hback⟩
      | cons y front ih =>
        rw [List.cons_append, sift]
        split
        · obtain ⟨front', back', heq, hback'⟩ := ih
          exact ⟨y :: front', back', by rw [heq, List.cons_append], hback'⟩
        · exact ⟨x :: y :: front, back, rfl, hback⟩
    obtain ⟨front', back', heq, hback'⟩ := hstep
    rw [List.foldl_cons, heq]
    exact ih front' back' hback'

theorem sort_front (less : α → α → Bool) (a : α) (l : List α) :
    ∃ before after, sort less (a :: l) = before ++ a :: after ∧
      ∀ x ∈ before, less x a = true := by
  have h : ∃ front back, l.foldl (fun done x => sift less x done) ([] ++ [a]) = front ++ a :: back ∧
      ∀ x ∈ back, less x a = true :=
    foldl_sift_front l [] [] fun x hx => absurd hx List.not_mem_nil
  obtain ⟨front, back, heq, hback⟩ := h
  refine ⟨back.reverse, front.reverse, ?_, ?_⟩
  · rw [List.nil_append] at heq
    rw [sort, List.foldl_cons, sift, heq]
    simp
  · intro x hx
    exact hback x (List.mem_reverse.mp hx)

theorem eq_of_take_perm {l l' : List α} (h : ∀ k, (l.take k).Perm (l'.take k)) : l = l' := by
  induction l generalizing l' with
  | nil =>
    cases l' with
    | nil => rfl
    | cons b l' => exact absurd (h 1).length_eq (by simp)
  | cons a l ih =>
    cases l' with
    | nil => exact absurd (h 1).length_eq (by simp)
    | cons b l' =>
      have hab : a = b := by
        have := h 1
        simpa using this
      subst hab
      have hrest : l = l' := by
        refine ih fun k => ?_
        have := h (k + 1)
        exact List.perm_cons _ |>.mp this
      rw [hrest]

/-- Where the first elements after sorting are the same for every listing, no
two members are left untold. -/
theorem compares_of_select {l : List α}
    (h : ∀ l', l'.Perm l → ∀ k, ((sort less l').take k).Perm ((sort less l).take k))
    {a b : α} (ha : a ∈ l) (hb : b ∈ l) (hne : a ≠ b) : less a b = true ∨ less b a = true := by
  classical
  by_contra hnot
  have hfront : ∀ x ∈ l, (x :: l.erase x).Perm l := fun x hx => (List.perm_cons_erase hx).symm
  -- each of the two is first in a listing, and stays in front of the other one
  obtain ⟨before, after, heq, hbefore⟩ := sort_front less a (l.erase a)
  obtain ⟨before', after', heq', hbefore'⟩ := sort_front less b (l.erase b)
  have hsame : sort less (a :: l.erase a) = sort less (b :: l.erase b) := by
    have hall : ∀ l', l'.Perm l → sort less l' = sort less l :=
      fun l' hl' => eq_of_take_perm (h l' hl')
    rw [hall _ (hfront a ha), hall _ (hfront b hb)]
  rw [heq, heq'] at hsame
  rcases List.append_eq_append_iff.mp hsame with ⟨mid, hmid, htail⟩ | ⟨mid, hmid, htail⟩
  · cases mid with
    | nil =>
      rw [List.nil_append, List.cons.injEq] at htail
      exact hne htail.1
    | cons x mid =>
      rw [List.cons_append, List.cons.injEq] at htail
      have hmem : a ∈ before' := by
        rw [hmid, ← htail.1]
        exact List.mem_append_right _ List.mem_cons_self
      exact hnot (.inl (hbefore' a hmem))
  · cases mid with
    | nil =>
      rw [List.nil_append, List.cons.injEq] at htail
      exact hne htail.1.symm
    | cons x mid =>
      rw [List.cons_append, List.cons.injEq] at htail
      have hmem : b ∈ before := by
        rw [hmid, ← htail.1]
        exact List.mem_append_right _ List.mem_cons_self
      exact hnot (.inr (hbefore b hmem))

end Insertion

end Webernetes.Base.StrictOrder
