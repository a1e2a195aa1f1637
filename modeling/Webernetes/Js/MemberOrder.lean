/-
Webernetes.Js.MemberOrder — objects and the order of their members.

`Json.Reorder free` relates two values when one becomes the other by swaps,
at any depth, of neighbouring members whose names are free to trade places.
`Json.Same` is structural equality: any two members of different names are,
so members may stand in any order (`same_of_perm`).

`ownOrder` is the order `Object.entries` goes in: array indices ascending,
then the other names as they came.
-/
import Webernetes.Base.Swaps
import Webernetes.Js.Decimal
import Webernetes.Js.Json

namespace Webernetes.Js

open Base

variable {N : Type}

/-- A member is its name and value. -/
def freeNames (free : JsString → JsString → Prop) (x y : JsString × Json N) : Prop := free x.1 y.1

namespace Json

/-! ## Values up to the order of members -/

inductive Reorder (free : JsString → JsString → Prop) : Json N → Json N → Prop where
  | refl (v : Json N) : Reorder free v v
  | trans {u v w : Json N} (h : Reorder free u v) (h' : Reorder free v w) : Reorder free u w
  | item (before after : List (Json N)) {v w : Json N} (h : Reorder free v w) :
      Reorder free (.array (before ++ v :: after)) (.array (before ++ w :: after))
  | member (before after : Fields N) (name : JsString) {v w : Json N} (h : Reorder free v w) :
      Reorder free (.object (before ++ (name, v) :: after)) (.object (before ++ (name, w) :: after))
  | swaps {fields fields' : Fields N} (h : Swaps (freeNames free) fields fields') :
      Reorder free (.object fields) (.object fields')

/-- Structural equality, whatever the order of members. -/
def Same (v w : Json N) : Prop := Reorder (· ≠ ·) v w

namespace Reorder

variable {free : JsString → JsString → Prop}

theorem symm (hfree : ∀ a b, free a b → free b a) {v w : Json N} (h : Reorder free v w) :
    Reorder free w v := by
  induction h with
  | refl v => exact .refl v
  | trans _ _ ih ih' => exact .trans ih' ih
  | item before after _ ih => exact .item before after ih
  | member before after name _ ih => exact .member before after name ih
  | swaps h => exact .swaps (h.symm fun x y => hfree x.1 y.1)

theorem mono {free' : JsString → JsString → Prop} (hfree : ∀ a b, free a b → free' a b)
    {v w : Json N} (h : Reorder free v w) : Reorder free' v w := by
  induction h with
  | refl v => exact .refl v
  | trans _ _ ih ih' => exact .trans ih ih'
  | item before after _ ih => exact .item before after ih
  | member before after name _ ih => exact .member before after name ih
  | swaps h => exact .swaps (h.mono fun x y => hfree x.1 y.1)

/-- Each item up to reordering. -/
theorem array_map {f : Json N → Json N} (before items : List (Json N))
    (h : ∀ item ∈ items, Reorder free item (f item)) :
    Reorder free (.array (before ++ items)) (.array (before ++ items.map f)) := by
  induction items generalizing before with
  | nil => exact .refl _
  | cons item items ih =>
    have hitem := Reorder.item before items (h item List.mem_cons_self)
    have hrest := ih (before ++ [f item]) fun i hi => h i (List.mem_cons_of_mem _ hi)
    simp only [List.append_assoc, List.singleton_append] at hrest
    exact .trans hitem hrest

/-- Each member up to reordering. -/
theorem object_map {f : Json N → Json N} (before fields : Fields N)
    (h : ∀ member ∈ fields, Reorder free member.2 (f member.2)) :
    Reorder free (.object (before ++ fields))
      (.object (before ++ fields.map fun member => (member.1, f member.2))) := by
  induction fields generalizing before with
  | nil => exact .refl _
  | cons member fields ih =>
    have hmember := Reorder.member before fields member.1 (h member List.mem_cons_self)
    have hrest := ih (before ++ [(member.1, f member.2)]) fun m hm =>
      h m (List.mem_cons_of_mem _ hm)
    simp only [List.append_assoc, List.singleton_append] at hrest
    exact .trans hmember hrest

end Reorder

namespace Same

theorem refl (v : Json N) : Same v v := Reorder.refl v

theorem symm {v w : Json N} (h : Same v w) : Same w v := Reorder.symm (fun _ _ => Ne.symm) h

theorem trans {u v w : Json N} (h : Same u v) (h' : Same v w) : Same u w := Reorder.trans h h'

end Same

/-- The same members in another order. -/
theorem same_of_perm {fields fields' : Fields N} (h : fields.Perm fields')
    (hnames : (fields.map Prod.fst).Nodup) : Same (.object fields) (.object fields') := by
  have hfree : fields.Pairwise (freeNames (· ≠ ·)) := by
    rw [List.Nodup, List.pairwise_map] at hnames
    exact hnames
  exact .swaps (Swaps.of_perm (fun _ _ => Ne.symm) h hfree)

end Json

/-! ## The order of own properties -/

/-- The number a name of an array index spells. -/
def arrayIndex (name : JsString) : Option Nat :=
  if name.all (fun u => decide (0x30 ≤ u.val ∧ u.val ≤ 0x39)) then
    let n := name.foldl (fun n u => n * 10 + (u.val - 0x30)) 0
    if n < 4294967295 ∧ decimal n = name then some n else none
  else none

theorem decimal_of_arrayIndex {name : JsString} {n : Nat} (h : arrayIndex name = some n) :
    decimal n = name := by
  simp only [arrayIndex] at h
  split at h
  · split at h
    · rename_i hboth
      cases h
      exact hboth.2
    · cases h
  · cases h

theorem arrayIndex_inj {a b : JsString} {n : Nat} (ha : arrayIndex a = some n)
    (hb : arrayIndex b = some n) : a = b := by
  rw [← decimal_of_arrayIndex ha, decimal_of_arrayIndex hb]

def isIndex (member : JsString × Json N) : Bool := (arrayIndex member.1).isSome

/-- The index a member stands at, as far as it has one. -/
def indexOf (member : JsString × Json N) : Nat := (arrayIndex member.1).getD 0

def byIndex (x y : JsString × Json N) : Prop := indexOf x ≤ indexOf y

instance : DecidableRel (byIndex : JsString × Json N → _ → Prop) :=
  fun x y => inferInstanceAs (Decidable (indexOf x ≤ indexOf y))

instance : Std.Total (byIndex : JsString × Json N → _ → Prop) where
  total x y := Nat.le_total (indexOf x) (indexOf y)

instance : IsTrans (JsString × Json N) byIndex where
  trans _ _ _ := Nat.le_trans

/-- Indices ascending, the other names as they came. -/
def ownOrder (fields : Fields N) : Fields N :=
  (fields.filter isIndex).insertionSort byIndex ++ fields.filter fun member => !isIndex member

theorem indexOf_inj {x y : JsString × Json N} (hx : isIndex x = true) (hy : isIndex y = true)
    (h : indexOf x = indexOf y) : x.1 = y.1 := by
  obtain ⟨m, hm⟩ := Option.isSome_iff_exists.mp hx
  obtain ⟨n, hn⟩ := Option.isSome_iff_exists.mp hy
  rw [indexOf, indexOf, hm, hn] at h
  cases h
  exact arrayIndex_inj hm hn

/-- Members of which one is an index, and of different names. -/
def IndexApart (x y : JsString × Json N) : Prop :=
  x.1 ≠ y.1 ∧ (isIndex x = true ∨ isIndex y = true)

/-- The order is reached by moving indices. -/
theorem swaps_ownOrder (fields : Fields N) : Swaps IndexApart fields (ownOrder fields) := by
  refine .trans (swaps_partition isIndex ?_ fields) (.append_right _ (swaps_insertionSort _ ?_))
  · intro x y hx hy
    refine ⟨fun heq => ?_, .inr hy⟩
    rw [isIndex, heq] at hx
    rw [isIndex, hx] at hy
    cases hy
  · intro x hx y hy hxy
    refine ⟨fun heq => hxy ?_, .inr (List.of_mem_filter hy)⟩
    rw [byIndex, indexOf, indexOf, heq]

/-- Nothing but the order of the other names is left of the order the
members came in. -/
theorem ownOrder_of_swaps {free : JsString → JsString → Prop} {fields fields' : Fields N}
    (hne : ∀ a b, free a b → a ≠ b) (h : Swaps (freeNames free) fields fields') :
    Swaps (fun x y => freeNames free x y ∧ isIndex x = false ∧ isIndex y = false)
      (ownOrder fields) (ownOrder fields') := by
  have hindices : (fields.filter isIndex).insertionSort byIndex
      = (fields'.filter isIndex).insertionSort byIndex := by
    refine (h.filter isIndex).insertionSort_eq byIndex ?_
    rintro x y ⟨hxy, hx, hy⟩ ⟨hle, hge⟩
    exact hne _ _ hxy (indexOf_inj hx hy (Nat.le_antisymm hle hge))
  rw [ownOrder, hindices]
  refine .append_left _ ((h.filter fun member => !isIndex member).mono ?_)
  intro x y hxy
  simpa using hxy

end Webernetes.Js
