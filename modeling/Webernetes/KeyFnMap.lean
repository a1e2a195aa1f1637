/-
Webernetes.KeyFnMap — `KeyFnMap` of `collections.ts`.

A key is found by a string that is made of it, `stableJSONStringify` unless
told otherwise. The members of an object are sorted by `localeCompare`
before it is written, and that order is not total: of two different names
it takes for one, the one that came first stays first. What is left of the
order of members is told by `stableJSONStringify_eq_iff`: two keys have one
string exactly when one becomes the other by swaps of members whose names
are told apart, which are fewer than structural equality allows
(`TellsApart`).
-/
import Webernetes.Etcd.Keys
import Webernetes.Js.MemberOrder
import Webernetes.Js.OrderedMap
import Webernetes.Js.Stringify

namespace Webernetes

open Js Base
open Js.Json (Reorder)

/-! ## stableJSONStringify -/

section Stable

variable {N : Type} (locale : Etcd.Locale)

def byName (x y : JsString × Json N) : Prop := (locale.localeCompare x.1 y.1).isLE = true

instance : DecidableRel (byName locale : JsString × Json N → _ → Prop) :=
  fun _ _ => inferInstanceAs (Decidable (_ = _))

instance : Std.Total (byName locale : JsString × Json N → _ → Prop) where
  total x y := by
    have hswap : locale.localeCompare y.1 x.1 = (locale.localeCompare x.1 y.1).swap :=
      Std.OrientedCmp.eq_swap
    simp only [byName, hswap]
    cases locale.localeCompare x.1 y.1 <;> simp

instance : IsTrans (JsString × Json N) (byName locale) where
  trans _ _ _ := Std.TransCmp.isLE_trans

/-- `Object.entries(value).toSorted(…)`. -/
def sortedEntries (fields : Fields N) : Fields N := (ownOrder fields).insertionSort (byName locale)

/-! The sort goes by the names, so the values may be sorted before the
members are: `sortJSONValue_object` has the order of the source. -/

mutual

def sortJSONValue : Json N → Json N
  | .array items => .array (sortItems items)
  | .object fields => .object (ownOrder (sortedEntries locale (sortMembers fields)))
  | value => value

def sortItems : List (Json N) → List (Json N)
  | [] => []
  | item :: items => sortJSONValue item :: sortItems items

def sortMember : JsString × Json N → JsString × Json N
  | (key, item) => (key, sortJSONValue item)

def sortMembers : Fields N → Fields N
  | [] => []
  | member :: fields => sortMember member :: sortMembers fields

end

theorem sortItems_eq_map (items : List (Json N)) :
    sortItems locale items = items.map (sortJSONValue locale) := by
  induction items with
  | nil => rfl
  | cons item items ih => rw [sortItems, ih, List.map_cons]

theorem sortMembers_eq_map (fields : Fields N) : sortMembers locale fields
    = fields.map fun member => (member.1, sortJSONValue locale member.2) := by
  induction fields with
  | nil => rfl
  | cons member fields ih => rw [sortMembers, ih, List.map_cons, sortMember]

theorem ownOrder_map (f : Json N → Json N) (fields : Fields N) :
    ownOrder (fields.map fun member => (member.1, f member.2))
      = (ownOrder fields).map fun member => (member.1, f member.2) := by
  have hsort := List.map_insertionSort byIndex byIndex (fun member => (member.1, f member.2))
    (fields.filter isIndex) fun _ _ _ _ => Iff.rfl
  rw [ownOrder, ownOrder, List.map_append, hsort, List.filter_map, List.filter_map]
  rfl

theorem sortedEntries_map (f : Json N → Json N) (fields : Fields N) :
    sortedEntries locale (fields.map fun member => (member.1, f member.2))
      = (sortedEntries locale fields).map fun member => (member.1, f member.2) := by
  rw [sortedEntries, sortedEntries, ownOrder_map]
  exact (List.map_insertionSort (byName locale) (byName locale)
    (fun member => (member.1, f member.2)) (ownOrder fields) fun _ _ _ _ => Iff.rfl).symm

theorem sortJSONValue_object (fields : Fields N) : sortJSONValue locale (.object fields)
    = .object (ownOrder ((sortedEntries locale fields).map fun member =>
        (member.1, sortJSONValue locale member.2))) := by
  rw [sortJSONValue, sortMembers_eq_map, sortedEntries_map]

def stableJSONStringify [NumberText N] (value : Json N) : JsString :=
  (sortJSONValue locale value).stringify

/-! ### What is left of the order of members -/

/-- `Object.fromEntries` or the sort puts the two names in one order,
whichever came first. -/
def TellsApart (a b : JsString) : Prop :=
  a ≠ b ∧ (¬ locale.Same a b ∨ (arrayIndex a).isSome ∨ (arrayIndex b).isSome)

instance (a b : JsString) : Decidable (TellsApart locale a b) :=
  inferInstanceAs (Decidable (_ ∧ _))

theorem TellsApart.symm {a b : JsString} (h : TellsApart locale a b) : TellsApart locale b a :=
  ⟨h.1.symm, h.2.imp (mt Etcd.Locale.Same.symm) Or.symm⟩

variable {locale}

theorem byName_both {x y : JsString × Json N} (hle : byName locale x y) (hge : byName locale y x) :
    locale.Same x.1 y.1 := Std.OrientedCmp.isLE_antisymm hle hge

theorem tellsApart_of_not_byName {x y : JsString × Json N} (h : ¬ byName locale x y) :
    TellsApart locale x.1 y.1 := by
  have hne : ¬ locale.Same x.1 y.1 := by
    intro hsame
    rw [Etcd.Locale.Same] at hsame
    exact h (by rw [byName, hsame]; rfl)
  exact ⟨fun heq => hne (heq ▸ locale.same_refl _), .inl hne⟩

/-- A swap of members that are told apart leaves the sorted entries. -/
theorem sortedEntries_of_swaps {fields fields' : Fields N}
    (h : Swaps (freeNames (TellsApart locale)) fields fields') :
    sortedEntries locale fields = sortedEntries locale fields' := by
  refine (ownOrder_of_swaps (fun _ _ hab => hab.1) h).insertionSort_eq (byName locale) ?_
  rintro x y ⟨⟨-, hapart⟩, hx, hy⟩ ⟨hle, hge⟩
  rw [isIndex] at hx hy
  rw [hx, hy] at hapart
  simp only [Bool.false_eq_true, or_false] at hapart
  exact hapart (byName_both hle hge)

theorem sortJSONValue_of_reorder {v w : Json N} (h : Reorder (TellsApart locale) v w) :
    sortJSONValue locale v = sortJSONValue locale w := by
  induction h with
  | refl v => rfl
  | trans _ _ ih ih' => exact ih.trans ih'
  | item before after _ ih =>
    simp only [sortJSONValue, sortItems_eq_map, List.map_append, List.map_cons, ih]
  | member before after name _ ih =>
    simp only [sortJSONValue, sortMembers_eq_map, List.map_append, List.map_cons, ih]
  | swaps h => rw [sortJSONValue_object, sortJSONValue_object, sortedEntries_of_swaps h]

theorem swaps_sortedEntries (fields : Fields N) :
    Swaps (freeNames (TellsApart locale)) fields (ownOrder (sortedEntries locale fields)) := by
  have hown : ∀ fields : Fields N,
      Swaps (freeNames (TellsApart locale)) fields (ownOrder fields) := fun fields =>
    (swaps_ownOrder fields).mono fun x y h => ⟨h.1, .inr h.2⟩
  have hsort := swaps_insertionSort (l := ownOrder fields) (byName locale)
    fun x _ y _ hxy => (tellsApart_of_not_byName hxy : freeNames (TellsApart locale) x y)
  exact .trans (hown fields) (.trans hsort (hown _))

mutual

theorem reorder_sortJSONValue : (v : Json N) →
    Reorder (TellsApart locale) v (sortJSONValue locale v)
  | .null => .refl _
  | .bool _ => .refl _
  | .number _ => .refl _
  | .string _ => .refl _
  | .array items => by
    rw [sortJSONValue, sortItems_eq_map]
    exact Reorder.array_map [] items (reorder_sortItems items)
  | .object fields => by
    rw [sortJSONValue, sortMembers_eq_map]
    exact .trans (Reorder.object_map [] fields (reorder_sortMembers fields))
      (.swaps (swaps_sortedEntries _))

theorem reorder_sortItems : (items : List (Json N)) →
    ∀ item ∈ items, Reorder (TellsApart locale) item (sortJSONValue locale item)
  | [], _, hmem => by cases hmem
  | item :: items, item', hmem => by
    rcases List.mem_cons.mp hmem with heq | hmem
    · rw [heq]
      exact reorder_sortJSONValue item
    · exact reorder_sortItems items item' hmem

theorem reorder_sortMember : (member : JsString × Json N) →
    Reorder (TellsApart locale) member.2 (sortJSONValue locale member.2)
  | (_, item) => reorder_sortJSONValue item

theorem reorder_sortMembers : (fields : Fields N) →
    ∀ member ∈ fields, Reorder (TellsApart locale) member.2 (sortJSONValue locale member.2)
  | [], _, hmem => by cases hmem
  | member :: fields, member', hmem => by
    rcases List.mem_cons.mp hmem with heq | hmem
    · rw [heq]
      exact reorder_sortMember member
    · exact reorder_sortMembers fields member' hmem

end

/-- Two keys have one string exactly when they differ in the order of
members that are told apart. -/
theorem stableJSONStringify_eq_iff [NumberText N] {v w : Json N} :
    stableJSONStringify locale v = stableJSONStringify locale w
      ↔ Reorder (TellsApart locale) v w := by
  constructor
  · intro h
    have hsorted : sortJSONValue locale v = sortJSONValue locale w := Json.stringify_inj h
    have hv : Reorder (TellsApart locale) v (sortJSONValue locale v) := reorder_sortJSONValue v
    have hw : Reorder (TellsApart locale) w (sortJSONValue locale w) := reorder_sortJSONValue w
    rw [hsorted] at hv
    exact hv.trans (hw.symm fun _ _ => TellsApart.symm locale)
  · intro h
    rw [stableJSONStringify, stableJSONStringify, sortJSONValue_of_reorder h]

theorem same_of_reorder {v w : Json N} (h : Reorder (TellsApart locale) v w) : v.Same w :=
  h.mono fun _ _ hab => hab.1

/-- Strings in the order of their code units. -/
def codeUnits : Etcd.Locale := ⟨compare, inferInstance⟩

end Stable

/-! ## KeyFnMap

A key is passed as what it holds: the map keeps a copy of it, and answers
with copies. -/

/-- `{ key: K; value: V }` -/
structure KeyFnMap.Item (K V : Type) where
  key : K
  value : V

structure KeyFnMap (K V : Type) where
  items : JsMap JsString (KeyFnMap.Item K V)

namespace KeyFnMap

variable {K V : Type} (keyString : K → JsString) (cloneKey : K → K)

def empty : KeyFnMap K V := ⟨.empty⟩

def size (map : KeyFnMap K V) : Nat := map.items.size

def has (map : KeyFnMap K V) (key : K) : Bool := map.items.contains (keyString key)

def get (map : KeyFnMap K V) (key : K) : Option V :=
  (map.items.get (keyString key)).map Item.value

def set (map : KeyFnMap K V) (key : K) (value : V) : KeyFnMap K V :=
  ⟨map.items.set (keyString key) ⟨cloneKey key, value⟩⟩

def delete (map : KeyFnMap K V) (key : K) : KeyFnMap K V := ⟨map.items.delete (keyString key)⟩

def clear (_map : KeyFnMap K V) : KeyFnMap K V := ⟨.empty⟩

def keys (map : KeyFnMap K V) : List K := map.items.values.map fun item => cloneKey item.key

def values (map : KeyFnMap K V) : List V := map.items.values.map Item.value

variable {keyString cloneKey}

theorem delete_of_not_has {map : KeyFnMap K V} {key : K} (h : has keyString map key = false) :
    delete keyString map key = map := by
  rw [delete, JsMap.delete_of_not_contains h]

/-- A key that is set anew goes to the end. -/
theorem items_set_delete (map : KeyFnMap K V) (key : K) (value : V) :
    (set keyString cloneKey (delete keyString map key) key value).items.entries
      = (map.items.entries.filter fun entry => entry.1 ≠ keyString key)
        ++ [(keyString key, ⟨cloneKey key, value⟩)] :=
  JsMap.entries_set_delete map.items _ _

end KeyFnMap

end Webernetes
