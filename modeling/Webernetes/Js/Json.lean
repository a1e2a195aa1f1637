/-
Webernetes.Js.Json — JSON values as the TypeScript sources hold them.

An object is an association list, and the first entry of a key is the
property: two lists may hold the same properties, and everything here goes
by `get` and `keys`. Numbers are any type with decided equality; a key
`__proto__` has no meaning here, for an assignment under it is none of a
property.

`Json.atPath` follows a path of keys through nested objects. A path leads
nowhere through an array.
-/
import Webernetes.Js.Text
import Mathlib.Data.List.Dedup

namespace Webernetes.Js

inductive Json (N : Type) where
  | null
  | bool (b : Bool)
  | number (n : N)
  | string (s : JsString)
  | array (items : List (Json N))
  | object (fields : List (JsString × Json N))

theorem eq_of_mem_attach_zip {α : Type} {items : List α} {pair : {x // x ∈ items} × α}
    (h : pair ∈ items.attach.zip items) : pair.1.1 = pair.2 := by
  obtain ⟨⟨item, hitem⟩, item'⟩ := pair
  obtain ⟨i, hi, hget⟩ := List.getElem_of_mem h
  simp only [List.getElem_zip, List.getElem_attach, Prod.mk.injEq, Subtype.mk.injEq] at hget
  exact hget.1.symm.trans hget.2

/-- The entries of an object. -/
abbrev Fields (N : Type) := List (JsString × Json N)

namespace Fields

variable {N : Type}

def get (fields : Fields N) (key : JsString) : Option (Json N) := fields.lookup key

/-- `Object.keys`. -/
def keys (fields : Fields N) : List JsString := (fields.map Prod.fst).dedup

/-- `fields[key] = value`. -/
def set (fields : Fields N) (key : JsString) (value : Json N) : Fields N :=
  match fields with
  | [] => [(key, value)]
  | (k, v) :: rest => if k = key then (k, value) :: rest else (k, v) :: set rest key value

/-- `delete fields[key]`. -/
def delete (fields : Fields N) (key : JsString) : Fields N :=
  fields.filter fun entry => decide (entry.1 ≠ key)

@[simp] theorem get_nil (key : JsString) : get ([] : Fields N) key = none := rfl

theorem get_cons (k key : JsString) (v : Json N) (rest : Fields N) :
    get ((k, v) :: rest) key = if key = k then some v else get rest key := by
  simp only [get, List.lookup_cons]
  split <;> rename_i h <;> simp_all

theorem get_set (fields : Fields N) (key key' : JsString) (value : Json N) :
    (fields.set key value).get key' = if key' = key then some value else fields.get key' := by
  induction fields with
  | nil => simp [set, get_cons]
  | cons entry rest ih =>
      obtain ⟨k, v⟩ := entry
      unfold set
      split
      · rename_i hk
        subst hk
        simp only [get_cons]
        split <;> rfl
      · rename_i hk
        simp only [get_cons, ih]
        grind

theorem get_delete (fields : Fields N) (key key' : JsString) :
    (fields.delete key).get key' = if key' = key then none else fields.get key' := by
  induction fields with
  | nil => simp [delete]
  | cons entry rest ih =>
      obtain ⟨k, v⟩ := entry
      simp only [delete] at ih ⊢
      by_cases hk : k = key
      · subst hk
        by_cases hk' : key' = k <;> simp_all [get_cons]
      · by_cases hk' : key' = k <;> simp_all [get_cons]

theorem mem_keys {fields : Fields N} {key : JsString} :
    key ∈ fields.keys ↔ ∃ v, fields.get key = some v := by
  induction fields with
  | nil => simp [keys]
  | cons entry rest ih =>
      obtain ⟨k, v⟩ := entry
      simp only [keys, List.mem_dedup, List.map_cons, List.mem_cons, get_cons] at ih ⊢
      by_cases hk : key = k <;> simp [hk, ih]

theorem nodup_keys (fields : Fields N) : fields.keys.Nodup := List.nodup_dedup _

theorem get_eq_none {fields : Fields N} {key : JsString} :
    fields.get key = none ↔ key ∉ fields.keys := by
  rw [mem_keys]
  cases fields.get key <;> simp

theorem eq_nil_of_get {fields : Fields N} (h : ∀ key, fields.get key = none) : fields = [] := by
  cases fields with
  | nil => rfl
  | cons entry rest =>
      obtain ⟨k, v⟩ := entry
      simpa [get_cons] using h k

/-- A property is smaller than its object. -/
theorem sizeOf_get {fields : Fields N} {key : JsString} {v : Json N}
    (h : fields.get key = some v) : sizeOf v < sizeOf fields := by
  induction fields with
  | nil => simp at h
  | cons entry rest ih =>
      obtain ⟨k, w⟩ := entry
      rw [get_cons] at h
      split at h
      · obtain rfl := Option.some.inj h
        simp
        omega
      · have hlt := ih h
        simp
        omega

end Fields

namespace Json

variable {N : Type}

def isObject : Json N → Bool
  | .object _ => true
  | _ => false

/-- An object anywhere in the value has the key. -/
def mentions (key : JsString) : Json N → Bool
  | .array items => items.attach.any fun item => mentions key item.1
  | .object fields =>
    fields.attach.any fun entry => decide (entry.1.1 = key) || mentions key entry.1.2
  | _ => false
termination_by v => sizeOf v
decreasing_by
  · have hlt := List.sizeOf_lt_of_mem item.2
    simp only [Json.array.sizeOf_spec]
    omega
  · have hlt := List.sizeOf_lt_of_mem entry.2
    simp only [Json.object.sizeOf_spec]
    have hpair : sizeOf entry.1.2 < sizeOf entry.1 := by
      rcases entry.1 with ⟨k, v⟩
      simp only [Prod.mk.sizeOf_spec]
      omega
    omega

theorem mentions_object (key : JsString) (fields : Fields N) :
    mentions key (.object fields)
      = fields.any fun entry => decide (entry.1 = key) || mentions key entry.2 := by
  rw [mentions, Bool.eq_iff_iff, List.any_eq_true, List.any_eq_true]
  constructor
  · rintro ⟨⟨entry, hentry⟩, -, h⟩
    exact ⟨entry, hentry, h⟩
  · rintro ⟨entry, hentry, h⟩
    exact ⟨⟨entry, hentry⟩, List.mem_attach _ _, h⟩

/-- The property of a value that is an object. -/
def child (v : Option (Json N)) (key : JsString) : Option (Json N) :=
  match v with
  | some (.object fields) => Fields.get fields key
  | _ => none

/-- The value at the end of a path. -/
def atPath (v : Option (Json N)) (path : List JsString) : Option (Json N) := path.foldl child v

@[simp] theorem atPath_nil (v : Option (Json N)) : atPath v [] = v := rfl

@[simp] theorem atPath_cons (v : Option (Json N)) (key : JsString) (path : List JsString) :
    atPath v (key :: path) = atPath (child v key) path := rfl

@[simp] theorem child_object (fields : Fields N) (key : JsString) :
    child (some (.object fields)) key = Fields.get fields key := rfl

@[simp] theorem child_none (key : JsString) : child (none : Option (Json N)) key = none := rfl

theorem child_of_not_object {v : Json N} (h : v.isObject = false) (key : JsString) :
    child (some v) key = none := by
  cases v <;> first | rfl | simp [isObject] at h

theorem atPath_none (path : List JsString) : atPath (none : Option (Json N)) path = none := by
  induction path with
  | nil => rfl
  | cons key path ih => exact ih

end Json

end Webernetes.Js
