/-
Webernetes.Js.Value — values with `undefined` and dates, and what of them is
left as JSON.

`toJson` is `JSON.parse(JSON.stringify(value))`: a property that is undefined
is dropped, an item that is becomes `null`, and a date is its text. As in
`Js.Json` an object is an association list.

`deepEqual` looks a key up in the right object through `key in right`, which
also finds what every object inherits: a function, that is equal to no value.
-/
import Webernetes.Js.Json

namespace Webernetes.Js

inductive Value (N : Type) where
  | undefined
  | null
  | bool (b : Bool)
  | number (n : N)
  | string (s : JsString)
  /-- A date, by its `toISOString`. -/
  | date (text : JsString)
  | array (items : List (Value N))
  | object (fields : List (JsString × Value N))

namespace Value

variable {N : Type}

mutual

def toJson : Value N → Option (Json N)
  | .undefined => none
  | .null => some .null
  | .bool b => some (.bool b)
  | .number n => some (.number n)
  | .string s => some (.string s)
  | .date text => some (.string text)
  | .array items => some (.array (itemsToJson items))
  | .object fields => some (.object (fieldsToJson fields))

def itemsToJson : List (Value N) → List (Json N)
  | [] => []
  | item :: items => (toJson item).getD .null :: itemsToJson items

def entryToJson : JsString × Value N → Option (JsString × Json N)
  | (key, value) => (toJson value).map (key, ·)

def fieldsToJson : List (JsString × Value N) → Fields N
  | [] => []
  | entry :: fields =>
    match entryToJson entry with
    | some entry => entry :: fieldsToJson fields
    | none => fieldsToJson fields

end

mutual

def dropUndefinedFields : Value N → Value N
  | .array items => .array (dropItems items)
  | .object fields => .object (dropFields fields)
  | value => value

def dropItems : List (Value N) → List (Value N)
  | [] => []
  | item :: items => dropUndefinedFields item :: dropItems items

def dropEntry : JsString × Value N → Option (JsString × Value N)
  | (_, .undefined) => none
  | (key, value) => some (key, dropUndefinedFields value)

def dropFields : List (JsString × Value N) → List (JsString × Value N)
  | [] => []
  | entry :: fields =>
    match dropEntry entry with
    | some entry => entry :: dropFields fields
    | none => dropFields fields

end

/-! Dropping undefined fields changes nothing of what is left as JSON. -/

mutual

@[simp] theorem toJson_dropUndefinedFields : (value : Value N) →
    toJson (dropUndefinedFields value) = toJson value
  | .undefined => rfl
  | .null => rfl
  | .bool _ => rfl
  | .number _ => rfl
  | .string _ => rfl
  | .date _ => rfl
  | .array items => by rw [dropUndefinedFields, toJson, toJson, itemsToJson_dropItems]
  | .object fields => by rw [dropUndefinedFields, toJson, toJson, fieldsToJson_dropFields]

theorem itemsToJson_dropItems : (items : List (Value N)) → itemsToJson (dropItems items) = itemsToJson items
  | [] => rfl
  | item :: items => by
    rw [dropItems, itemsToJson, itemsToJson, toJson_dropUndefinedFields item, itemsToJson_dropItems items]

theorem entryToJson_dropEntry : (entry : JsString × Value N) →
    (dropEntry entry).bind entryToJson = entryToJson entry
  | (_, .undefined) => rfl
  | (_, .null) => rfl
  | (_, .bool _) => rfl
  | (_, .number _) => rfl
  | (_, .string _) => rfl
  | (_, .date _) => rfl
  | (key, .array items) => by
    show entryToJson (key, dropUndefinedFields (.array items)) = entryToJson (key, .array items)
    rw [entryToJson, entryToJson, toJson_dropUndefinedFields (.array items)]
  | (key, .object fields) => by
    show entryToJson (key, dropUndefinedFields (.object fields)) = entryToJson (key, .object fields)
    rw [entryToJson, entryToJson, toJson_dropUndefinedFields (.object fields)]

theorem fieldsToJson_dropFields : (fields : List (JsString × Value N)) →
    fieldsToJson (dropFields fields) = fieldsToJson fields
  | [] => rfl
  | entry :: fields => by
    have hentry := entryToJson_dropEntry entry
    have ih := fieldsToJson_dropFields fields
    rw [dropFields, fieldsToJson]
    cases hdrop : dropEntry entry with
    | none =>
      rw [hdrop] at hentry
      rw [← hentry]
      exact ih
    | some kept =>
      rw [hdrop] at hentry
      simp only [fieldsToJson]
      rw [← hentry, ih]
      rfl

end

/-! ## deepEqual -/

/-- `value[key]` of an object, where it has the key itself. -/
def getField (fields : List (JsString × Value N)) (key : JsString) : Option (Value N) := fields.lookup key

def ownKeys (fields : List (JsString × Value N)) : List JsString := (fields.map Prod.fst).dedup

/-- A field is smaller than its object. -/
theorem sizeOf_getField {fields : List (JsString × Value N)} {key : JsString} {v : Value N}
    (h : getField fields key = some v) : sizeOf v < sizeOf fields := by
  induction fields with
  | nil => cases h
  | cons entry rest ih =>
    obtain ⟨k, w⟩ := entry
    rw [getField, List.lookup_cons] at h
    split at h
    · obtain rfl := Option.some.inj h
      simp only [List.cons.sizeOf_spec, Prod.mk.sizeOf_spec]
      omega
    · have hlt := ih h
      simp only [List.cons.sizeOf_spec]
      omega

theorem exists_getField {fields : List (JsString × Value N)} {key : JsString} (h : key ∈ ownKeys fields) :
    ∃ v, getField fields key = some v := by
  rw [ownKeys, List.mem_dedup] at h
  induction fields with
  | nil => cases h
  | cons entry rest ih =>
    obtain ⟨k, w⟩ := entry
    rw [getField, List.lookup_cons]
    split
    · exact ⟨w, rfl⟩
    · rename_i hne
      rcases List.mem_cons.mp h with rfl | h
      · simp at hne
      · exact ih h

/-- `deepEqual` without options. -/
def deepEqual [DecidableEq N] : Value N → Value N → Bool
  | .undefined, .undefined => true
  | .null, .null => true
  | .bool left, .bool right => decide (left = right)
  | .number left, .number right => decide (left = right)
  | .string left, .string right => decide (left = right)
  | .date left, .date right => decide (left = right)
  | .array left, .array right =>
    decide (left.length = right.length)
      && (left.attach.zip right).all fun pair => deepEqual pair.1.1 pair.2
  | .object left, .object right =>
    decide ((ownKeys left).length = (ownKeys right).length)
      && (ownKeys left).all fun key =>
        match _hleft : getField left key, getField right key with
        | some l, some r => deepEqual l r
        | _, _ => false
  | _, _ => false
termination_by left => sizeOf left
decreasing_by
  · have hlt := List.sizeOf_lt_of_mem pair.1.2
    simp only [Value.array.sizeOf_spec]
    omega
  · have hlt := sizeOf_getField _hleft
    simp only [Value.object.sizeOf_spec]
    omega

theorem deepEqual_refl [DecidableEq N] (v : Value N) : deepEqual v v = true := by
  match v with
  | .undefined => rw [deepEqual]
  | .null => rw [deepEqual]
  | .bool _ => simp [deepEqual]
  | .number _ => simp [deepEqual]
  | .string _ => simp [deepEqual]
  | .date _ => simp [deepEqual]
  | .array items =>
    rw [deepEqual]
    simp only [decide_true, Bool.true_and, List.all_eq_true]
    intro pair hpair
    rw [← eq_of_mem_attach_zip hpair]
    exact deepEqual_refl pair.1.1
  | .object fields =>
    rw [deepEqual]
    simp only [decide_true, Bool.true_and, List.all_eq_true]
    intro key hkey
    obtain ⟨w, hfield⟩ := exists_getField hkey
    have hw := deepEqual_refl w
    split
    · rename_i l r hleft hright
      rw [hfield] at hleft hright
      cases hleft
      cases hright
      exact hw
    · rename_i hnone
      exact absurd hfield (hnone w w hfield)
termination_by sizeOf v
decreasing_by
  · have hlt := List.sizeOf_lt_of_mem pair.1.2
    simp only [Value.array.sizeOf_spec]
    omega
  · have hlt := sizeOf_getField hfield
    simp only [Value.object.sizeOf_spec]
    omega

end Value

end Webernetes.Js
