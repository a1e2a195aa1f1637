/-
Webernetes.Js.MergePatch — the JSON Merge Patch function.

A null member of a patch removes the key, an object member is merged into
the member of the target, or into an empty object where that is none, and
any other value replaces it. `get_jsonMergePatch` says it member by member,
`atPath_jsonMergePatch` for the nulls of a patch at any depth.
-/
import Webernetes.Js.Json

namespace Webernetes.Js

variable {N : Type}

namespace Fields

/-- A loop over distinct keys that settles the field of each. -/
theorem get_foldl {step : Fields N → JsString → Fields N}
    {f : JsString → Option (Json N) → Option (Json N)}
    (hstep : ∀ result key k, (step result key).get k = if k = key then f k (result.get k) else result.get k)
    {keys : List JsString} (hnodup : keys.Nodup) (result : Fields N) (k : JsString) :
    get (keys.foldl step result) k = if k ∈ keys then f k (result.get k) else result.get k := by
  induction keys generalizing result with
  | nil => simp
  | cons key keys ih =>
    obtain ⟨hnot, hnodup⟩ := List.nodup_cons.mp hnodup
    rw [List.foldl_cons, ih hnodup, hstep]
    by_cases hk : k = key
    · subst hk
      simp [hnot]
    · simp [hk]

end Fields

/-- The fields of an object, or of the empty one. -/
def fieldsOf (target : Option (Json N)) : Fields N :=
  match target with
  | some (.object fields) => fields
  | _ => []

/-- The function, for the value at a key that the target may not have. -/
def jsonMergePatch (target : Option (Json N)) (patch : Json N) : Json N :=
  match patch with
  | .object patch =>
    .object ((Fields.keys patch).foldl (fun result key =>
      match _hvalue : Fields.get patch key with
      | none => result
      | some .null => Fields.delete result key
      | some value => Fields.set result key (jsonMergePatch (Fields.get result key) value)) (fieldsOf target))
  | value => value
termination_by sizeOf patch
decreasing_by
  have hlt := Fields.sizeOf_get _hvalue
  simp only [Json.object.sizeOf_spec]
  omega

/-- What a member of the target becomes. -/
def mergedMember (target : Option (Json N)) : Option (Json N) → Option (Json N)
  | none => target
  | some .null => none
  | some value => some (jsonMergePatch target value)

theorem mergedMember_some (target : Option (Json N)) {value : Json N} (h : value ≠ .null) :
    mergedMember target (some value) = some (jsonMergePatch target value) := by
  cases value with
  | null => exact absurd rfl h
  | _ => rfl

theorem jsonMergePatch_of_not_object (target : Option (Json N)) {value : Json N} (h : value.isObject = false) :
    jsonMergePatch target value = value := by
  cases value with
  | object fields => cases h
  | _ => simp [jsonMergePatch]

theorem child_fieldsOf (target : Option (Json N)) (key : JsString) :
    (fieldsOf target).get key = Json.child target key := by
  unfold fieldsOf
  split
  · rfl
  · rename_i hnot
    unfold Json.child
    split
    · exact absurd rfl (hnot _)
    · rfl

/-- The members of a merged object. -/
theorem get_jsonMergePatch (target : Option (Json N)) (patch : Fields N) (key : JsString) :
    Json.child (some (jsonMergePatch target (.object patch))) key
      = mergedMember (Json.child target key) (patch.get key) := by
  rw [jsonMergePatch, Json.child_object, ← child_fieldsOf]
  rw [Fields.get_foldl (f := fun k target => mergedMember target (patch.get k)) ?_ (Fields.nodup_keys patch)]
  · split
    · rfl
    · rename_i hkey
      rw [Fields.get_eq_none.mpr hkey]
      rfl
  · intro result key k
    split
    · rename_i hvalue
      split
      · rename_i hk
        rw [hk, hvalue]
        rfl
      · rfl
    · rename_i hvalue
      rw [Fields.get_delete]
      split
      · rename_i hk
        rw [hk, hvalue]
        rfl
      · rfl
    · rename_i value hnull hvalue
      rw [Fields.get_set]
      split
      · rename_i hk
        rw [hk, hvalue, mergedMember_some _ hnull]
      · rfl

/-- No null member of an object patch is left. -/
theorem atPath_jsonMergePatch (target : Option (Json N)) (patch : Json N) {path : List JsString}
    (hpath : path ≠ []) (hnull : Json.atPath (some patch) path = some .null) :
    Json.atPath (some (jsonMergePatch target patch)) path = none := by
  induction path generalizing target patch with
  | nil => exact absurd rfl hpath
  | cons key path ih =>
    rw [Json.atPath_cons] at hnull ⊢
    cases patch with
    | object fields =>
      rw [get_jsonMergePatch]
      rw [Json.child_object] at hnull
      cases hvalue : Fields.get fields key with
      | none =>
        rw [hvalue, Json.atPath_none] at hnull
        cases hnull
      | some value =>
        rw [hvalue] at hnull
        by_cases hleaf : value = .null
        · subst hleaf
          exact Json.atPath_none path
        · rw [mergedMember_some _ hleaf]
          refine ih _ value (fun hnil => hleaf ?_) hnull
          rw [hnil] at hnull
          exact Option.some.inj hnull
    | _ =>
      rw [Json.child_of_not_object rfl, Json.atPath_none] at hnull
      cases hnull

end Webernetes.Js
