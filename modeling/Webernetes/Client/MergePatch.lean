/-
Webernetes.Client.MergePatch — when the API server's `mergePatch` is the
JSON Merge Patch function.

An object of the patch that meets no object of the target is cloned as it
is, with the nulls in it, where the function merges it into an empty object.
`Lands` says that no null is lost so; by induction on the patch it is just
what the two differ in (`deepEqual_patched_iff`).
-/
import Webernetes.Js.MergePatch
import Webernetes.Util.PodStatus

namespace Webernetes.Client

open Js Json Cluster Util

variable {N : Type}

def protoKey : JsString := js "__proto__"

/-- A member goes to the prototype: an assignment under that name to an object
that has no such property makes none. -/
def pollutes (target patch : Fields N) : Bool :=
  patch.keys.any fun key =>
    match _hvalue : patch.get key with
    | none => false
    | some .null => false
    | some (.object value) =>
      match target.get key with
      | none => key = protoKey
      | some (.object target) => pollutes target value
      | some _ => false
    | some _ => key = protoKey && (target.get key).isNone
termination_by sizeOf patch
decreasing_by
  have hlt := Fields.sizeOf_get _hvalue
  simp only [Json.object.sizeOf_spec] at hlt
  omega

/-- Every null member of the patch is in an object that meets an object of the target. -/
def Lands (target patch : Option (Json N)) : Prop :=
  ∀ path key, ¬ isObj (atPath target path) → atPath patch (path ++ [key]) ≠ some .null

theorem lands_of_not_object (target : Option (Json N)) {patch : Option (Json N)}
    (h : ∀ key, child patch key = none) : Lands target patch := by
  intro path key _
  cases path with
  | nil =>
    rw [List.nil_append, atPath_cons, h]
    exact fun heq => by cases heq
  | cons k path =>
    rw [List.cons_append, atPath_cons, h, atPath_none]
    exact fun heq => by cases heq

theorem lands_object {target : Option (Json N)} {patch : Fields N} : Lands target (some (.object patch)) ↔
    ∀ key, (isObj target ∨ patch.get key ≠ some .null) ∧ Lands (child target key) (patch.get key) := by
  constructor
  · intro h key
    constructor
    · by_cases htarget : isObj target
      · exact .inl htarget
      · exact .inr (h [] key htarget)
    · exact fun path k hnot => h (key :: path) k hnot
  · intro h path key hnot
    cases path with
    | nil => exact (h key).1.resolve_left hnot
    | cons k path => exact (h k).2 path key hnot

theorem child_of_not_isObj {target : Option (Json N)} (h : ¬ isObj target) (key : JsString) :
    child target key = none := by
  cases target with
  | none => rfl
  | some v =>
    refine child_of_not_object ?_ key
    rw [isObj, Option.any_some, Bool.not_eq_true] at h
    exact h

/-- The members of an object that is merged. -/
theorem exists_jsonMergePatch (target : Option (Json N)) (patch : Fields N) : ∃ merged,
    jsonMergePatch target (.object patch) = .object merged
      ∧ ∀ key, Fields.get merged key = mergedMember (child target key) (patch.get key) := by
  have hobject : ∃ merged, jsonMergePatch target (.object patch) = .object merged := by
    rw [jsonMergePatch]
    exact ⟨_, rfl⟩
  obtain ⟨merged, hmerged⟩ := hobject
  refine ⟨merged, hmerged, fun key => ?_⟩
  rw [← get_jsonMergePatch, hmerged, child_object]

section Equal

variable [DecidableEq N]

/-- By induction on the patch: the two agree where no null is lost. -/
theorem deepEqual_patched_iff (target : Option (Json N)) (patch : Json N) (hnull : patch ≠ .null) :
    (∃ w, patched target (some patch) = some w ∧ deepEqual w (jsonMergePatch target patch) = true)
      ↔ Lands target (some patch) := by
  have hleaf : ∀ value : Json N, value.isObject = false → patched target (some value) = some value →
      ((∃ w, patched target (some value) = some w ∧ deepEqual w (jsonMergePatch target value) = true)
        ↔ Lands target (some value)) := by
    intro value hvalue hpatched
    rw [hpatched, jsonMergePatch_of_not_object target hvalue]
    exact iff_of_true ⟨value, rfl, deepEqual_refl value⟩
      (lands_of_not_object target (child_of_not_object hvalue))
  cases hpatch : patch with
  | null => exact absurd hpatch hnull
  | bool b => exact hleaf _ rfl rfl
  | number n => exact hleaf _ rfl rfl
  | string s => exact hleaf _ rfl rfl
  | array items => exact hleaf _ rfl rfl
  | object fields =>
    obtain ⟨merged, hmerged, hget⟩ := exists_jsonMergePatch target fields
    rw [hmerged, lands_object]
    by_cases hobj : isObj target
    · obtain ⟨old, rfl⟩ := isObj_iff.mp hobj
      have hpatched : patched (some (.object old)) (some (.object fields))
          = some (.object (applyPatchObject old fields)) := rfl
      rw [hpatched]
      simp only [Option.some.injEq, exists_eq_left', deepEqual_object, get_applyPatchObject, hget, child_object]
      refine forall_congr' fun key => ?_
      cases hfield : Fields.get fields key with
      | none =>
        refine iff_of_true ?_ ⟨.inl hobj, lands_of_not_object _ fun _ => rfl⟩
        show sameField (Fields.get old key) (Fields.get old key)
        cases Fields.get old key with
        | none => trivial
        | some w => exact deepEqual_refl w
      | some v =>
        by_cases hv : v = .null
        · subst hv
          exact iff_of_true trivial ⟨.inl hobj, lands_of_not_object _ fun _ => rfl⟩
        · rw [mergedMember_some _ hv, sameField_some, deepEqual_patched_iff (Fields.get old key) v hv]
          exact ⟨fun h => ⟨.inl hobj, h⟩, fun h => h.2⟩
    · rw [patched_of_not_isObj hobj]
      simp only [Option.some.injEq, exists_eq_left', deepEqual_object, hget, child_of_not_isObj hobj]
      refine forall_congr' fun key => ?_
      cases hfield : Fields.get fields key with
      | none => exact iff_of_true trivial ⟨.inr (by simp), lands_of_not_object _ fun _ => rfl⟩
      | some v =>
        by_cases hv : v = .null
        · subst hv
          exact iff_of_false (fun h => h) fun h => h.1.elim hobj fun hne => hne rfl
        · have hstays : patched none (some v) = some v := by
            cases v with
            | null => exact absurd rfl hv
            | _ => rfl
          have ih := deepEqual_patched_iff none v hv
          rw [hstays] at ih
          rw [mergedMember_some _ hv, sameField_some, ih]
          exact ⟨fun h => ⟨.inr (by simpa using hv), h⟩, fun h => h.2⟩
termination_by sizeOf patch
decreasing_by
  all_goals
    have hlt := Fields.sizeOf_get hfield
    subst hpatch
    simp only [Json.object.sizeOf_spec]
    omega

/-- Equal values have the same fields at the end of every path. -/
theorem sameField_atPath {left right : Option (Json N)} (h : sameField left right) (path : List JsString) :
    sameField (atPath left path) (atPath right path) := by
  induction path generalizing left right with
  | nil => exact h
  | cons key path ih =>
    refine ih ?_
    cases left with
    | none =>
      cases right with
      | none => trivial
      | some r => exact h.elim
    | some l =>
      cases right with
      | none => exact h.elim
      | some r =>
        have hobject := isObject_of_deepEqual (show deepEqual l r = true from h)
        cases l with
        | object left =>
          cases r with
          | object right => exact deepEqual_object.mp h key
          | _ => cases hobject
        | _ =>
          rw [child_of_not_object rfl, child_of_not_object (by rw [← hobject]; rfl)]
          trivial

/-- The patched object is what the JSON Merge Patch function gives, and no null
member of the patch is in it. -/
def MergesAsJson (target patch : Fields N) : Prop :=
  ∃ result, mergePatch target (.object patch) = .ok result ∧ pollutes target patch = false
    ∧ deepEqual (.object result) (jsonMergePatch (some (.object target)) (.object patch)) = true
    ∧ ∀ path, path ≠ [] → atPath (some (.object patch)) path = some .null →
      atPath (some (.object result)) path = none

end Equal

/-- An object with a null, for a target that has nothing there. -/
def nullPatch : Fields Nat := [(js "a", .object [(js "b", .null)])]

end Webernetes.Client
