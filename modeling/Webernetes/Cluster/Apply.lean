/-
Webernetes.Cluster.Apply — the patch that `apply` sends, and the merge
patch the server applies.

`createThreeWayMergePatch` is handed the live object and never looks at it.
Its look-ups see what every object inherits: `key in desiredObject` holds
for a name of `Object.prototype`, and the function found there cannot be
cloned. `collect` is its loop over the keys.

`JSON.parse` and `JSON.stringify` are given; nothing is asked of them.
-/
import Webernetes.Js.Json
import Mathlib.Data.List.Perm.Subperm

namespace Webernetes.Cluster

open Js

variable {N : Type}

/-- `JSON.parse`, with nothing where it throws, and `JSON.stringify`. -/
structure JsonCodec (N : Type) where
  parse : JsString → Option (Json N)
  stringify : Json N → JsString

/-! ## deepEqual -/

/-- `deepEqual` without options. -/
def deepEqual [DecidableEq N] : Json N → Json N → Bool
  | .null, .null => true
  | .bool left, .bool right => decide (left = right)
  | .number left, .number right => decide (left = right)
  | .string left, .string right => decide (left = right)
  | .array left, .array right =>
    decide (left.length = right.length)
      && (left.attach.zip right).all fun pair => deepEqual pair.1.1 pair.2
  | .object left, .object right =>
    decide ((Fields.keys left).length = (Fields.keys right).length)
      && (Fields.keys left).all fun key =>
        match _hleft : Fields.get left key, Fields.get right key with
        | some l, some r => deepEqual l r
        | _, _ => false
  | _, _ => false
termination_by left => sizeOf left
decreasing_by
  · have hlt := List.sizeOf_lt_of_mem pair.1.2
    simp only [Json.array.sizeOf_spec]
    omega
  · have hlt := Fields.sizeOf_get _hleft
    simp only [Json.object.sizeOf_spec]
    omega

/-- Two fields are absent or equal. -/
def sameField [DecidableEq N] (left right : Option (Json N)) : Prop :=
  match left, right with
  | none, none => True
  | some l, some r => deepEqual l r = true
  | _, _ => False

/-- Objects are equal when they have the same fields. -/
theorem deepEqual_object [DecidableEq N] {left right : Fields N} :
    deepEqual (.object left) (.object right) = true
      ↔ ∀ key, sameField (left.get key) (right.get key) := by
  rw [deepEqual, Bool.and_eq_true, decide_eq_true_eq, List.all_eq_true]
  constructor
  · rintro ⟨hlength, hall⟩ key
    have hsubset : left.keys ⊆ right.keys := by
      intro key hkey
      have hkey' := hall key hkey
      rw [Fields.mem_keys]
      split at hkey' <;> simp_all
    have hperm := (List.subperm_of_subset (Fields.nodup_keys left) hsubset).perm_of_length_le
      hlength.ge
    cases hleft : left.get key with
    | none =>
        have hnot := hperm.mem_iff.not.1 (Fields.get_eq_none.1 hleft)
        simp [sameField, Fields.get_eq_none.2 hnot]
    | some l =>
        have hkey := hall key (Fields.mem_keys.2 ⟨l, hleft⟩)
        split at hkey
        · simp_all [sameField]
        · contradiction
  · intro h
    have hmem : ∀ key, key ∈ left.keys ↔ key ∈ right.keys := by
      intro key
      have hkey := h key
      rw [Fields.mem_keys, Fields.mem_keys]
      cases hleft : left.get key <;> cases hright : right.get key <;>
        simp_all [sameField]
    refine ⟨((List.perm_ext_iff_of_nodup (Fields.nodup_keys left)
      (Fields.nodup_keys right)).2 hmem).length_eq, fun key hkey => ?_⟩
    obtain ⟨l, hleft⟩ := Fields.mem_keys.1 hkey
    obtain ⟨r, hright⟩ := Fields.mem_keys.1 ((hmem key).1 hkey)
    have hsame := h key
    rw [hleft, hright] at hsame
    split
    · simp_all [sameField]
    · simp_all

theorem deepEqual_refl [DecidableEq N] (v : Json N) : deepEqual v v = true := by
  match v with
  | .null => simp [deepEqual]
  | .bool b => simp [deepEqual]
  | .number n => simp [deepEqual]
  | .string s => simp [deepEqual]
  | .array items =>
      rw [deepEqual]
      simp only [decide_true, Bool.true_and, List.all_eq_true]
      intro pair hpair
      rw [← eq_of_mem_attach_zip hpair]
      exact deepEqual_refl pair.1.1
  | .object fields =>
      rw [deepEqual_object]
      intro key
      match hfield : Fields.get fields key with
      | none => trivial
      | some w => exact deepEqual_refl w
termination_by sizeOf v
decreasing_by
  · have hlt := List.sizeOf_lt_of_mem pair.1.2
    simp only [Json.array.sizeOf_spec]
    omega
  · have hlt := Fields.sizeOf_get hfield
    simp only [Json.object.sizeOf_spec]
    omega

theorem isObject_of_deepEqual [DecidableEq N] {left right : Json N}
    (h : deepEqual left right = true) : left.isObject = right.isObject := by
  cases left <;> cases right <;> first | rfl | simp [deepEqual] at h

/-! ## createThreeWayMergePatch -/

/-- The names `Object.prototype` has functions under. -/
def inheritedNames : List JsString :=
  [js "constructor", js "__defineGetter__", js "__defineSetter__", js "hasOwnProperty",
    js "__lookupGetter__", js "__lookupSetter__", js "isPrototypeOf", js "propertyIsEnumerable",
    js "toString", js "valueOf", js "toLocaleString"]

/-- `structuredClone` of the function under the name. -/
structure DataCloneError where
  key : JsString

/-- The loop over the keys: what `entry` answers is put under the key. -/
def collect (entry : JsString → Except DataCloneError (Option (Json N))) :
    List JsString → Except DataCloneError (Fields N)
  | [] => .ok []
  | key :: keys =>
    match entry key with
    | .error err => .error err
    | .ok value =>
      match collect entry keys with
      | .error err => .error err
      | .ok patch => .ok (value.elim patch fun v => (key, v) :: patch)

def createThreeWayMergePatch [DecidableEq N] (existing : Option (Json N))
    (previousObject desiredObject : Fields N) : Except DataCloneError (Fields N) :=
  let keys := previousObject.keys ++ desiredObject.keys.filter (· ∉ previousObject.keys)
  collect (fun key =>
    match _hdesired : desiredObject.get key, previousObject.get key with
    | none, _ => if key ∈ inheritedNames then .error ⟨key⟩ else .ok (some .null)
    | some (.object desiredValue), some (.object previousValue) =>
      (createThreeWayMergePatch (Json.child existing key) previousValue desiredValue).map
        fun childPatch => if childPatch.isEmpty then none else some (.object childPatch)
    | some desiredValue, previousValue =>
      .ok (if previousValue.any (deepEqual desiredValue) then none else some desiredValue)) keys
termination_by sizeOf desiredObject
decreasing_by
  have hlt := Fields.sizeOf_get _hdesired
  simp only [Json.object.sizeOf_spec] at hlt
  omega

/-! ## mergePatch -/

def applyPatchObject (result patch : Fields N) : Fields N :=
  patch.keys.foldl (fun result key =>
    match _hvalue : patch.get key with
    | none => result
    | some .null => result.delete key
    | some (.object value) =>
      match result.get key with
      | some (.object target) => result.set key (.object (applyPatchObject target value))
      | _ => result.set key (.object value)
    | some value => result.set key value) result
termination_by sizeOf patch
decreasing_by
  have hlt := Fields.sizeOf_get _hvalue
  simp only [Json.object.sizeOf_spec] at hlt
  omega

/-- The text of the error for a patch that is no object. -/
def mergePatchError : JsString := js "Merge patch body must be an object"

def mergePatch (target : Fields N) (patch : Json N) : Except JsString (Fields N) :=
  match patch with
  | .object patch => .ok (applyPatchObject target patch)
  | _ => .error mergePatchError

/-! ## createApplyPatch -/

def lastAppliedAnnotation : JsString := js "kubectl.kubernetes.io/last-applied-configuration"

/-- The fields of `parent[key]`, of a new object where that is no object. -/
def ensurePlainObject (parent : Fields N) (key : JsString) : Fields N :=
  match parent.get key with
  | some (.object current) => current
  | _ => []

def previousLastApplied (codec : JsonCodec N) (resource : Fields N) : Option (Fields N) :=
  match Json.atPath (some (.object resource))
      [js "metadata", js "annotations", lastAppliedAnnotation] with
  | some (.string encoded) =>
    if encoded = [] then none
    else
      match codec.parse encoded with
      | some (.object parsed) => some parsed
      | _ => none
  | _ => none

/-- The resource without the annotation, and without annotations if none is left. -/
def lastAppliedValue (codec : JsonCodec N) (resource : Fields N) : JsString :=
  match resource.get (js "metadata") with
  | some (.object metadata) =>
    match Fields.get metadata (js "annotations") with
    | some (.object annotations) =>
      let annotations := Fields.delete annotations lastAppliedAnnotation
      let metadata :=
        if annotations.isEmpty then Fields.delete metadata (js "annotations")
        else Fields.set metadata (js "annotations") (.object annotations)
      codec.stringify (.object (resource.set (js "metadata") (.object metadata)))
    | _ => codec.stringify (.object resource)
  | _ => codec.stringify (.object resource)

def createApplyPatch [DecidableEq N] (codec : JsonCodec N) (existing desired : Fields N) :
    Except DataCloneError (Fields N) :=
  let previous := previousLastApplied codec existing
  (createThreeWayMergePatch (some (.object existing)) (previous.getD []) desired).map fun patch =>
    let metadata := ensurePlainObject patch (js "metadata")
    let annotations := ensurePlainObject metadata (js "annotations")
    let annotations :=
      annotations.set lastAppliedAnnotation (.string (lastAppliedValue codec desired))
    patch.set (js "metadata") (.object (metadata.set (js "annotations") (.object annotations)))

/-! ## Field by field -/

/-- What a field of the target becomes under the patch's value for it. -/
def patched (target : Option (Json N)) : Option (Json N) → Option (Json N)
  | none => target
  | some .null => none
  | some (.object value) =>
    match target with
    | some (.object target) => some (.object (applyPatchObject target value))
    | _ => some (.object value)
  | some value => some value

/-- What the three-way patch has for a field. -/
def patchEntry [DecidableEq N] (existing previous desired : Option (Json N)) :
    Except DataCloneError (Option (Json N)) :=
  match desired, previous with
  | none, none => .ok none
  | none, some _ => .ok (some .null)
  | some (.object desired), some (.object previous) =>
    (createThreeWayMergePatch existing previous desired).map
      fun childPatch => if childPatch.isEmpty then none else some (.object childPatch)
  | some desired, previous =>
    .ok (if previous.any (deepEqual desired) then none else some desired)

theorem collect_ok {entry : JsString → Except DataCloneError (Option (Json N))}
    {keys : List JsString} {patch : Fields N} (h : collect entry keys = .ok patch)
    (key : JsString) :
    (key ∈ keys → entry key = .ok (patch.get key)) ∧ (key ∉ keys → patch.get key = none) := by
  induction keys generalizing patch with
  | nil =>
      obtain rfl := Except.ok.inj h
      simp
  | cons k keys ih =>
      unfold collect at h
      cases hentry : entry k with
      | error err => simp [hentry] at h
      | ok value =>
          cases hrest : collect entry keys with
          | error err => simp [hentry, hrest] at h
          | ok rest =>
              have ihrest := ih hrest
              simp only [hentry, hrest, Except.ok.injEq] at h
              subst h
              cases value with
              | none => grind
              | some v =>
                  simp only [Option.elim, Fields.get_cons]
                  grind

theorem exists_collect {entry : JsString → Except DataCloneError (Option (Json N))}
    {keys : List JsString} (h : ∀ key ∈ keys, ∃ value, entry key = .ok value) :
    ∃ patch, collect entry keys = .ok patch := by
  induction keys with
  | nil => exact ⟨[], rfl⟩
  | cons key keys ih =>
      obtain ⟨value, hvalue⟩ := h key List.mem_cons_self
      obtain ⟨rest, hrest⟩ := ih fun k hk => h k (List.mem_cons_of_mem _ hk)
      simp only [collect, hvalue, hrest]
      exact ⟨_, rfl⟩

theorem of_collect {entry : JsString → Except DataCloneError (Option (Json N))}
    {keys : List JsString} {patch : Fields N} (h : collect entry keys = .ok patch)
    {key : JsString} (hkey : key ∈ keys) : ∃ value, entry key = .ok value :=
  ⟨_, (collect_ok h key).1 hkey⟩

section ThreeWay

variable [DecidableEq N] {existing : Option (Json N)} {previous desired : Fields N}

/-- What the loop of the three-way patch answers for a key. -/
def loopEntry (existing : Option (Json N)) (previous desired : Fields N) (key : JsString) :
    Except DataCloneError (Option (Json N)) :=
  if desired.get key = none ∧ key ∈ inheritedNames then .error ⟨key⟩ else
    if desired.get key = none then .ok (some .null)
    else patchEntry (Json.child existing key) (previous.get key) (desired.get key)

theorem createThreeWayMergePatch_eq :
    createThreeWayMergePatch existing previous desired
      = collect (loopEntry existing previous desired)
          (previous.keys ++ desired.keys.filter (· ∉ previous.keys)) := by
  rw [createThreeWayMergePatch]
  congr 1
  funext key
  unfold loopEntry
  split
  · rename_i hdesired
    simp only [hdesired, true_and, if_true]
  · rename_i d p hdesired hprevious
    simp [hdesired, hprevious, patchEntry]
  · rename_i d hdesired hobjects
    simp only [hdesired, reduceCtorEq, false_and, if_false, patchEntry]

omit [DecidableEq N] in
theorem mem_loopKeys {key : JsString} :
    key ∈ previous.keys ++ desired.keys.filter (· ∉ previous.keys)
      ↔ previous.get key ≠ none ∨ desired.get key ≠ none := by
  simp only [List.mem_append, List.mem_filter, decide_eq_true_eq, Fields.get_eq_none, ne_eq,
    not_not]
  tauto

/-- The patch has for each field what the three values there give. -/
theorem patchEntry_get {patch : Fields N}
    (h : createThreeWayMergePatch existing previous desired = .ok patch) (key : JsString) :
    patchEntry (Json.child existing key) (previous.get key) (desired.get key)
      = .ok (patch.get key) := by
  rw [createThreeWayMergePatch_eq] at h
  obtain ⟨hin, hout⟩ := collect_ok h key
  rw [mem_loopKeys] at hin hout
  cases hdesired : desired.get key with
  | some v =>
      have hentry := hin (.inr (by simp [hdesired]))
      simpa [loopEntry, hdesired] using hentry
  | none =>
      cases hprevious : previous.get key with
      | none => simp [patchEntry, hout (by simp [hdesired, hprevious])]
      | some w =>
          have hentry := hin (.inl (by simp [hprevious]))
          simp only [loopEntry, hdesired, true_and, if_true] at hentry
          split at hentry
          · contradiction
          · exact hentry

theorem not_inherited {patch : Fields N}
    (h : createThreeWayMergePatch existing previous desired = .ok patch) {key : JsString}
    (hprevious : previous.get key ≠ none) (hdesired : desired.get key = none) :
    key ∉ inheritedNames := by
  rw [createThreeWayMergePatch_eq] at h
  obtain ⟨value, hvalue⟩ := of_collect h (mem_loopKeys.2 (.inl hprevious))
  intro hin
  simp [loopEntry, hdesired, hin] at hvalue

theorem exists_createThreeWayMergePatch
    (hremoved : ∀ key, previous.get key ≠ none → desired.get key = none → key ∉ inheritedNames)
    (hentry : ∀ key, desired.get key ≠ none →
      ∃ value, patchEntry (Json.child existing key) (previous.get key) (desired.get key)
        = .ok value) :
    ∃ patch, createThreeWayMergePatch existing previous desired = .ok patch := by
  rw [createThreeWayMergePatch_eq]
  refine exists_collect fun key hkey => ?_
  unfold loopEntry
  by_cases hdesired : desired.get key = none
  · have hprevious := (mem_loopKeys.1 hkey).resolve_right (by simp [hdesired])
    exact ⟨some .null, by simp [hdesired, hremoved key hprevious hdesired]⟩
  · simpa [hdesired] using hentry key hdesired

end ThreeWay

/-- Each step of a loop over distinct keys settles the field of its key. -/
theorem get_foldl_keys {step : Fields N → JsString → Fields N} (patch : Fields N)
    (hstep : ∀ result key k, (step result key).get k
      = if k = key then patched (result.get k) (patch.get key) else result.get k)
    {keys : List JsString} (hnodup : keys.Nodup) (result : Fields N) (k : JsString) :
    (keys.foldl step result).get k
      = if k ∈ keys then patched (result.get k) (patch.get k) else result.get k := by
  induction keys generalizing result with
  | nil => simp
  | cons key keys ih =>
      obtain ⟨hnot, hnodup⟩ := List.nodup_cons.1 hnodup
      rw [List.foldl_cons, ih hnodup, hstep]
      by_cases hk : k = key
      · subst hk
        simp [hnot]
      · simp [hk]

theorem get_applyPatchObject (target patch : Fields N) (key : JsString) :
    (applyPatchObject target patch).get key = patched (target.get key) (patch.get key) := by
  rw [applyPatchObject, get_foldl_keys patch ?_ (Fields.nodup_keys patch)]
  · split
    · rfl
    · rename_i hkey
      rw [Fields.get_eq_none.2 hkey]
      rfl
  · intro result key k
    split
    · rename_i hvalue
      simp [hvalue, patched]
    · rename_i hvalue
      simp [hvalue, patched, Fields.get_delete]
    · rename_i hvalue
      split <;> rename_i htarget <;> rw [Fields.get_set] <;> split <;>
        simp_all [patched]
    · rename_i hvalue
      rw [Fields.get_set, hvalue]
      split
      · simp_all [patched]
      · rfl

end Webernetes.Cluster
