/-
Webernetes.Util.PodStatus — patching the status of a pod.

The whole new status is sent as a merge patch, and a merge keeps what a patch
does not have. So the stored status is the new one only where it leaves
nothing of the old one behind (`Covers`).

A text of JSON is the value that it stands for. What the store makes of the
pod it is handed is in `Storage.Store`; it changes no status
(`PodStore.body_validateUpdate`).
-/
import Webernetes.Cluster.ApplyMerge
import Webernetes.Js.Value
import Webernetes.Storage.Pod

namespace Webernetes.Util

open Js Json Cluster

variable {N : Type}

/-! ## The patch -/

/-- A `V1PodStatus`, by its properties. -/
abbrev PodStatus (N : Type) := List (JsString × Value N)

def toJsonValue (status : PodStatus N) : Json N := .object (Value.fieldsToJson (Value.dropFields status))

/-- `JSON.parse(patchBytes)` for a patch of a status, with a uid to check. -/
def statusPatch (uid : JsString) (status : PodStatus N) : Json N :=
  .object [(js "metadata", .object [(js "uid", .string uid)]),
    (js "status", .object (Value.fieldsToJson status))]

structure PreparedPatch (N : Type) where
  patchBytes : Json N
  unchanged : Bool

def preparePatchBytesForPodStatus [DecidableEq N] (uid : JsString) (oldPodStatus newPodStatus : PodStatus N) :
    PreparedPatch N :=
  if deepEqual (toJsonValue oldPodStatus) (toJsonValue newPodStatus) then
    { patchBytes := .object [(js "metadata", .object [(js "uid", .string uid)])], unchanged := true }
  else { patchBytes := statusPatch uid newPodStatus, unchanged := false }

/-! ## The API -/

inductive PatchError where
  | notFound (message : JsString)
  | badRequest (message : JsString)
  | invalid (message : JsString)
  | error (message : JsString)
  deriving DecidableEq

/-- `patch.metadata[key]`, where it is not undefined. -/
def patchedMetadata (patch : Json N) (key : JsString) : Option (Json N) :=
  child (child (some patch) (js "metadata")) key

def isString (v : Json N) (s : JsString) : Bool :=
  match v with
  | .string s' => s' = s
  | _ => false

variable (text : Json N → JsString)

/-- `text` is what a template literal has for a value. -/
def validatePatchName (patch : Json N) (name : JsString) : Except PatchError Unit :=
  match patchedMetadata patch (js "name") with
  | none => .ok ()
  | some patchedName =>
    if isString patchedName name then .ok ()
    else .error (.badRequest (js "the name of the object (" ++ text patchedName
      ++ js ") does not match the name on the URL (" ++ name ++ js ")"))

def validatePatchUid (patch : Json N) (name : JsString) (uid : Option JsString) : Except PatchError Unit :=
  match patchedMetadata patch (js "uid") with
  | none => .ok ()
  | some patchedUid =>
    if uid.any (isString patchedUid) then .ok ()
    else .error (.invalid (js "Pod \"" ++ name
      ++ js "\" is invalid: metadata.uid: Invalid value: \"" ++ text patchedUid
      ++ js "\": field is immutable"))

/-- `pod.metadata?.uid`. -/
def uidOf (pod : Fields N) : Option JsString :=
  match child (pod.get (js "metadata")) (js "uid") with
  | some (.string uid) => some uid
  | _ => none

/-- `metadata ??= {}`, the name of the request, and its namespace where there
is none. -/
def named (pod : Fields N) (name ns : JsString) : Fields N :=
  let metadata := ensurePlainObject pod (js "metadata")
  let metadata := metadata.set (js "name") (.string name)
  let metadata := if (metadata.get (js "namespace")).isSome then metadata
    else metadata.set (js "namespace") (.string ns)
  pod.set (js "metadata") (.object metadata)

/-- `patchNamespacedPodStatus`, up to the pod that the store is handed. -/
def patchNamespacedPodStatus (pod : Option (Fields N)) (name ns : JsString) (body : Json N) :
    Except PatchError (Fields N) := do
  match pod with
  | none => .error (.notFound (js "Pod \"" ++ name ++ js "\" not found"))
  | some pod =>
    validatePatchName text body name
    validatePatchUid text body name (uidOf pod)
    let patched ← (mergePatch pod body).mapError .error
    return named patched name ns

structure PatchPodStatusResult (N : Type) where
  pod : Option (Fields N)
  patchBytes : Json N
  unchanged : Bool

/-- `patchPodStatus`, for the pod that the API finds. -/
def patchPodStatus [DecidableEq N] (found : Option (Fields N)) («namespace» name uid : JsString)
    (oldPodStatus newPodStatus : PodStatus N) : Except PatchError (PatchPodStatusResult N) :=
  let prepared := preparePatchBytesForPodStatus uid oldPodStatus newPodStatus
  if prepared.unchanged then
    .ok { pod := none, patchBytes := prepared.patchBytes, unchanged := true }
  else
    (patchNamespacedPodStatus text found name «namespace» prepared.patchBytes).map fun pod =>
      { pod := some pod, patchBytes := prepared.patchBytes, unchanged := false }

/-- The pod that there is after a call. -/
def PatchPodStatusResult.stored (result : PatchPodStatusResult N) (pod : Fields N) : Fields N :=
  result.pod.getD pod

/-! ## What a merge leaves behind -/

/-- The new value leaves nothing behind: an object in it has what the old one
has in its place, and no null of its own there. -/
def Covers (old new : Option (Json N)) : Prop :=
  ∀ path key, isObj (atPath old path) → isObj (atPath new path) →
    (child (atPath old path) key ≠ none → child (atPath new path) key ≠ none)
      ∧ ∀ v, child (atPath new path) key = some v → v ≠ .null

theorem isObj_iff {v : Option (Json N)} : isObj v ↔ ∃ fields, v = some (.object fields) := by
  rcases v with _ | v
  · simp [isObj]
  · cases v <;> simp [isObj, Json.isObject]

theorem not_isObj_atPath_cons {v : Option (Json N)} (h : ¬ isObj v) (key : JsString) (path : List JsString) :
    ¬ isObj (atPath v (key :: path)) := by
  have hchild : child v key = none := by
    rcases v with _ | v
    · rfl
    · exact child_of_not_object (by simpa [isObj] using h) key
  rw [atPath_cons, hchild, atPath_none]
  simp [isObj]

/-- Where there is no object to merge into, nothing is left behind. -/
theorem covers_of_not_isObj {old new : Option (Json N)} (h : ¬ (isObj old ∧ isObj new)) : Covers old new := by
  intro path key hold hnew
  cases path with
  | nil => exact absurd ⟨hold, hnew⟩ h
  | cons k path =>
    by_cases hobj : isObj old
    · exact absurd hnew (not_isObj_atPath_cons (fun hn => h ⟨hobj, hn⟩) k path)
    · exact absurd hold (not_isObj_atPath_cons hobj k path)

/-- Key by key. -/
theorem covers_object {old new : Fields N} : Covers (some (.object old)) (some (.object new)) ↔
    ∀ key, (old.get key ≠ none → new.get key ≠ none) ∧ (∀ v, new.get key = some v → v ≠ .null)
      ∧ Covers (old.get key) (new.get key) := by
  constructor
  · intro h key
    obtain ⟨hkept, hnull⟩ := h [] key rfl rfl
    exact ⟨hkept, hnull, fun path k => h (key :: path) k⟩
  · intro h path key hold hnew
    cases path with
    | nil => exact ⟨(h key).1, (h key).2.1⟩
    | cons k path => exact (h k).2.2 path key hold hnew

theorem sameField_some [DecidableEq N] {left : Option (Json N)} {right : Json N} :
    sameField left (some right) ↔ ∃ w, left = some w ∧ deepEqual w right = true := by
  cases left <;> simp [sameField]

/-- By induction on the new value: the merge makes it where it covers the old
one. -/
theorem deepEqual_patched [DecidableEq N] (old : Option (Json N)) (new : Json N) (hnull : new ≠ .null) :
    (∃ w, patched old (some new) = some w ∧ deepEqual w new = true) ↔ Covers old (some new) := by
  have hleaf : ∀ value : Json N, value.isObject = false → Covers old (some value) := by
    intro value hvalue
    exact covers_of_not_isObj fun h => by simp [isObj, hvalue] at h
  cases hnew : new with
  | null => exact absurd hnew hnull
  | bool b => exact iff_of_true ⟨_, rfl, deepEqual_refl _⟩ (hleaf _ rfl)
  | number n => exact iff_of_true ⟨_, rfl, deepEqual_refl _⟩ (hleaf _ rfl)
  | string s => exact iff_of_true ⟨_, rfl, deepEqual_refl _⟩ (hleaf _ rfl)
  | array items => exact iff_of_true ⟨_, rfl, deepEqual_refl _⟩ (hleaf _ rfl)
  | object fields =>
    by_cases hobj : isObj old
    · obtain ⟨oldFields, rfl⟩ := isObj_iff.mp hobj
      have hpatched : patched (some (.object oldFields)) (some (.object fields))
          = some (.object (applyPatchObject oldFields fields)) := rfl
      rw [hpatched, covers_object]
      simp only [Option.some.injEq, exists_eq_left', deepEqual_object, get_applyPatchObject]
      refine forall_congr' fun key => ?_
      cases hfield : Fields.get fields key with
      | none =>
        have hcovers : Covers (Fields.get oldFields key) (none : Option (Json N)) :=
          covers_of_not_isObj fun h => by simp [isObj] at h
        cases hold : Fields.get oldFields key with
        | none => simpa [patched, sameField, hold] using hcovers
        | some w => simp [patched, sameField]
      | some v =>
        rw [sameField_some]
        by_cases hv : v = .null
        · subst hv
          simp [patched]
        · rw [deepEqual_patched (Fields.get oldFields key) v hv]
          simp [hv]
    · rw [patched_of_not_isObj hobj]
      exact iff_of_true ⟨_, rfl, deepEqual_refl _⟩ (covers_of_not_isObj fun h => hobj h.1)
termination_by sizeOf new
decreasing_by
  have hlt := Fields.sizeOf_get hfield
  subst hnew
  simp only [Json.object.sizeOf_spec]
  omega

/-! ## The stored status -/

section Stored

variable [DecidableEq N]

omit [DecidableEq N] in
theorem toJsonValue_eq (status : PodStatus N) :
    toJsonValue status = .object (Value.fieldsToJson status) := by
  rw [toJsonValue, Value.fieldsToJson_dropFields]

omit [DecidableEq N] in
theorem get_status_named (pod : Fields N) (name ns : JsString) :
    (named pod name ns).get (js "status") = pod.get (js "status") := by
  unfold named
  dsimp only
  rw [Fields.get_set, if_neg (by decide)]

omit [DecidableEq N] in
/-- A patch of a status is accepted where its uid is that of the pod. -/
theorem patchNamespacedPodStatus_ok (text : Json N → JsString) {pod : Fields N} (name ns : JsString)
    {uid : JsString} (status : PodStatus N) (huid : uidOf pod = some uid) : ∃ pod', patchNamespacedPodStatus text (some pod) name ns
      (statusPatch uid status) = .ok pod' ∧ pod'.get (js "status")
        = patched (pod.get (js "status")) (some (.object (Value.fieldsToJson status))) := by
  have hname : patchedMetadata (statusPatch uid status) (js "name") = none := by
    have hne : js "name" ≠ js "uid" := by decide
    simp [patchedMetadata, statusPatch, Fields.get_cons, hne]
  have hpatchedUid : patchedMetadata (statusPatch uid status) (js "uid") = some (.string uid) := by
    simp [patchedMetadata, statusPatch, Fields.get_cons]
  have hvalidName : validatePatchName text (statusPatch uid status) name = .ok () := by
    rw [validatePatchName, hname]
  have hvalidUid : validatePatchUid text (statusPatch uid status) name (uidOf pod) = .ok () := by
    rw [validatePatchUid, hpatchedUid, huid]
    simp [isString]
  unfold patchNamespacedPodStatus
  dsimp only
  rw [hvalidName, hvalidUid]
  refine ⟨_, rfl, ?_⟩
  rw [get_status_named, get_applyPatchObject]
  rfl

/-- The stored status is the new one where it was that already, or where the
new one leaves nothing behind. -/
theorem exists_patchPodStatus (text : Json N → JsString) {pod : Fields N} (ns name : JsString)
    {uid : JsString} {old : PodStatus N} (new : PodStatus N) (hstored : pod.get (js "status") = some (toJsonValue old)) (huid : uidOf pod = some uid) :
    ∃ result, patchPodStatus text (some pod) ns name uid old new = .ok result ∧
      ((∃ status, (result.stored pod).get (js "status") = some status
          ∧ deepEqual status (toJsonValue new) = true)
        ↔ deepEqual (toJsonValue old) (toJsonValue new) = true
          ∨ Covers (some (toJsonValue old)) (some (toJsonValue new))) := by
  unfold patchPodStatus preparePatchBytesForPodStatus
  by_cases hsame : deepEqual (toJsonValue old) (toJsonValue new) = true
  · rw [if_pos hsame]
    exact ⟨_, rfl, iff_of_true ⟨_, hstored, hsame⟩ (.inl hsame)⟩
  · obtain ⟨pod', hpod', hstatus⟩ := patchNamespacedPodStatus_ok text name ns new huid
    rw [if_neg hsame]
    dsimp only
    rw [hpod']
    refine ⟨_, rfl, ?_⟩
    rw [PatchPodStatusResult.stored, Option.getD_some, hstatus, hstored, or_iff_right hsame,
      ← toJsonValue_eq]
    exact deepEqual_patched _ _ (by rw [toJsonValue_eq]; simp)

/-- When patching a status stores it, and when a patch after it finds nothing
to change. -/
theorem patchPodStatus_stores (text : Json N → JsString) {pod : Fields N} (ns name : JsString)
    {uid : JsString} {old : PodStatus N} (new : PodStatus N) (hstored : pod.get (js "status") = some (toJsonValue old)) (huid : uidOf pod = some uid) :
    ∃ result, patchPodStatus text (some pod) ns name uid old new = .ok result ∧
      ((∃ status, (result.stored pod).get (js "status") = some status
          ∧ deepEqual status (toJsonValue new) = true)
        ↔ deepEqual (toJsonValue old) (toJsonValue new) = true
          ∨ Covers (some (toJsonValue old)) (some (toJsonValue new)))
      ∧ ∀ reread : PodStatus N, (result.stored pod).get (js "status") = some (toJsonValue reread) →
        ((preparePatchBytesForPodStatus uid reread new).unchanged = true
          ↔ deepEqual (toJsonValue old) (toJsonValue new) = true
            ∨ Covers (some (toJsonValue old)) (some (toJsonValue new))) := by
  obtain ⟨result, hresult, hiff⟩ := exists_patchPodStatus text ns name new hstored huid
  refine ⟨result, hresult, hiff, fun reread hreread => ?_⟩
  rw [← hiff, hreread, preparePatchBytesForPodStatus]
  split
  · rename_i hsame
    exact iff_of_true rfl ⟨_, rfl, hsame⟩
  · rename_i hdiffer
    refine iff_of_false (by simp) ?_
    rintro ⟨status, hstatus, hsame⟩
    cases hstatus
    exact hdiffer hsame

end Stored

/-- A pod that has been evicted. -/
def evictedStatus : PodStatus Nat :=
  [(js "phase", .string (js "Failed")), (js "reason", .string (js "Evicted"))]

def runningStatus : PodStatus Nat :=
  [(js "phase", .string (js "Running")), (js "reason", .undefined)]

def podWith (status : PodStatus Nat) : Fields Nat :=
  [(js "metadata", .object [(js "uid", .string (js "1"))]), (js "status", toJsonValue status)]

theorem podWith_get (status : PodStatus Nat) :
    (podWith status).get (js "status") = some (toJsonValue status) := rfl

theorem uidOf_podWith (status : PodStatus Nat) : uidOf (podWith status) = some (js "1") := rfl

theorem patchPodStatus_sets_phase :
    ∃ result, patchPodStatus (fun _ => []) (some (podWith runningStatus)) (js "default") (js "web") (js "1")
        runningStatus evictedStatus = .ok result
      ∧ ∃ status, (result.stored (podWith runningStatus)).get (js "status") = some status
          ∧ deepEqual status (toJsonValue evictedStatus) = true := by
  obtain ⟨result, hresult, hiff, -⟩ := patchPodStatus_stores (fun _ => []) (js "default") (js "web")
    evictedStatus (podWith_get runningStatus) (uidOf_podWith runningStatus)
  refine ⟨result, hresult, hiff.mpr (.inr ?_)⟩
  rw [toJsonValue_eq, toJsonValue_eq, covers_object]
  intro key
  have hrunning : Value.fieldsToJson runningStatus = [(js "phase", .string (js "Running"))] := rfl
  have hevicted : Value.fieldsToJson evictedStatus
      = [(js "phase", .string (js "Failed")), (js "reason", .string (js "Evicted"))] := rfl
  rw [hrunning, hevicted]
  simp only [Fields.get_cons, Fields.get_nil]
  by_cases hphase : key = js "phase"
  · simp only [if_pos hphase]
    exact ⟨fun _ => by simp, by simp, covers_of_not_isObj (by simp [isObj, Json.isObject])⟩
  · simp only [if_neg hphase]
    refine ⟨fun h => absurd rfl h, fun v hv => ?_, covers_of_not_isObj (by simp [isObj])⟩
    split at hv
    · cases hv
      simp
    · cases hv

/-- The reason of the old status stays where the new one has none. -/
theorem reason_stays :
    ∃ result, patchPodStatus (fun _ => []) (some (podWith evictedStatus)) (js "default") (js "web") (js "1")
        evictedStatus runningStatus = .ok result
      ∧ ¬ ∃ status, (result.stored (podWith evictedStatus)).get (js "status") = some status
          ∧ deepEqual status (toJsonValue runningStatus) = true := by
  obtain ⟨result, hresult, hiff⟩ := exists_patchPodStatus (fun _ => []) (js "default") (js "web")
    runningStatus (podWith_get evictedStatus) (uidOf_podWith evictedStatus)
  refine ⟨result, hresult, fun hsame => ?_⟩
  have hold : Fields.get (Value.fieldsToJson evictedStatus) (js "reason")
      = some (.string (js "Evicted")) := rfl
  have hnew : Fields.get (Value.fieldsToJson runningStatus) (js "reason") = none := rfl
  rw [toJsonValue_eq, toJsonValue_eq] at hiff
  rw [toJsonValue_eq] at hsame
  rcases hiff.mp hsame with hequal | hcovers
  · have hreason := deepEqual_object.mp hequal (js "reason")
    rw [hold, hnew] at hreason
    exact hreason
  · have hkept := (covers_object.mp hcovers (js "reason")).1
    rw [hold, hnew] at hkept
    exact hkept (by simp) rfl

end Webernetes.Util
