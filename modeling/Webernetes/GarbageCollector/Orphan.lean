/-
Webernetes.GarbageCollector.Orphan — `attemptToOrphanWorker`, for any answers
of the API.

Between two calls others may do anything, so a call is given what it finds
stored (`Moment`) and whether it fails for a reason of its own. The patches of
the dependents go on at the same time; each ends with an answer, and the
worker waits for all of them.

The worker deletes the owner once it has removed the finalizer. An owner whose
last finalizer that was is gone by then, and the answer that it is not found
puts the owner back into the queue, every time (`orphansRight_iff`).
-/
import Webernetes.Controller.OwnerReferencePatches
import Webernetes.GarbageCollector.Graph

namespace Webernetes.GarbageCollector

open Js

/-! ## Calls -/

/-- What is stored under a name, as far as the worker's calls read or change
it: of the owner references their uids. -/
structure Stored where
  uid : JsString
  references : Option (List JsString) := none
  finalizers : List JsString := []
  deletionTimestamp : Bool := false
  deletionGracePeriodSeconds : Int := 0
  deriving DecidableEq

inductive CallError where
  | notFound
  | conflict
  | unsupportedMediaType
  | other
  deriving DecidableEq

/-- What a call finds. It may fail for another reason: a conflict, or any
other. -/
structure Moment where
  stored : Option Stored
  failure : Option CallError := none

/-- The object that a call works on. -/
def Moment.read (m : Moment) : Except CallError Stored :=
  match m.failure with
  | some error => if error = .conflict then .error .conflict else .error .other
  | none =>
    match m.stored with
    | some stored => .ok stored
    | none => .error .notFound

inductive PatchSupport where
  /-- Deployments, ReplicaSets and Pods. -/
  | strategic
  /-- Nodes, Services and EndpointSlices. -/
  | mergeOnly
  | unsupported
  deriving DecidableEq

/-- How `patchObject` goes about a resource. -/
def patchSupport (identity : ObjectReference) : PatchSupport :=
  if identity.apiVersion = js "apps/v1" ∧ (identity.kind = js "Deployment" ∨ identity.kind = js "ReplicaSet")
      ∨ identity.apiVersion = js "v1" ∧ identity.kind = js "Pod" then .strategic
  else if identity.apiVersion = js "v1" ∧ (identity.kind = js "Node" ∨ identity.kind = js "Service")
      ∨ identity.apiVersion = js "discovery.k8s.io/v1" ∧ identity.kind = js "EndpointSlice" then .mergeOnly
  else .unsupported

/-! ## The patch of a dependent -/

/-- The uids in a list of references once those to an owner were deleted; the
directive is stored where there is no list. -/
def releaseReferences (ownerUID : JsString) : Option (List JsString) → List JsString
  | some uids => uids.filter (· ≠ ownerUID)
  | none => [ownerUID]

/-- The calls made for a dependent. `cached` are the references of the object
in the graph builder's cache. -/
structure DependentCalls where
  identity : ObjectReference
  cached : Option (List JsString) := none
  atStrategic : Moment
  atGet : Moment
  atMerge : Moment

namespace DependentCalls

variable (d : DependentCalls) (ownerUID : JsString)

/-- `patchObject` with the strategic merge patch. Of a Pod the API checks the
uid. -/
def patchStrategic : Except CallError Stored :=
  match patchSupport d.identity with
  | .strategic => do
    let latest ← d.atStrategic.read
    if d.identity.kind = js "Pod" ∧ latest.uid ≠ d.identity.uid then .error .other
    else
      return { latest with
        uid := d.identity.uid
        references := some (releaseReferences ownerUID latest.references) }
  | .mergeOnly => .error .unsupportedMediaType
  | .unsupported => .error .other

/-- `deleteOwnerRefJSONMergePatch`: the references that stay. -/
def remainingReferences : Except CallError (List JsString) := do
  match d.cached with
  | some uids => return uids.filter (· ≠ ownerUID)
  | none => return ((← d.atGet.read).references.getD []).filter (· ≠ ownerUID)

/-- `patch`: what is stored then. -/
def patch : Except CallError Stored :=
  match d.patchStrategic ownerUID with
  | .ok patched => .ok patched
  | .error .unsupportedMediaType => do
    let references ← d.remainingReferences ownerUID
    return { ← d.atMerge.read with references := some references }
  | .error error => .error error

/-- The patch failed, and not because the dependent is gone. -/
def failed : Bool :=
  match d.patch ownerUID with
  | .ok _ => false
  | .error error => error ≠ .notFound

/-- The dependent has no reference to the owner, or is gone. -/
def Lost : Prop :=
  match d.patch ownerUID with
  | .ok stored => ownerUID ∉ stored.references.getD []
  | .error error => error = .notFound

/-- The patch arrives at an object without a list of references. -/
def StoresDirective : Prop :=
  patchSupport d.identity = .strategic ∧ ∃ latest, d.atStrategic.read = .ok latest ∧ latest.references = none

end DependentCalls

/-! ## The finalizer -/

/-- An attempt of `updateObject`. -/
structure Attempt where
  atGet : Moment
  atReplace : Moment

/-- `finalizedPendingDeletion`. -/
def finalizedPendingDeletion (stored : Stored) : Bool :=
  stored.deletionTimestamp && stored.finalizers.isEmpty && decide (stored.deletionGracePeriodSeconds ≤ 0)

/-- `store.update`: what is stored under the name then. -/
def replaceObject (m : Moment) (body : Stored) : Except CallError (Option Stored) := do
  let _ ← m.read
  return if finalizedPendingDeletion body then none else some body

def Attempt.run (a : Attempt) (finalizer : JsString) : Except CallError (Option Stored) := do
  let latest ← a.atGet.read
  replaceObject a.atReplace { latest with finalizers := latest.finalizers.filter (· ≠ finalizer) }

/-- The attempts of `retryConflicts`. -/
def retryAttempts (attempts : Nat → Attempt) (finalizer : JsString) (attempt : Nat) :
    Nat → Except CallError (Option Stored)
  | 0 => (attempts attempt).run finalizer
  | retries + 1 =>
    match (attempts attempt).run finalizer with
    | .error .conflict => retryAttempts attempts finalizer (attempt + 1) retries
    | result => result

/-- The calls made for the owner. -/
structure OwnerCalls where
  identity : ObjectReference
  atGet : Moment
  attempts : Nat → Attempt
  atDelete : Moment

namespace OwnerCalls

variable (o : OwnerCalls)

/-- `getObject`. The resources that are patched are those that are read; only
a Node has no namespace. -/
def getObject : Except CallError Stored :=
  if patchSupport o.identity = .unsupported then .error .other
  else if o.identity.kind ≠ js "Node" ∧ o.identity.namespace.length = 0 then .error .other
  else o.atGet.read

/-- `removeFinalizer`: whether the finalizer was removed; there may be no
owner to remove it from. -/
def removeFinalizer (finalizer : JsString) : Except CallError Bool :=
  match o.getObject with
  | .error .notFound => .ok false
  | .error error => .error error
  | .ok _ =>
    match retryAttempts o.attempts finalizer 0 4 with
    | .ok _ => .ok true
    | .error .notFound => .ok false
    | .error error => .error error

/-- `deleteObject`, with the uid as its precondition. -/
def deleteObject : Option CallError :=
  match o.atDelete.read with
  | .error error => some error
  | .ok stored => if stored.uid ≠ o.identity.uid then some .conflict else none

/-- The owner does not exist any more when the delete arrives. -/
def GoneAtDelete : Prop := ∀ stored ∈ o.atDelete.stored, stored.uid ≠ o.identity.uid

end OwnerCalls

/-! ## The worker -/

inductive WorkQueueItemAction where
  | forgetItem
  | requeueItem
  deriving DecidableEq

def orphanDependents (ownerUID : JsString) (dependents : List DependentCalls) : Bool :=
  !dependents.any (·.failed ownerUID)

/-- What the worker returns, and whether it removed the finalizer. -/
structure OrphanRun where
  action : WorkQueueItemAction
  removed : Bool
  deriving DecidableEq

def attemptToOrphanWorker (o : OwnerCalls) (dependents : List DependentCalls) : OrphanRun :=
  if !orphanDependents o.identity.uid dependents then { action := .requeueItem, removed := false }
  else
    match o.removeFinalizer finalizerOrphanDependents with
    | .error _ => { action := .requeueItem, removed := false }
    | .ok removed =>
      match o.deleteObject with
      | some _ => { action := .requeueItem, removed }
      | none => { action := .forgetItem, removed }

/-- The worker comes to the deletion of the owner, which has no finalizer of
the worker's any more. -/
def ReachesDelete (o : OwnerCalls) (dependents : List DependentCalls) : Prop :=
  (∀ d ∈ dependents, d.failed o.identity.uid = false)
    ∧ ∃ removed, o.removeFinalizer finalizerOrphanDependents = .ok removed

/-- What the worker is for. -/
structure OrphansRight (o : OwnerCalls) (dependents : List DependentCalls) : Prop where
  afterAll : (attemptToOrphanWorker o dependents).removed = true → ∀ d ∈ dependents, d.Lost o.identity.uid
  keeps : (∃ d ∈ dependents, d.failed o.identity.uid = true) →
    attemptToOrphanWorker o dependents = { action := .requeueItem, removed := false }
  forgets : ReachesDelete o dependents → o.GoneAtDelete →
    (attemptToOrphanWorker o dependents).action = .forgetItem

/-! ## What the answers come to -/

def uidOfReference (reference : Json Nat) : JsString :=
  match Json.child (some reference) (js "uid") with
  | some (.string uid) => uid
  | _ => []

theorem Moment.read_ok {m : Moment} {stored : Stored} (h : m.read = .ok stored) :
    m.stored = some stored := by
  rw [read] at h
  split at h
  · split at h <;> cases h
  · split at h
    · rename_i hstored
      cases h
      exact hstored
    · cases h

theorem Moment.read_eq_unsupported (m : Moment) : m.read ≠ .error .unsupportedMediaType := by
  rw [read]
  split
  · split <;> nofun
  · split <;> nofun

namespace DependentCalls

variable {d : DependentCalls} {ownerUID : JsString}

theorem patchStrategic_of_strategic (h : patchSupport d.identity = .strategic) :
    d.patchStrategic ownerUID ≠ .error .unsupportedMediaType := by
  rw [patchStrategic, h]
  dsimp only
  cases hread : d.atStrategic.read with
  | error error =>
    rintro heq
    cases heq
    exact d.atStrategic.read_eq_unsupported hread
  | ok latest =>
    simp only [bind, Except.bind]
    split <;> nofun

/-- **A patch that did not fail leaves no reference to the owner, but where
the directive was stored.** -/
theorem lost_iff (hok : d.failed ownerUID = false) :
    d.Lost ownerUID ↔ ¬ (d.StoresDirective ∧ ∃ stored, d.patch ownerUID = .ok stored) := by
  rw [Lost]
  rw [failed] at hok
  cases hpatch : d.patch ownerUID with
  | error error =>
    rw [hpatch] at hok
    simpa using hok
  | ok stored =>
    have hstored : ∃ stored', (.ok stored : Except CallError Stored) = .ok stored' := ⟨stored, rfl⟩
    simp only [hstored, and_true]
    rw [patch] at hpatch
    cases hstrategic : d.patchStrategic ownerUID with
    | ok patched =>
      rw [hstrategic] at hpatch
      cases hpatch
      rw [patchStrategic] at hstrategic
      split at hstrategic
      · rename_i hsupport
        cases hread : d.atStrategic.read with
        | error error =>
          rw [hread] at hstrategic
          cases hstrategic
        | ok latest =>
          simp only [hread, bind, Except.bind, pure, Except.pure] at hstrategic
          split at hstrategic
          · cases hstrategic
          · cases hstrategic
            simp only [StoresDirective, hsupport, hread, Except.ok.injEq, true_and, exists_eq_left',
              Option.getD_some]
            cases latest.references <;> simp [releaseReferences]
      · cases hstrategic
      · cases hstrategic
    | error error =>
      have hmerge : ¬ d.StoresDirective := by
        rintro ⟨hsupport, -⟩
        rw [hstrategic] at hpatch
        cases error with
        | unsupportedMediaType => exact patchStrategic_of_strategic hsupport hstrategic
        | _ => cases hpatch
      simp only [hmerge, not_false_iff, iff_true]
      rw [hstrategic] at hpatch
      cases error with
      | unsupportedMediaType =>
        simp only [remainingReferences] at hpatch
        cases hcached : d.cached with
        | some uids =>
          simp only [hcached, bind, Except.bind, pure, Except.pure] at hpatch
          cases hread : d.atMerge.read with
          | error error => simp [hread] at hpatch
          | ok latest =>
            simp only [hread, Except.ok.injEq] at hpatch
            rw [← hpatch]
            simp
        | none =>
          simp only [hcached, bind, Except.bind, pure, Except.pure] at hpatch
          cases hget : d.atGet.read with
          | error error => simp [hget] at hpatch
          | ok found =>
            cases hread : d.atMerge.read with
            | error error => simp [hget, hread] at hpatch
            | ok latest =>
              simp only [hget, hread, Except.ok.injEq] at hpatch
              rw [← hpatch]
              simp
      | _ => cases hpatch

end DependentCalls

theorem orphanDependents_iff {ownerUID : JsString} {dependents : List DependentCalls} :
    orphanDependents ownerUID dependents = true ↔ ∀ d ∈ dependents, d.failed ownerUID = false := by
  simp [orphanDependents]

theorem deleteObject_of_gone {o : OwnerCalls} (h : o.GoneAtDelete) : o.deleteObject ≠ none := by
  rw [OwnerCalls.deleteObject]
  cases hread : o.atDelete.read with
  | error error => nofun
  | ok stored =>
    dsimp only
    rw [if_pos (h stored (Moment.read_ok hread))]
    nofun

theorem worker_of_failed {o : OwnerCalls} {dependents : List DependentCalls}
    (h : orphanDependents o.identity.uid dependents = false) :
    attemptToOrphanWorker o dependents = { action := .requeueItem, removed := false } := by
  rw [attemptToOrphanWorker, h]
  rfl

theorem worker_of_removed {o : OwnerCalls} {dependents : List DependentCalls} {removed : Bool}
    (h : orphanDependents o.identity.uid dependents = true)
    (hremove : o.removeFinalizer finalizerOrphanDependents = .ok removed) :
    attemptToOrphanWorker o dependents
      = { action := if o.deleteObject.isNone then .forgetItem else .requeueItem, removed } := by
  rw [attemptToOrphanWorker, h, hremove]
  cases o.deleteObject <;> simp

/-- The finalizer is only removed once no patch has failed. -/
theorem removed_iff {o : OwnerCalls} {dependents : List DependentCalls} :
    (attemptToOrphanWorker o dependents).removed = true ↔
      (∀ d ∈ dependents, d.failed o.identity.uid = false)
        ∧ o.removeFinalizer finalizerOrphanDependents = .ok true := by
  rw [← orphanDependents_iff]
  cases hfailed : orphanDependents o.identity.uid dependents with
  | false => simp [worker_of_failed hfailed]
  | true =>
    cases hremove : o.removeFinalizer finalizerOrphanDependents with
    | error error => simp [attemptToOrphanWorker, hfailed, hremove]
    | ok removed => simp [worker_of_removed hfailed hremove]

/-- **The worker is right just when it stores no directive before it removes
the finalizer, and the owner is still there for it to delete.** -/
theorem orphansRight_iff (o : OwnerCalls) (dependents : List DependentCalls) :
    OrphansRight o dependents ↔
      ((∀ d ∈ dependents, d.failed o.identity.uid = false) →
        o.removeFinalizer finalizerOrphanDependents = .ok true →
        ∀ d ∈ dependents, ¬ (d.StoresDirective ∧ ∃ stored, d.patch o.identity.uid = .ok stored))
      ∧ (ReachesDelete o dependents → ¬ o.GoneAtDelete) := by
  constructor
  · intro h
    constructor
    · intro hall hremoved d hd
      exact (DependentCalls.lost_iff (hall d hd)).mp (h.afterAll (removed_iff.mpr ⟨hall, hremoved⟩) d hd)
    · intro hreaches hgone
      have hforget := h.forgets hreaches hgone
      obtain ⟨hall, removed, hremove⟩ := hreaches
      rw [worker_of_removed (orphanDependents_iff.mpr hall) hremove] at hforget
      cases hdelete : o.deleteObject with
      | none => exact deleteObject_of_gone hgone hdelete
      | some error => simp [hdelete] at hforget
  · rintro ⟨hdirectives, hthere⟩
    constructor
    · intro hremoved d hd
      obtain ⟨hall, hremove⟩ := removed_iff.mp hremoved
      exact (DependentCalls.lost_iff (hall d hd)).mpr (hdirectives hall hremove d hd)
    · rintro ⟨d, hd, hfailed⟩
      refine worker_of_failed ?_
      rw [orphanDependents, List.any_eq_true.mpr ⟨d, hd, hfailed⟩]
      rfl
    · exact fun hreaches hgone => absurd hgone (hthere hreaches)

/-- An owner that waits for its only finalizer, in the calls of one run. -/
def lastFinalizer : OwnerCalls where
  identity :=
    { apiVersion := js "apps/v1", kind := js "ReplicaSet", name := js "web", uid := js "rs-uid",
      «namespace» := js "ns" }
  atGet := { stored := some { uid := js "rs-uid", finalizers := [js "orphan"], deletionTimestamp := true } }
  attempts _ :=
    { atGet := { stored := some { uid := js "rs-uid", finalizers := [js "orphan"], deletionTimestamp := true } }
      atReplace :=
        { stored := some { uid := js "rs-uid", finalizers := [js "orphan"], deletionTimestamp := true } } }
  atDelete := { stored := none }

/-- Its removal removes the object, and the worker asks for the owner again:
in this run, and in the one after it that finds no owner. -/
theorem lastFinalizer_requeued :
    retryAttempts lastFinalizer.attempts finalizerOrphanDependents 0 4 = .ok none
      ∧ attemptToOrphanWorker lastFinalizer [] = { action := .requeueItem, removed := true }
      ∧ attemptToOrphanWorker { lastFinalizer with atGet := { stored := none } } []
        = { action := .requeueItem, removed := false }
      ∧ ¬ OrphansRight lastFinalizer [] := by
  refine ⟨by decide +kernel, by decide +kernel, by decide +kernel, fun h => ?_⟩
  have hforget := h.forgets ⟨by simp, true, by decide +kernel⟩ (by simp [OwnerCalls.GoneAtDelete, lastFinalizer])
  revert hforget
  decide +kernel

end Webernetes.GarbageCollector
