/-
Webernetes.Controller.ControllerRefManager — controllers claim pods: they
adopt those without a controller and release those that no longer match.

A claim decides on pods as they were cached. What it decides is sent as a
patch that names owner references by their uid, and the API merges the patch
into whatever the pod has become.
-/
import Webernetes.Client.PodApi

namespace Webernetes.Controller

open Js Base Etcd Storage Client

/-! ## Patches of owner references -/

inductive OwnerReferencePatch where
  | merge (ref : Storage.OwnerReference)
  /-- `$patch: "delete"`. -/
  | delete (uid : JsString)
  deriving DecidableEq

/-- A patch of the controllers: of the uid, the owner references and the
finalizers. -/
structure PodPatch where
  uid : Option JsString
  ownerReferences : List OwnerReferencePatch
  finalizers : List JsString := []
  /-- `$deleteFromPrimitiveList/finalizers`. -/
  deletedFinalizers : List JsString := []

def deleteMatchingEntries (original : List Storage.OwnerReference) (uid : JsString) : List Storage.OwnerReference :=
  original.filter (·.uid ≠ uid)

/-- The references without those that are deleted, and the rest of the
patch. -/
def mergeSliceWithSpecialElements (original : List Storage.OwnerReference)
    (patch : List OwnerReferencePatch) : List Storage.OwnerReference × List Storage.OwnerReference :=
  patch.foldl (fun (original, rest) v => match v with
    | .merge ref => (original, rest ++ [ref])
    | .delete uid => (deleteMatchingEntries original uid, rest)) (original, [])

/-- `mergeMap` of two references. -/
def mergeReference (original ref : Storage.OwnerReference) : Storage.OwnerReference :=
  { ref with
    controller := ref.controller <|> original.controller
    blockOwnerDeletion := ref.blockOwnerDeletion <|> original.blockOwnerDeletion }

/-- A reference of the patch goes into the first with its uid, or to the
end. -/
def mergeInto (ref : Storage.OwnerReference) : List Storage.OwnerReference → List Storage.OwnerReference
  | [] => [ref]
  | original :: rest =>
    if original.uid = ref.uid then mergeReference original ref :: rest
    else original :: mergeInto ref rest

def mergeSliceWithoutSpecialElements (original patch : List Storage.OwnerReference) : List Storage.OwnerReference :=
  patch.foldl (fun original ref => mergeInto ref original) original

def mergeSlice (original : List Storage.OwnerReference) (patch : List OwnerReferencePatch) :
    List Storage.OwnerReference :=
  let (original, patch) := mergeSliceWithSpecialElements original patch
  mergeSliceWithoutSpecialElements original patch

/-- A reference of the patch as it is stored where there is no list to merge
it into; a field that is not there is empty. -/
def OwnerReferencePatch.stored : OwnerReferencePatch → Storage.OwnerReference
  | .merge ref => ref
  | .delete uid => { apiVersion := [], kind := [], name := [], uid }

/-- `mergeMap` of the owner references. -/
def patchOwnerReferences (original : Option (List Storage.OwnerReference))
    (patch : List OwnerReferencePatch) : List Storage.OwnerReference :=
  match original with
  | some original => mergeSlice original patch
  | none => patch.map (·.stored)

def strategicMergePatch (original : Pod) (patch : PodPatch) : Pod :=
  let metadata := original.objectMeta
  { original with
    metadata := some { metadata with
      uid := patch.uid <|> metadata.uid
      finalizers :=
        if patch.finalizers.isEmpty then
          metadata.finalizers.map fun finalizers =>
            finalizers.filter fun finalizer => !patch.deletedFinalizers.contains finalizer
        else some patch.finalizers }
    body := { original.body with
      ownerReferences := some (patchOwnerReferences original.body.ownerReferences patch.ownerReferences) } }

/-! ## Claims -/

/-- `PodControllerRefManager`. `matches` is that of the selector and of the
filters, `canAdopt` what `canAdoptFunc` returns. -/
structure PodControllerRefManager where
  controller : ObjectMeta
  apiVersion : JsString
  kind : JsString
  «matches» : Pod → Bool
  canAdopt : Option JsString := none
  finalizers : List JsString := []

def getControllerOf (pod : Pod) : Option Storage.OwnerReference :=
  (pod.body.ownerReferences.getD []).find? (·.controller = some true)

inductive ClaimError where
  | cannotAdopt (message : JsString)
  | api (e : ApiError PodError)
  deriving DecidableEq

def isNotFoundError : ApiError PodError → Bool
  | .notFound _ => true
  | .store (.notFound _) => true
  | _ => false

def isInvalidError : ApiError PodError → Bool
  | .invalid _ => true
  | .store (.hook (.invalid _)) => true
  | _ => false

namespace PodControllerRefManager

variable {locale : Etcd.Locale} {E : Type} (manager : PodControllerRefManager)
  (pods : Store PodBody E PodError) (call rounds : Nat)

/-- The reference to the controller. -/
def reference : Storage.OwnerReference where
  apiVersion := manager.apiVersion
  kind := manager.kind
  name := manager.controller.name.getD []
  uid := manager.controller.uid.getD []
  controller := some true
  blockOwnerDeletion := some true

def ownerRefControllerPatch (pod : Pod) : PodPatch where
  uid := pod.objectMeta.uid
  ownerReferences := [.merge manager.reference]
  finalizers := manager.finalizers

def generateDeleteOwnerRefStrategicMergeBytes (pod : Pod) : PodPatch where
  uid := pod.objectMeta.uid
  ownerReferences := [.delete (manager.controller.uid.getD [])]
  deletedFinalizers := manager.finalizers

/-- `podControl.patchPod`, with the error it returns. -/
def patchPod (pod : Pod) (patch : PodPatch) :
    ApiRequest locale PodBody E PodError (Except (ApiError PodError) Pod) :=
  (patchNamespacedPod pods call rounds
    { name := pod.objectMeta.name.getD []
      «namespace» := pod.objectMeta.namespace.getD (js "default")
      patchedName := none
      patchedUid := patch.uid.map .string
      patch := fun live => .ok (strategicMergePatch live patch) }).attempt

def adoptPod (pod : Pod) : ApiRequest locale PodBody E PodError (Option ClaimError) := do
  match manager.canAdopt with
  | some message =>
    let text := fun value : Option JsString => value.getD (js "undefined")
    return some (.cannotAdopt (js "can't adopt Pod " ++ text pod.objectMeta.namespace ++ js "/"
      ++ text pod.objectMeta.name ++ js " (" ++ text pod.objectMeta.uid ++ js "): " ++ message))
  | none =>
    match ← patchPod pods call rounds pod (manager.ownerRefControllerPatch pod) with
    | .ok _ => return none
    | .error e => return some (.api e)

def releasePod (pod : Pod) : ApiRequest locale PodBody E PodError (Option ClaimError) := do
  match ← patchPod pods call rounds pod (manager.generateDeleteOwnerRefStrategicMergeBytes pod) with
  | .ok _ => return none
  | .error e => if isNotFoundError e || isInvalidError e then return none else return some (.api e)

/-- What an error of a patch comes to. -/
def unclaimed : Option ClaimError → Bool × Option ClaimError
  | some (.api e) => if isNotFoundError e then (false, none) else (false, some (.api e))
  | some e => (false, some e)
  | none => (false, none)

def claimObject (pod : Pod) : ApiRequest locale PodBody E PodError (Bool × Option ClaimError) := do
  let deleted := manager.controller.deletionTimestamp.isSome
  match getControllerOf pod with
  | some controllerRef =>
    if some controllerRef.uid ≠ manager.controller.uid then return (false, none)
    else if manager.matches pod then return (true, none)
    else if deleted then return (false, none)
    else return unclaimed (← manager.releasePod pods call rounds pod)
  | none =>
    let controllerNamespace := manager.controller.namespace.getD []
    if deleted || !manager.matches pod then return (false, none)
    else if pod.hasDeletionTimestamp then return (false, none)
    else if controllerNamespace ≠ [] ∧ controllerNamespace ≠ pod.objectMeta.namespace.getD [] then
      return (false, none)
    else
      match ← manager.adoptPod pods call rounds pod with
      | none => return (true, none)
      | some e => return unclaimed (some e)

/-- `claimPods`: the pods that are claimed, and the errors. -/
def claimPods : List Pod → ApiRequest locale PodBody E PodError (List Pod × List ClaimError)
  | [] => return ([], [])
  | pod :: rest => do
    let (ok, err) ← manager.claimObject pods call rounds pod
    let (claimed, errlist) ← claimPods rest
    match err with
    | some e => return (claimed, e :: errlist)
    | none => return (if ok then pod :: claimed else claimed, errlist)

end PodControllerRefManager

end Webernetes.Controller
