/-
Webernetes.Client.PodApi — the operations of the API on pods.

A patch is what it does to a pod: `strategicMergePatch` or `mergePatch` of
its body, as the content type has it. What is drawn (names, uids, times) is
an argument.
-/
import Webernetes.Client.Delete
import Webernetes.Client.StatusApi

namespace Webernetes.Client

open Js Base Etcd Storage
open Store (Request)

/-! ## Requests -/

structure CreatePodRequest where
  «namespace» : JsString
  body : Pod

structure BindPodRequest where
  name : JsString
  «namespace» : JsString
  /-- `body.target.name`. -/
  target : Option JsString

structure ReplacePodRequest where
  name : JsString
  «namespace» : JsString
  body : Pod

/-- A value of a patch, where the API looks at one. -/
inductive PatchValue where
  | string (value : JsString)
  /-- A value that is no string, by its text. -/
  | other (text : JsString)
  deriving DecidableEq

def PatchValue.text : PatchValue → JsString
  | .string value => value
  | .other text => text

/-- `body.metadata.name`, `body.metadata.uid`, and the patch applied to an
object. -/
structure PatchRequest (β : Type) where
  name : JsString
  «namespace» : JsString
  patchedName : Option PatchValue
  patchedUid : Option PatchValue
  patch : Storable β → Except JsString (Storable β)

inductive PodCall where
  | createNamespacedPod (draws : Draws) (request : CreatePodRequest)
  | createNamespacedPodBinding (request : BindPodRequest)
  | replaceNamespacedPod (request : ReplacePodRequest)
  | patchNamespacedPod (request : PatchRequest PodBody)
  | patchNamespacedPodStatus (request : PatchRequest PodBody)
  | replaceNamespacedPodStatus (request : StatusRequest PodBody)
  | deleteNamespacedPod (name ns : JsString) (request : DeleteRequest) (now : Nat → Int)

/-! ## Operations -/

section Operations

variable {locale : Etcd.Locale} {β E ε : Type}

def validatePatchName (request : PatchRequest β) : Except (ApiError ε) Unit :=
  match request.patchedName with
  | none => .ok ()
  | some patchedName =>
    if patchedName = .string request.name then .ok ()
    else .error (.badRequest (js "the name of the object (" ++ patchedName.text
      ++ js ") does not match the name on the URL (" ++ request.name ++ js ")"))

def validatePatchUid (request : PatchRequest β) (uid : Option JsString) : Except (ApiError ε) Unit :=
  match request.patchedUid with
  | none => .ok ()
  | some patchedUid =>
    if uid.map .string = some patchedUid then .ok ()
    else .error (.invalid (js "Pod \"" ++ request.name
      ++ js "\" is invalid: metadata.uid: Invalid value: \"" ++ patchedUid.text
      ++ js "\": field is immutable"))

/-- `metadata ??= {}`, the name of the request, and its namespace where there
is none. -/
def named (obj : Storable β) (name ns : JsString) : Storable β :=
  { obj with metadata := some { obj.objectMeta with
      name := some name
      «namespace» := obj.objectMeta.namespace <|> some ns } }

variable (store : Store β E ε)

/-- The replacement of an object, once where the body has a resourceVersion
and else again on conflicts. -/
def replaceResource (call rounds : Nat) (name ns : JsString) (body : Storable β) :
    ApiRequest locale β E ε (Storable β) :=
  let replace := ofStore (store.update call rounds name (named body name ns) false)
  if truthy body.objectMeta.resourceVersion then replace else retryConflicts fun _ => replace

/-- One attempt to patch an object. -/
def patchOnce (call rounds : Nat) (kind : JsString) (request : PatchRequest β) :
    ApiRequest locale β E ε (Storable β) := do
  match ← ofStore (store.readStored request.name (some request.namespace)) with
  | none => .throw (.notFound (kind ++ js " \"" ++ request.name ++ js "\" not found"))
  | some stored =>
    Prog.ofExcept (validatePatchName request)
    Prog.ofExcept (validatePatchUid request stored.obj.objectMeta.uid)
    let patched ← Prog.ofExcept ((request.patch stored.obj).mapError fun message =>
      .store (.error message))
    ofStore (store.update call rounds request.name (named patched request.name request.namespace)
      false)

end Operations

section Pods

variable {locale : Etcd.Locale} {E : Type} (pods : Store PodBody E PodError)

/-- `PodStore.bind`. -/
def bind (call rounds : Nat) (request : BindPodRequest) : Request locale PodBody E PodError Pod := do
  match ← pods.readStored request.name (some request.namespace) with
  | none => .throw (.notFound (js "Pod \"" ++ request.name ++ js "\" not found"))
  | some stored =>
    if !truthy request.target then
      .throw (.hook (.invalid (js "Binding \"" ++ request.name
        ++ js "\" is invalid: target.name: Required value")))
    else if truthy (stored.obj.body.spec.bind (·.nodeName)) then
      .throw (.hook (.invalid (js "Pod \"" ++ request.name
        ++ js "\" is invalid: spec.nodeName: Invalid value: already assigned")))
    else
      let spec := stored.obj.body.spec.getD { containers := some [] }
      let body := { stored.obj.body with spec := some { spec with nodeName := request.target } }
      pods.update call rounds request.name { stored.obj with body } true

def createNamespacedPod (call : Nat) (draws : Draws) (request : CreatePodRequest) :
    ApiRequest locale PodBody E PodError Pod :=
  let metadata := { request.body.objectMeta with
    «namespace» := request.body.objectMeta.namespace <|> some request.namespace }
  ofStore (pods.create call draws { request.body with metadata := some metadata })

def createNamespacedPodBinding (call rounds : Nat) (request : BindPodRequest) :
    ApiRequest locale PodBody E PodError Pod :=
  ofStore (bind pods call rounds request)

def replaceNamespacedPod (call rounds : Nat) (request : ReplacePodRequest) :
    ApiRequest locale PodBody E PodError Pod :=
  replaceResource pods call rounds request.name request.namespace request.body

def patchNamespacedPod (call rounds : Nat) (request : PatchRequest PodBody) :
    ApiRequest locale PodBody E PodError Pod :=
  retryConflicts fun _ => patchOnce pods call rounds (js "Pod") request

def patchNamespacedPodStatus (call rounds : Nat) (request : PatchRequest PodBody) :
    ApiRequest locale PodBody E PodError Pod :=
  retryConflicts fun _ => patchOnce pods call rounds (js "Pod") request

def podDeletionGracePeriodSeconds (request : DeleteRequest) (pod : Option Pod) : Int :=
  (request.gracePeriodSeconds <|> request.body.bind (·.gracePeriodSeconds)
    <|> (pod.bind (·.body.spec)).bind (·.terminationGracePeriodSeconds)).getD 30

def deleteNamespacedPod (call rounds : Nat) (name ns : JsString) (request : DeleteRequest)
    (now : Nat → Int) : ApiRequest locale PodBody E PodError Pod := do
  let pod ← ofStore (pods.readStored name (some ns))
  retryConflicts fun attempt =>
    deleteResource pods call rounds (js "Pod") name (some ns) request
      { defaultGracePeriodSeconds :=
          some (podDeletionGracePeriodSeconds request (pod.map (·.obj))) }
      (now attempt)

/-- The operations on pods, each with its number and a bound on the rounds
of the store's loops. -/
def podOperation (rounds call : Nat) : PodCall → ApiRequest locale PodBody E PodError Pod
  | .createNamespacedPod draws request => createNamespacedPod pods call draws request
  | .createNamespacedPodBinding request => createNamespacedPodBinding pods call rounds request
  | .replaceNamespacedPod request => replaceNamespacedPod pods call rounds request
  | .patchNamespacedPod request => patchNamespacedPod pods call rounds request
  | .patchNamespacedPodStatus request => patchNamespacedPodStatus pods call rounds request
  | .replaceNamespacedPodStatus request =>
    ofStore (replaceNamespacedPodStatus pods podStatus call rounds request)
  | .deleteNamespacedPod name ns request now =>
    deleteNamespacedPod pods call rounds name ns request now

end Pods

end Webernetes.Client
