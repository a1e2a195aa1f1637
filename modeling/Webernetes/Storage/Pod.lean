/-
Webernetes.Storage.Pod — the store of pods.

A container is what its text is, and so is a status: the store looks into
neither.
-/
import Webernetes.Storage.Store

namespace Webernetes.Storage

open Js Base

/-- `V1PodDNSConfig`. -/
structure PodDNSConfig where
  nameservers : Option (List JsString) := none
  deriving DecidableEq

structure PodSpec where
  containers : Option (List JsString) := none
  dnsPolicy : Option JsString := none
  dnsConfig : Option PodDNSConfig := none
  enableServiceLinks : Option Bool := none
  nodeName : Option JsString := none
  terminationGracePeriodSeconds : Option Int := none
  deriving DecidableEq

/-- The body of a pod. -/
structure PodBody where
  spec : Option PodSpec := none
  status : Option JsString := none
  /-- `metadata.ownerReferences`. -/
  ownerReferences : Option (List OwnerReference) := none
  deriving DecidableEq

abbrev Pod := Storable PodBody

inductive PodError where
  | error (message : JsString)
  | invalid (message : JsString)
  deriving DecidableEq

namespace PodStore

/-- `Pod "${name}" is invalid: `. -/
def invalid (name : JsString) (detail : JsString) : PodError :=
  .invalid (js "Pod \"" ++ name ++ js "\" is invalid: " ++ detail)

def validateCreate (pod : Pod) : Except PodError PodBody :=
  if !truthy pod.objectMeta.name then .error (.error (js "Pod name is required"))
  else
    let name := pod.objectMeta.name.getD []
    match pod.body.spec with
    | none => .error (.error (js "Pod spec is required"))
    | some spec =>
      let dnsNone := spec.dnsPolicy == some (js "None")
      if spec.containers.all List.isEmpty then
        .error (invalid name (js "spec.containers: Required value"))
      else if dnsNone && spec.dnsConfig.isNone then
        .error (invalid name
          (js "spec.dnsConfig: Required value: must provide `dnsConfig` when `dnsPolicy` is None"))
      else if dnsNone && spec.dnsConfig.any (·.nameservers.all List.isEmpty) then
        .error (invalid name (js "spec.dnsConfig.nameservers: Required value: "
          ++ js "must provide at least one DNS nameserver when `dnsPolicy` is None"))
      else .ok { pod.body with spec := some { spec with
        enableServiceLinks := spec.enableServiceLinks <|> some true } }

def validateUpdate (pod existing : Pod) : Except PodError PodBody := do
  let body ← validateCreate pod
  let assigned := existing.body.spec.bind (·.nodeName)
  let spec := body.spec.map fun spec => { spec with nodeName := spec.nodeName <|> assigned }
  if spec.bind (·.nodeName) ≠ assigned then
    .error (invalid (pod.objectMeta.name.getD (js "undefined")) (js "spec: Forbidden: "
      ++ js "pod updates may not change fields other than spec.containers[*].image"))
  else .ok { body with spec }

/-- Nothing of a pod is changed but its spec. -/
theorem body_validateCreate {pod : Pod} {body : PodBody} (h : validateCreate pod = .ok body) :
    body = { pod.body with spec := body.spec } := by
  unfold validateCreate at h
  dsimp only at h
  repeat' split at h
  all_goals cases h
  rfl

theorem body_validateUpdate {pod existing : Pod} {body : PodBody}
    (h : validateUpdate pod existing = .ok body) : body = { pod.body with spec := body.spec } := by
  unfold validateUpdate at h
  cases hcreate : validateCreate pod with
  | error e =>
    rw [hcreate] at h
    cases h
  | ok created =>
    rw [hcreate] at h
    simp only [bind, Except.bind] at h
    split at h
    · cases h
    · cases h
      rw [body_validateCreate hcreate]

end PodStore

open PodStore in
/-- `PodStore`. -/
def podStore (json : JsonCodec Pod) (parseNamespace : JsString → Option (Option (Storable Unit))) :
    Store PodBody Unit PodError where
  opts :=
    { apiVersion := some (js "v1")
      defaultQualifiedResource := js "pods"
      kind := some (js "Pod")
      singularQualifiedResource := js "pod"
      namespaced := true }
  json := json
  parseNamespace := parseNamespace
  hooks :=
    { Hooks.plain (fun pod => pure pod.body) fun pod _ => pure pod.body with
      validateCreate := fun pod => .ofExcept (validateCreate pod)
      validateUpdate := fun pod existing => .ofExcept (validateUpdate pod existing) }

instance PodDNSConfig.spelling : Spelling PodDNSConfig :=
  .via (β := Option (List JsString)) (·.nameservers) (⟨·⟩) fun _ => rfl

instance PodSpec.spelling : Spelling PodSpec :=
  .via (β := Option (List JsString) × Option JsString × Option PodDNSConfig × Option Bool
      × Option JsString × Option Int)
    (fun spec => (spec.containers, spec.dnsPolicy, spec.dnsConfig, spec.enableServiceLinks,
      spec.nodeName, spec.terminationGracePeriodSeconds))
    (fun (containers, dnsPolicy, dnsConfig, enableServiceLinks, nodeName,
        terminationGracePeriodSeconds) =>
      ⟨containers, dnsPolicy, dnsConfig, enableServiceLinks, nodeName,
        terminationGracePeriodSeconds⟩) fun _ => rfl

instance PodBody.spelling : Spelling PodBody :=
  .via (β := Option PodSpec × Option JsString × Option (List OwnerReference))
    (fun body => (body.spec, body.status, body.ownerReferences))
    (fun (spec, status, ownerReferences) => ⟨spec, status, ownerReferences⟩) fun _ => rfl

end Webernetes.Storage
