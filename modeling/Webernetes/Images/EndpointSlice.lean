/-
Webernetes.Images.EndpointSlice — the slice that the endpoint slice controller
builds for a service: `endpointSliceForService`.

A slice has one list of ports for all its endpoints. The port of a named
`targetPort` is that of the first pod that has it, so whether it is a port of
the other endpoints depends on the pods: `Agree`, and `pairs_serve_iff`.
-/
import Webernetes.Js.OrderedMap
import Webernetes.Js.Text

namespace Webernetes.Images.EndpointSlices

open Js

/-! ## Services and pods -/

inductive TargetPort where
  | number (port : Int)
  | name (name : JsString)
  deriving DecidableEq

structure ServicePort where
  appProtocol : Option JsString := none
  name : Option JsString := none
  port : Int
  protocol : Option JsString := none
  targetPort : Option TargetPort := none
  deriving DecidableEq

/-- A `V1Service`, with its `metadata` and its `spec` in front. -/
structure Service where
  name : Option JsString := none
  «namespace» : Option JsString := none
  uid : Option JsString := none
  labels : Option (JsMap JsString JsString) := none
  clusterIP : Option JsString := none
  ipFamilies : Option (List JsString) := none
  ports : Option (List ServicePort) := none
  publishNotReadyAddresses : Option Bool := none

structure ContainerPort where
  containerPort : Int
  name : Option JsString := none
  protocol : Option JsString := none
  deriving DecidableEq

structure Container where
  ports : Option (List ContainerPort) := none
  deriving DecidableEq

structure PodCondition where
  type : JsString
  status : JsString
  deriving DecidableEq

/-- The pod IPs by their `ip`, the container statuses by their `ready`. -/
structure PodStatus where
  phase : Option JsString := none
  podIP : Option JsString := none
  podIPs : Option (List (Option JsString)) := none
  conditions : Option (List PodCondition) := none
  containerStatuses : Option (List Bool) := none
  deriving DecidableEq

/-- A `V1Pod`, with its `metadata` and its `spec` in front. -/
structure Pod where
  name : Option JsString := none
  uid : Option JsString := none
  deletionTimestamp : Option JsString := none
  nodeName : Option JsString := none
  containers : Option (List Container) := none
  status : Option PodStatus := none
  deriving DecidableEq

/-! ## The slice -/

structure EndpointPort where
  appProtocol : Option JsString
  name : Option JsString
  port : Int
  protocol : JsString
  deriving DecidableEq

structure EndpointConditions where
  ready : Bool
  serving : Bool
  terminating : Bool
  deriving DecidableEq

structure ObjectReference where
  apiVersion : JsString
  kind : JsString
  name : Option JsString
  «namespace» : JsString
  uid : Option JsString
  deriving DecidableEq

structure Endpoint where
  addresses : List JsString
  conditions : EndpointConditions
  nodeName : Option JsString
  targetRef : ObjectReference
  deriving DecidableEq

structure OwnerReference where
  apiVersion : JsString
  blockOwnerDeletion : Bool
  controller : Bool
  kind : JsString
  name : JsString
  uid : JsString
  deriving DecidableEq

structure EndpointSlice where
  apiVersion : JsString
  kind : JsString
  addressType : JsString
  name : JsString
  «namespace» : JsString
  labels : JsMap JsString JsString
  ownerReferences : List OwnerReference
  ports : List EndpointPort
  endpoints : List Endpoint

/-! ## Addresses -/

/-- `ip.includes(":")`. -/
def isIPv6String (ip : JsString) : Bool := ip.contains 0x3A

def addressTypeForIP (ip : JsString) : JsString := if isIPv6String ip then js "IPv6" else js "IPv4"

namespace Pod

variable (pod : Pod)

def podIPs : List JsString :=
  let podIPs := (((pod.status.bind (·.podIPs)).getD []).filterMap id).filter (!·.isEmpty)
  if podIPs.length > 0 then podIPs
  else ((pod.status.bind (·.podIP)).filter (!·.isEmpty)).toList

def endpointAddresses (addressType : JsString) : List JsString :=
  pod.podIPs.filter fun ip => addressTypeForIP ip = addressType

def isReadyPod : Bool :=
  match pod.status with
  | none => false
  | some status =>
    if status.phase ≠ some (js "Running") then false
    else
      match (status.conditions.getD []).find? fun condition => condition.type = js "Ready" with
      | some condition => condition.status = js "True"
      | none =>
        let statuses := status.containerStatuses.getD []
        statuses.length > 0 && statuses.all id

/-- The first container port with the name and the protocol. -/
def containerPort (name protocol : JsString) : Option Int :=
  (pod.containers.getD []).findSome? fun container =>
    ((container.ports.getD []).find? fun containerPort =>
      containerPort.name = some name ∧ containerPort.protocol.getD (js "TCP") = protocol).map
        (·.containerPort)

end Pod

namespace ServicePort

variable (servicePort : ServicePort)

def target : TargetPort := servicePort.targetPort.getD (.number servicePort.port)

def protocolOrTCP : JsString := servicePort.protocol.getD (js "TCP")

def resolveEndpointPort (pods : List Pod) : Option Int :=
  match servicePort.target with
  | .number targetPort => some targetPort
  | .name targetPort => pods.findSome? fun pod => pod.containerPort targetPort servicePort.protocolOrTCP

/-- The port of the slice, where there is one. -/
def endpointPorts (pods : List Pod) : List EndpointPort :=
  match servicePort.resolveEndpointPort pods with
  | none => []
  | some endpointPort =>
    [{ appProtocol := servicePort.appProtocol
       name := servicePort.name
       port := endpointPort
       protocol := servicePort.protocolOrTCP }]

end ServicePort

namespace Service

variable (service : Service)

def serviceSupportedAddressTypes : List JsString :=
  let addressTypes := (service.ipFamilies.getD []).flatMap fun family =>
    if family = js "IPv4" then [js "IPv4"]
    else if family = js "IPv6" then [js "IPv6"]
    else []
  if addressTypes.length > 0 then addressTypes
  else
    match service.clusterIP.filter fun clusterIP => !clusterIP.isEmpty && clusterIP != js "None" with
    | some clusterIP => [if isIPv6String clusterIP then js "IPv6" else js "IPv4"]
    | none => [js "IPv4", js "IPv6"]

def endpointSliceAddressType (pods : List Pod) : JsString :=
  let supportedAddressTypes := service.serviceSupportedAddressTypes
  match supportedAddressTypes.find? fun addressType =>
      pods.any fun pod => (pod.endpointAddresses addressType).length > 0 with
  | some addressType => addressType
  | none => supportedAddressTypes.head?.getD (js "IPv4")

def labelServiceName : JsString := js "kubernetes.io/service-name"

def labelManagedBy : JsString := js "endpointslice.kubernetes.io/managed-by"

def labelHeadlessService : JsString := js "service.kubernetes.io/headless"

def isReservedEndpointSliceLabel (label : JsString) : Bool :=
  label = labelServiceName || label = labelManagedBy || label = labelHeadlessService

def endpointSliceLabels : JsMap JsString JsString :=
  let labels := (service.labels.getD .empty).entries.foldl (fun labels (key, value) =>
    if !isReservedEndpointSliceLabel key then JsMap.set labels key value else labels) .empty
  let labels := if service.clusterIP = some (js "None") then labels.set labelHeadlessService [] else labels
  (labels.set labelServiceName (service.name.getD [])).set labelManagedBy
    (js "endpointslice-controller.k8s.io")

def serviceOwnerReferences : List OwnerReference :=
  match service.name.filter (!·.isEmpty), service.uid.filter (!·.isEmpty) with
  | some name, some uid =>
    [{ apiVersion := js "v1", blockOwnerDeletion := true, controller := true, kind := js "Service", name, uid }]
  | _, _ => []

def generatedSliceName (serviceName : JsString) : JsString := serviceName ++ js "-simulator"

/-- The endpoint of a pod, unless it has no address of the type. -/
def podEndpoints (addressType : JsString) (pod : Pod) : List Endpoint :=
  let addresses := pod.endpointAddresses addressType
  if addresses.length = 0 then []
  else
    let serving := pod.isReadyPod
    let terminating := pod.deletionTimestamp.isSome
    [{ addresses
       conditions := {
         ready := service.publishNotReadyAddresses = some true || (serving && !terminating)
         serving, terminating }
       nodeName := pod.nodeName
       targetRef := {
         apiVersion := js "v1"
         kind := js "Pod"
         name := pod.name
         «namespace» := service.namespace.getD (js "default")
         uid := pod.uid } }]

def endpointSliceForService (pods : List Pod) : EndpointSlice :=
  let addressType := service.endpointSliceAddressType pods
  { apiVersion := js "discovery.k8s.io/v1"
    kind := js "EndpointSlice"
    addressType
    name := generatedSliceName (service.name.getD [])
    «namespace» := service.namespace.getD (js "default")
    labels := service.endpointSliceLabels
    ownerReferences := service.serviceOwnerReferences
    ports :=
      if pods.length = 0 then []
      else (service.ports.getD []).flatMap fun port => port.endpointPorts pods
    endpoints := pods.flatMap (service.podEndpoints addressType) }

end Service

/-! ## Endpoints and ports -/

/-- The number is what the target port of the service is on the pod. -/
def Serves (pod : Pod) (servicePort : ServicePort) (number : Int) : Prop :=
  match servicePort.target with
  | .number targetPort => number = targetPort
  | .name targetPort => pod.containerPort targetPort servicePort.protocolOrTCP = some number

/-- Every endpoint serves every port of its slice. -/
def PairsServe (service : Service) (pods : List Pod) : Prop :=
  let slice := service.endpointSliceForService pods
  ∀ endpoint ∈ slice.endpoints, ∀ port ∈ slice.ports,
    ∀ pod ∈ pods, endpoint ∈ service.podEndpoints slice.addressType pod →
      ∀ servicePort ∈ service.ports.getD [], port ∈ servicePort.endpointPorts pods →
        Serves pod servicePort port.port

/-- Where a pod is the first to have a named target port, all pods with an
address in the slice have it, with the number that it has there. -/
def Agree (service : Service) (pods : List Pod) : Prop :=
  ∀ servicePort ∈ service.ports.getD [], ∀ name, servicePort.target = .name name →
    ∀ before first after number, pods = before ++ first :: after →
      (∀ pod ∈ before, pod.containerPort name servicePort.protocolOrTCP = none) →
      first.containerPort name servicePort.protocolOrTCP = some number →
      ∀ pod ∈ pods, pod.endpointAddresses (service.endpointSliceAddressType pods) ≠ [] →
        pod.containerPort name servicePort.protocolOrTCP = some number

section Pairs

variable {service : Service} {pods : List Pod}

theorem mem_endpointPorts {servicePort : ServicePort} {port : EndpointPort} :
    port ∈ servicePort.endpointPorts pods ↔ ∃ number, servicePort.resolveEndpointPort pods = some number ∧
      port = ⟨servicePort.appProtocol, servicePort.name, number, servicePort.protocolOrTCP⟩ := by
  unfold ServicePort.endpointPorts
  cases servicePort.resolveEndpointPort pods <;> simp

theorem podEndpoints_ne_nil {addressType : JsString} {pod : Pod} :
    service.podEndpoints addressType pod ≠ [] ↔ pod.endpointAddresses addressType ≠ [] := by
  unfold Service.podEndpoints
  cases haddresses : pod.endpointAddresses addressType <;> simp

/-- Over the pods that have an endpoint and the ports that are resolved. -/
theorem pairsServe_iff : PairsServe service pods ↔
    ∀ pod ∈ pods, pod.endpointAddresses (service.endpointSliceAddressType pods) ≠ [] →
      ∀ servicePort ∈ service.ports.getD [], ∀ number,
        servicePort.resolveEndpointPort pods = some number → Serves pod servicePort number := by
  constructor
  · intro h pod hpod haddresses servicePort hport number hnumber
    obtain ⟨endpoint, hendpoint⟩ := List.exists_mem_of_ne_nil _ (podEndpoints_ne_nil.mpr haddresses)
    have hmem := mem_endpointPorts.mpr ⟨number, hnumber, rfl⟩
    have hlisted : ⟨servicePort.appProtocol, servicePort.name, number, servicePort.protocolOrTCP⟩ ∈
        (service.endpointSliceForService pods).ports := by
      show _ ∈ if pods.length = 0 then [] else _
      rw [if_neg (fun hlength => List.ne_nil_of_mem hpod (List.length_eq_zero_iff.mp hlength))]
      exact List.mem_flatMap.mpr ⟨servicePort, hport, hmem⟩
    exact h endpoint (List.mem_flatMap.mpr ⟨pod, hpod, hendpoint⟩) _ hlisted pod hpod hendpoint
      servicePort hport hmem
  · intro h endpoint _ port _ pod hpod hendpoint servicePort hport hmem
    obtain ⟨number, hnumber, rfl⟩ := mem_endpointPorts.mp hmem
    exact h pod hpod (podEndpoints_ne_nil.mp (List.ne_nil_of_mem hendpoint)) servicePort hport number hnumber

/-- What is resolved is of the first pod that has it. -/
theorem resolveEndpointPort_eq_some_iff {servicePort : ServicePort} {name : JsString}
    (hname : servicePort.target = .name name) {number : Int} :
    servicePort.resolveEndpointPort pods = some number ↔ ∃ before first after,
      pods = before ++ first :: after ∧
      first.containerPort name servicePort.protocolOrTCP = some number ∧
      ∀ pod ∈ before, pod.containerPort name servicePort.protocolOrTCP = none := by
  rw [ServicePort.resolveEndpointPort, hname]
  exact List.findSome?_eq_some_iff

/-- Every endpoint of the slice serves every port of it exactly when the pods
agree on the named ports. -/
theorem pairs_serve_iff (service : Service) (pods : List Pod) :
    PairsServe service pods ↔ Agree service pods := by
  rw [pairsServe_iff]
  constructor
  · intro h servicePort hport name hname before first after number hpods hbefore hfirst pod hpod haddresses
    have hnumber := (resolveEndpointPort_eq_some_iff hname).mpr ⟨before, first, after, hpods, hfirst, hbefore⟩
    have hserves := h pod hpod haddresses servicePort hport number hnumber
    rwa [Serves, hname] at hserves
  · intro h pod hpod haddresses servicePort hport number hnumber
    cases htarget : servicePort.target with
    | number targetPort =>
      rw [ServicePort.resolveEndpointPort, htarget] at hnumber
      rw [Serves, htarget]
      exact (Option.some.inj hnumber).symm
    | name name =>
      obtain ⟨before, first, after, hpods, hfirst, hbefore⟩ :=
        (resolveEndpointPort_eq_some_iff htarget).mp hnumber
      rw [Serves, htarget]
      exact h servicePort hport name htarget before first after number hpods hbefore hfirst pod hpod haddresses

end Pairs

/-- Two pods of a service that name different ports `http`. -/
def podWith (ip : JsString) (port : Int) : Pod where
  containers := some [{ ports := some [{ containerPort := port, name := some (js "http") }] }]
  status := some { podIP := some ip }

def httpService : Service where
  name := some (js "web")
  ports := some [{ port := 80, targetPort := some (.name (js "http")) }]

theorem second_pod_on_wrong_port :
    ¬ PairsServe httpService [podWith (js "10.0.0.1") 8080, podWith (js "10.0.0.2") 9090] := by
  rw [pairsServe_iff]
  intro h
  have hserves : (podWith (js "10.0.0.2") 9090).containerPort (js "http") (js "TCP") = some 8080 :=
    h (podWith (js "10.0.0.2") 9090) (by decide) (by decide)
      { port := 80, targetPort := some (.name (js "http")) } (by decide) 8080 (by decide)
  exact absurd hserves (by decide)

end Webernetes.Images.EndpointSlices
